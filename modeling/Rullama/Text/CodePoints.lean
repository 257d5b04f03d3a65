import Rullama.Text.Units

/-! # Characters of a string

A surrogate pair is one character of a string, and any other unit is one by itself. A text is
encoded in UTF-8 character by character, and half a pair is replaced.
-/
namespace Rullama.Text

def leads (c : UInt16) : Bool := 0xD800 ≤ c && c < 0xDC00

def trails (c : UInt16) : Bool := 0xDC00 ≤ c && c < 0xE000

/-- What an iterator of the string goes through. -/
def chars : Units → List Units
  | [] => []
  | [c] => [[c]]
  | c :: d :: s => if leads c && trails d then [c,d] :: chars s else [c] :: chars (d :: s)

def utf8Char : Units → List UInt8
  | [c] =>
    if leads c || trails c then [0xEF,0xBF,0xBD] else String.utf8EncodeChar (Char.ofNat c.toNat)
  | [c,d] =>
    String.utf8EncodeChar
      (Char.ofNat (0x10000 + (c.toNat - 0xD800) * 0x400 + (d.toNat - 0xDC00)))
  | _ => []

/-- What `TextEncoder` makes of a string. -/
def encodeUtf8 (s : Units) : List UInt8 := (chars s).flatMap utf8Char

theorem flatten_chars (s : Units) : (chars s).flatten = s := by
  induction s using chars.induct with
  | case1 => rfl
  | case2 c => rfl
  | case3 c d s hpair ih => rw [chars,if_pos hpair,List.flatten_cons,ih]; rfl
  | case4 c d s hpair ih => rw [chars,if_neg hpair,List.flatten_cons,ih]; rfl

/-- Where no pair begins, the characters are the units. -/
theorem chars_of_not_leads {s : Units} (h : ∀ c ∈ s, leads c = false) :
    chars s = s.map (fun c => [c]) := by
  induction s using chars.induct with
  | case1 => rfl
  | case2 c => rfl
  | case3 c d s hpair ih =>
    rw [h c List.mem_cons_self,Bool.false_and] at hpair
    cases hpair
  | case4 c d s hpair ih =>
    rw [chars,if_neg hpair,ih (fun e he => h e (List.mem_cons_of_mem c he))]
    rfl

/-- A text that is cut between characters is encoded part by part. -/
theorem encodeUtf8_of_flatMap {s : Units} {parts : List Units}
    (h : parts.flatMap chars = chars s) : encodeUtf8 s = parts.flatMap encodeUtf8 := by
  rw [encodeUtf8,← h,List.flatMap_assoc]
  rfl

end Rullama.Text
