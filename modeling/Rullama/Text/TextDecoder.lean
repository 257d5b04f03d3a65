import Rullama.Text.Units

/-! # Incremental decoding of UTF-8

A decoder goes through the bytes one by one and keeps what it has of a character. A byte that
does not belong where it stands is replaced, or ends a character that is replaced. The output
is a string of UTF-16 code units, without a byte order mark at its beginning.
-/
namespace Rullama.Text

def utf16 (codePoint : ℕ) : Units :=
  if codePoint < 0x10000 then [UInt16.ofNat codePoint]
  else
    [UInt16.ofNat (0xD800 + (codePoint - 0x10000) / 0x400),
      UInt16.ofNat (0xDC00 + (codePoint - 0x10000) % 0x400)]

/-- The string of these characters. -/
def unitsOf (text : List Char) : Units := text.flatMap (fun c => utf16 c.toNat)

def utf8 (text : List Char) : List UInt8 := text.flatMap String.utf8EncodeChar

/-- A character of which `needed` bytes are to come, the next one between the bounds. -/
structure Pending where
  codePoint : ℕ := 0
  needed : ℕ := 0
  lower : ℕ := 0x80
  upper : ℕ := 0xBF
  deriving DecidableEq

namespace Pending

/-- The first byte of a character. -/
def lead (b : ℕ) : Pending × List ℕ :=
  if b ≤ 0x7F then ({},[b])
  else if 0xC2 ≤ b ∧ b ≤ 0xDF then ({ codePoint := b % 0x20, needed := 1 },[])
  else if 0xE0 ≤ b ∧ b ≤ 0xEF then
    ({ codePoint := b % 0x10, needed := 2, lower := if b = 0xE0 then 0xA0 else 0x80,
       upper := if b = 0xED then 0x9F else 0xBF },[])
  else if 0xF0 ≤ b ∧ b ≤ 0xF4 then
    ({ codePoint := b % 0x08, needed := 3, lower := if b = 0xF0 then 0x90 else 0x80,
       upper := if b = 0xF4 then 0x8F else 0xBF },[])
  else ({},[0xFFFD])

def step (p : Pending) (b : ℕ) : Pending × List ℕ :=
  if p.needed = 0 then lead b
  else if b < p.lower ∨ p.upper < b then ((lead b).1,0xFFFD :: (lead b).2)
  else if p.needed = 1 then ({},[p.codePoint * 0x40 + b % 0x40])
  else ({ codePoint := p.codePoint * 0x40 + b % 0x40, needed := p.needed - 1 },[])

/-- What is pending after these bytes, and the code points they give. -/
def feed (p : Pending) : List UInt8 → Pending × List ℕ
  | [] => (p,[])
  | b :: bytes =>
    let next := p.step b.toNat
    let rest := feed next.1 bytes
    (rest.1,next.2 ++ rest.2)

theorem feed_append (p : Pending) (a b : List UInt8) :
    p.feed (a ++ b) = (((p.feed a).1.feed b).1,(p.feed a).2 ++ ((p.feed a).1.feed b).2) := by
  induction a generalizing p with
  | nil => rfl
  | cons c a ih =>
    rw [List.cons_append,feed,ih]
    simp only [feed,List.append_assoc]

/-- A byte after which more are needed. -/
theorem feed_cons {p q : Pending} {n : ℕ} (hn : n < 256) (h : p.step n = (q,[]))
    (bytes : List UInt8) : p.feed (UInt8.ofNat n :: bytes) = q.feed bytes := by
  rw [feed,UInt8.toNat_ofNat_of_lt' hn,h]
  rfl

theorem feed_singleton {p : Pending} {n v : ℕ} (hn : n < 256) (h : p.step n = ({},[v])) :
    p.feed [UInt8.ofNat n] = ({},[v]) := by
  rw [feed,UInt8.toNat_ofNat_of_lt' hn,h]
  rfl

theorem step_lead (b : ℕ) : step {} b = lead b := if_pos rfl

/-- A byte in the middle of a character. -/
theorem step_middle {p : Pending} {b : ℕ} (hneeded : 1 < p.needed) (hlower : p.lower ≤ b)
    (hupper : b ≤ p.upper) :
    p.step b = ({ codePoint := p.codePoint * 0x40 + b % 0x40, needed := p.needed - 1 },[]) := by
  rw [step,if_neg (by omega),if_neg (by omega),if_neg (by omega)]

theorem step_last {p : Pending} {b : ℕ} (hneeded : p.needed = 1) (hlower : p.lower ≤ b)
    (hupper : b ≤ p.upper) : p.step b = ({},[p.codePoint * 0x40 + b % 0x40]) := by
  rw [step,if_neg (by omega),if_neg (by omega),if_pos hneeded]

theorem lead_two {b : ℕ} (h : 0xC2 ≤ b ∧ b ≤ 0xDF) :
    lead b = ({ codePoint := b % 0x20, needed := 1 },[]) := by
  rw [lead,if_neg (by omega),if_pos h]

theorem lead_three {b : ℕ} (h : 0xE0 ≤ b ∧ b ≤ 0xEF) :
    lead b = ({ codePoint := b % 0x10, needed := 2, lower := if b = 0xE0 then 0xA0 else 0x80,
                upper := if b = 0xED then 0x9F else 0xBF },[]) := by
  rw [lead,if_neg (by omega),if_neg (by omega),if_pos h]

theorem lead_four {b : ℕ} (h : 0xF0 ≤ b ∧ b ≤ 0xF4) :
    lead b = ({ codePoint := b % 0x08, needed := 3, lower := if b = 0xF0 then 0x90 else 0x80,
                upper := if b = 0xF4 then 0x8F else 0xBF },[]) := by
  rw [lead,if_neg (by omega),if_neg (by omega),if_neg (by omega),if_pos h]

theorem feed_encodeChar (c : Char) : feed {} (String.utf8EncodeChar c) = ({},[c.toNat]) := by
  have hvalid : c.val.toNat < 0xD800 ∨ 0xDFFF < c.val.toNat ∧ c.val.toNat < 0x110000 := c.valid
  rw [String.utf8EncodeChar,Char.toNat]
  generalize c.val.toNat = v at hvalid
  split
  · rename_i hv
    exact feed_singleton (by omega) ((step_lead v).trans (if_pos hv))
  · split
    · rw [feed_cons (by omega) ((step_lead _).trans (lead_two (by omega)))]
      apply feed_singleton (by omega)
      rw [step_last rfl (by simp only; omega) (by simp only; omega)]
      congr 2
      simp only
      omega
    · split
      · rw [feed_cons (by omega) ((step_lead _).trans (lead_three (by omega))),
          feed_cons (by omega) (step_middle Nat.one_lt_two (by simp only; split <;> omega)
            (by simp only; split <;> omega))]
        apply feed_singleton (by omega)
        rw [step_last rfl (by simp only; omega) (by simp only; omega)]
        congr 2
        simp only
        omega
      · rw [feed_cons (by omega) ((step_lead _).trans (lead_four (by omega))),
          feed_cons (by omega) (step_middle (by simp only; omega) (by simp only; split <;> omega)
            (by simp only; split <;> omega)),
          feed_cons (by omega) (step_middle Nat.one_lt_two (by simp only; omega)
            (by simp only; omega))]
        apply feed_singleton (by omega)
        rw [step_last rfl (by simp only; omega) (by simp only; omega)]
        congr 2
        simp only
        omega

theorem feed_utf8 (text : List Char) : feed {} (utf8 text) = ({},text.map Char.toNat) := by
  induction text with
  | nil => rfl
  | cons c text ih =>
    rw [utf8,List.flatMap_cons,feed_append,feed_encodeChar]
    simp only
    rw [← utf8,ih]
    rfl

end Pending

/-! ## The decoder -/

structure TextDecoder where
  pending : Pending := {}
  bomSeen : Bool := false
  deriving DecidableEq

/-- The byte order mark is dropped where it comes first. -/
def withoutBom : List ℕ → List ℕ
  | codePoint :: codePoints => if codePoint = 0xFEFF then codePoints else codePoint :: codePoints
  | [] => []

namespace TextDecoder

/-- `decode` of one more part of a stream -/
def decode (dec : TextDecoder) (value : List UInt8) : TextDecoder × Units :=
  let (pending,codePoints) := dec.pending.feed value
  ({ pending, bomSeen := dec.bomSeen || !codePoints.isEmpty },
    (if dec.bomSeen then codePoints else withoutBom codePoints).flatMap utf16)

/-- The strings that the parts of a stream are decoded to. -/
def texts (dec : TextDecoder) : List (List UInt8) → List Units
  | [] => []
  | value :: reads => (dec.decode value).2 :: texts (dec.decode value).1 reads

theorem flatten_texts (dec : TextDecoder) (reads : List (List UInt8)) :
    (dec.texts reads).flatten =
      (if dec.bomSeen then (dec.pending.feed reads.flatten).2
        else withoutBom (dec.pending.feed reads.flatten).2).flatMap utf16 := by
  induction reads generalizing dec with
  | nil =>
    rw [List.flatten_nil,Pending.feed]
    split <;> rfl
  | cons value reads ih =>
    obtain ⟨pending,bomSeen⟩ := dec
    rw [texts,List.flatten_cons,ih,List.flatten_cons,Pending.feed_append]
    simp only [decode]
    generalize pending.feed value = fed
    obtain ⟨p,codePoints⟩ := fed
    cases bomSeen with
    | true => simp only [Bool.true_or,if_true,List.flatMap_append]
    | false =>
      cases codePoints with
      | nil => rfl
      | cons v codePoints =>
        simp only [Bool.false_or,List.isEmpty_cons,Bool.not_false,if_true,Bool.false_eq_true,
          if_false,withoutBom,List.cons_append]
        split <;> simp only [List.flatMap_append,List.flatMap_cons,List.append_assoc]

/-- However the bytes of a text are cut, the parts are decoded to the text. -/
theorem flatten_texts_utf8 {reads : List (List UInt8)} {text : List Char}
    (h : reads.flatten = utf8 text) : (texts {} reads).flatten =
      (withoutBom (text.map Char.toNat)).flatMap utf16 := by
  rw [flatten_texts,h,Pending.feed_utf8]
  rfl

end TextDecoder

end Rullama.Text
