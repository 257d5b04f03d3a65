import Rullama.Text.Stringify
import Rullama.Text.TextDecoder

/-! # JSON as bytes

What `JSON.stringify` writes has no half of a surrogate pair, so that it comes through UTF-8
unchanged: a value that is written to bytes is the one that is read from them.
-/
namespace Rullama.Text

/-! ## Strings of characters -/

theorem leads_iff {c : UInt16} : leads c = true ↔ 0xD800 ≤ c.toNat ∧ c.toNat < 0xDC00 := by
  rw [leads,Bool.and_eq_true,decide_eq_true_eq,decide_eq_true_eq]
  rfl

theorem trails_iff {c : UInt16} : trails c = true ↔ 0xDC00 ≤ c.toNat ∧ c.toNat < 0xE000 := by
  rw [trails,Bool.and_eq_true,decide_eq_true_eq,decide_eq_true_eq]
  rfl

theorem exists_char {n : ℕ} (h : n.isValidChar) : ∃ c : Char, c.toNat = n :=
  ⟨Char.ofNatAux n h,rfl⟩

/-- A character is one unit that is no surrogate, or a pair of them. -/
theorem utf16_cases (c : Char) :
    (∃ x : UInt16, utf16 c.toNat = [x] ∧ leads x = false ∧ trails x = false ∧ x.toNat = c.toNat) ∨
      ∃ x y : UInt16, utf16 c.toNat = [x,y] ∧ leads x = true ∧ trails y = true ∧
        c.toNat = 0x10000 + (x.toNat - 0xD800) * 0x400 + (y.toNat - 0xDC00) := by
  have hvalid : c.toNat < 0xD800 ∨ 0xDFFF < c.toNat ∧ c.toNat < 0x110000 := c.valid
  rw [utf16]
  split
  · rename_i hlow
    have hx : (UInt16.ofNat c.toNat).toNat = c.toNat := UInt16.toNat_ofNat_of_lt' hlow
    refine .inl ⟨_,rfl,?_,?_,hx⟩
    · rw [Bool.eq_false_iff,Ne,leads_iff]
      omega
    · rw [Bool.eq_false_iff,Ne,trails_iff]
      omega
  · rename_i hhigh
    have hx : (UInt16.ofNat (0xD800 + (c.toNat - 0x10000) / 0x400)).toNat =
        0xD800 + (c.toNat - 0x10000) / 0x400 := UInt16.toNat_ofNat_of_lt' (by change _ < 65536; omega)
    have hy : (UInt16.ofNat (0xDC00 + (c.toNat - 0x10000) % 0x400)).toNat =
        0xDC00 + (c.toNat - 0x10000) % 0x400 := UInt16.toNat_ofNat_of_lt' (by change _ < 65536; omega)
    exact .inr ⟨_,_,rfl,leads_iff.mpr (by omega),trails_iff.mpr (by omega),by omega⟩

/-- Every surrogate is half of a pair. -/
def WellFormed (s : Units) : Prop := ∃ text, s = unitsOf text

theorem wellFormed_nil : WellFormed [] := ⟨[],rfl⟩

theorem WellFormed.append {s t : Units} (hs : WellFormed s) (ht : WellFormed t) :
    WellFormed (s ++ t) := by
  obtain ⟨a,rfl⟩ := hs
  obtain ⟨b,rfl⟩ := ht
  exact ⟨a ++ b,List.flatMap_append.symm⟩

theorem WellFormed.flatMap {α : Type*} {l : List α} {f : α → Units}
    (h : ∀ x ∈ l, WellFormed (f x)) : WellFormed (l.flatMap f) := by
  induction l with
  | nil => exact wellFormed_nil
  | cons x l ih =>
    rw [List.forall_mem_cons] at h
    exact h.1.append (ih h.2)

/-- A unit that is no surrogate is a character. -/
theorem wellFormed_singleton {c : UInt16} (hleads : leads c = false) (htrails : trails c = false) :
    WellFormed [c] := by
  rw [Bool.eq_false_iff,Ne,leads_iff] at hleads
  rw [Bool.eq_false_iff,Ne,trails_iff] at htrails
  have hlt : c.toNat < 0x10000 := c.toNat_lt
  obtain ⟨x,hx⟩ := exists_char (n := c.toNat) (by simp only [Nat.isValidChar]; omega)
  refine ⟨[x],?_⟩
  rw [unitsOf,List.flatMap_cons,hx,utf16,if_pos hlt,UInt16.ofNat_toNat]
  rfl

theorem wellFormed_pair {c d : UInt16} (hleads : leads c = true) (htrails : trails d = true) :
    WellFormed [c,d] := by
  rw [leads_iff] at hleads
  rw [trails_iff] at htrails
  obtain ⟨x,hx⟩ := exists_char (n := 0x10000 + (c.toNat - 0xD800) * 0x400 + (d.toNat - 0xDC00))
    (by simp only [Nat.isValidChar]; omega)
  refine ⟨[x],?_⟩
  have hhigh : 0xD800 + (x.toNat - 0x10000) / 0x400 = c.toNat := by omega
  have hlow : 0xDC00 + (x.toNat - 0x10000) % 0x400 = d.toNat := by omega
  rw [unitsOf,List.flatMap_cons,utf16,if_neg (by omega),hhigh,hlow,UInt16.ofNat_toNat,
    UInt16.ofNat_toNat]
  rfl

/-- A text without surrogates. -/
theorem wellFormed_of_forall {s : Units}
    (h : ∀ c ∈ s, leads c = false ∧ trails c = false) : WellFormed s := by
  have hs : s = s.flatMap (fun c => [c]) := by simp
  rw [hs]
  exact .flatMap (fun c hc => wellFormed_singleton (h c hc).1 (h c hc).2)

/-! ## Encoding and decoding -/

theorem encodeUtf8_unitsOf (text : List Char) : encodeUtf8 (unitsOf text) = utf8 text := by
  induction text with
  | nil => rfl
  | cons c text ih =>
    have hsplit : unitsOf (c :: text) = utf16 c.toNat ++ unitsOf text := rfl
    have hchars : chars (utf16 c.toNat ++ unitsOf text) = utf16 c.toNat :: chars (unitsOf text) := by
      rcases utf16_cases c with ⟨x,hx,hleads,_⟩ | ⟨x,y,hxy,hx,hy,_⟩
      · rw [hx]
        cases unitsOf text with
        | nil => rfl
        | cons d s => rw [List.singleton_append,chars,hleads,Bool.false_and,if_neg Bool.false_ne_true]
      · rw [hxy]
        change chars (x :: y :: unitsOf text) = _
        rw [chars,hx,hy]
        rfl
    have hchar : utf8Char (utf16 c.toNat) = String.utf8EncodeChar c := by
      rcases utf16_cases c with ⟨x,hx,hleads,htrails,hval⟩ | ⟨x,y,hxy,_,_,hval⟩
      · rw [hx,utf8Char,hleads,htrails,Bool.or_self,if_neg Bool.false_ne_true,hval,Char.ofNat_toNat]
      · rw [hxy,utf8Char,← hval,Char.ofNat_toNat]
    rw [hsplit,encodeUtf8,hchars,List.flatMap_cons,hchar,← encodeUtf8,ih]
    rfl

/-- `decode` of a whole text -/
def decodeUtf8 (bytes : List UInt8) : Units :=
  let (pending,codePoints) := Pending.feed {} bytes
  (withoutBom (codePoints ++ if pending.needed = 0 then [] else [0xFFFD])).flatMap utf16

/-- What has no byte order mark comes back. -/
theorem decodeUtf8_encodeUtf8 {s : Units} (hs : WellFormed s) (hbom : s.head? ≠ some 0xFEFF) :
    decodeUtf8 (encodeUtf8 s) = s := by
  obtain ⟨text,rfl⟩ := hs
  have hpoints : withoutBom (text.map Char.toNat) = text.map Char.toNat := by
    cases text with
    | nil => rfl
    | cons c text =>
      refine if_neg fun heq => hbom ?_
      rw [unitsOf,List.flatMap_cons,heq]
      rfl
  rw [encodeUtf8_unitsOf,decodeUtf8,Pending.feed_utf8]
  change (withoutBom (text.map Char.toNat ++ [])).flatMap utf16 = _
  rw [List.append_nil,hpoints,List.flatMap_map]
  rfl

end Rullama.Text

namespace Rullama.Text.Json

/-! ## What is written -/

theorem wellFormed_units {s : Units} (h : ∀ c ∈ s, c < 0x80) : WellFormed s := by
  refine wellFormed_of_forall fun c hc => ?_
  have hlt : c.toNat < 0x80 := UInt16.lt_iff_toNat_lt.mp (h c hc)
  constructor
  · rw [Bool.eq_false_iff,Ne,leads_iff]
    omega
  · rw [Bool.eq_false_iff,Ne,trails_iff]
    omega

theorem hexUnit_lt {n : UInt16} (h : n < 16) : hexUnit n < 0x80 := by
  have hall : ∀ m < 16, hexUnit (UInt16.ofNat m) < 0x80 := by decide
  have hn := hall n.toNat (UInt16.lt_iff_toNat_lt.mp h)
  rwa [UInt16.ofNat_toNat] at hn

theorem wellFormed_unicodeEscape (c : UInt16) : WellFormed (unicodeEscape c) := by
  have hfirst : c / 4096 < 16 := by
    have hlt := c.toNat_lt
    rw [UInt16.lt_iff_toNat_lt,UInt16.toNat_div]
    change c.toNat / 4096 < 16
    omega
  have hrest (d : UInt16) : d % 16 < 16 := by
    rw [UInt16.lt_iff_toNat_lt,UInt16.toNat_mod]
    exact Nat.mod_lt _ (by decide)
  refine wellFormed_units ?_
  rw [unicodeEscape]
  simp only [List.forall_mem_cons]
  exact ⟨by decide,by decide,hexUnit_lt hfirst,hexUnit_lt (hrest _),hexUnit_lt (hrest _),
    hexUnit_lt (hrest _),List.forall_mem_nil _⟩

theorem wellFormed_quoteChar (c : UInt16) : WellFormed (quoteChar [c]) := by
  rw [quoteChar]
  split
  · rename_i h
    rw [Bool.or_eq_true,decide_eq_true_iff,decide_eq_true_iff] at h
    rcases h with rfl | rfl <;> exact wellFormed_units (by decide)
  iterate 5
    split
    · exact wellFormed_units (by decide)
  split
  · exact wellFormed_unicodeEscape c
  · rename_i h
    rw [Bool.or_eq_true,Bool.or_eq_true,not_or,not_or] at h
    exact wellFormed_singleton (Bool.eq_false_iff.mpr h.1.2) (Bool.eq_false_iff.mpr h.2)

theorem wellFormed_quote (s : Units) : WellFormed (quote s) := by
  have hchars : WellFormed ((chars s).flatMap quoteChar) := by
    induction s using chars.induct with
    | case1 => exact wellFormed_nil
    | case2 c =>
      rw [chars,List.flatMap_singleton]
      exact wellFormed_quoteChar c
    | case3 c d s hpair ih =>
      rw [chars,if_pos hpair,List.flatMap_cons]
      rw [Bool.and_eq_true] at hpair
      exact (wellFormed_pair hpair.1 hpair.2).append ih
    | case4 c d s hpair ih =>
      rw [chars,if_neg hpair,List.flatMap_cons]
      exact (wellFormed_quoteChar c).append ih
  have hmark : WellFormed [unit '"'] := wellFormed_units (by decide)
  exact hmark.append (hchars.append hmark)

theorem inNumber_lt {c : UInt16} (h : inNumber c = true) : c < 0x80 := by
  simp only [inNumber,isDigit,Bool.or_eq_true,Bool.and_eq_true,decide_eq_true_eq] at h
  rcases h with ((((h | rfl) | rfl) | rfl) | rfl) | rfl
  · exact UInt16.lt_of_le_of_lt h.2 (by decide)
  all_goals decide

mutual

theorem wellFormed_stringify : ∀ {v : Value}, Valid v → WellFormed (stringify v)
  | .null,_ => wellFormed_units (by decide)
  | .bool true,_ => wellFormed_units (by decide)
  | .bool false,_ => wellFormed_units (by decide)
  | .number _,h => wellFormed_units (fun c hc => inNumber_lt (h.2 c hc))
  | .string s,_ => wellFormed_quote s
  | .array [],_ => wellFormed_units (by decide)
  | .array (_ :: _),h => by
    have hmark : WellFormed [unit '['] := wellFormed_units (by decide)
    exact hmark.append ((wellFormed_stringify h.1).append (wellFormed_stringifyItems h.2))
  | .object [],_ => wellFormed_units (by decide)
  | .object ((k,_) :: _),h => by
    have hmark : WellFormed [unit '{'] := wellFormed_units (by decide)
    have hcolon : WellFormed [unit ':'] := wellFormed_units (by decide)
    exact hmark.append ((wellFormed_quote k).append (hcolon.append
      ((wellFormed_stringify h.2.1).append (wellFormed_stringifyFields h.2.2))))

theorem wellFormed_stringifyItems : ∀ {vs : List Value}, ValidItems vs →
    WellFormed (stringifyItems vs)
  | [],_ => wellFormed_units (by decide)
  | _ :: _,h => by
    have hcomma : WellFormed [unit ','] := wellFormed_units (by decide)
    exact hcomma.append ((wellFormed_stringify h.1).append (wellFormed_stringifyItems h.2))

theorem wellFormed_stringifyFields : ∀ {fields : List (Units × Value)}, ValidFields fields →
    WellFormed (stringifyFields fields)
  | [],_ => wellFormed_units (by decide)
  | (k,_) :: _,h => by
    have hcomma : WellFormed [unit ','] := wellFormed_units (by decide)
    have hcolon : WellFormed [unit ':'] := wellFormed_units (by decide)
    exact hcomma.append ((wellFormed_quote k).append (hcolon.append
      ((wellFormed_stringify h.1).append (wellFormed_stringifyFields h.2))))

end

/-! ## Files of JSON -/

/-- `TextEncoder().encode(JSON.stringify(v))` -/
def toBytes (v : Value) : List UInt8 := encodeUtf8 (stringify v)

/-- `JSON.parse(TextDecoder().decode(bytes))` -/
def ofBytes (bytes : List UInt8) : Option Value := parse (decodeUtf8 bytes)

theorem ofBytes_toBytes {v : Value} (h : Valid v) : ofBytes (toBytes v) = some v := by
  obtain ⟨c,s,hs,_,_,_,hbom⟩ := head_stringify h
  have hhead : (stringify v).head? ≠ some 0xFEFF := by
    rw [hs,List.head?_cons]
    exact fun heq => hbom (Option.some.inj heq)
  rw [ofBytes,toBytes,decodeUtf8_encodeUtf8 (wellFormed_stringify h) hhead,parse_stringify h]

end Rullama.Text.Json
