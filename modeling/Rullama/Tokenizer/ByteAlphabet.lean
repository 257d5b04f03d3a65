import Mathlib.Data.List.Range
import Rullama.Text.Units

/-! # The byte alphabet

The bytes that are printable characters stand for themselves. The others are put after them,
in order, with code points from 256 on.
-/
namespace Rullama.Tokenizer
open Text

/-- The bytes that are printable characters themselves. -/
def printable : List ℕ :=
  List.range' 0x21 (0x7E - 0x21 + 1) ++ List.range' 0xA1 (0xAC - 0xA1 + 1) ++
    List.range' 0xAE (0xFF - 0xAE + 1)

/-- Any other byte has the next code point beyond the bytes. -/
def fillByte (filled : List ℕ × List ℕ × ℕ) (b : ℕ) : List ℕ × List ℕ × ℕ :=
  if b ∈ filled.1 then filled
  else (filled.1 ++ [b],filled.2.1 ++ [256 + filled.2.2],filled.2.2 + 1)

/-- Reversible mapping from the 256 byte values onto printable code points. -/
def bytesToUnicode : List (ℕ × ℕ) :=
  let filled := (List.range 256).foldl fillByte (printable,printable,0)
  filled.1.zip filled.2.1

/-- What a byte is mapped to. -/
def byteCode (b : ℕ) : ℕ :=
  if b < 0x21 then 256 + b
  else if 0x7E < b ∧ b < 0xA1 then 162 + b
  else if b = 0xAD then 323
  else b

theorem foldl_fillByte_of_mem {l bs cs : List ℕ} {n : ℕ} (h : ∀ b ∈ l, b ∈ bs) :
    l.foldl fillByte (bs,cs,n) = (bs,cs,n) := by
  induction l with
  | nil => rfl
  | cons b l ih =>
    rw [List.foldl_cons,fillByte,if_pos (h b List.mem_cons_self)]
    exact ih (fun c hc => h c (List.mem_cons_of_mem b hc))

theorem foldl_fillByte_range' {bs cs : List ℕ} {n k len : ℕ} (h : ∀ b ∈ bs, b < k ∨ k + len ≤ b) :
    (List.range' k len).foldl fillByte (bs,cs,n) =
      (bs ++ List.range' k len,cs ++ List.range' (256 + n) len,n + len) := by
  induction len generalizing bs cs n k with
  | zero => simp
  | succ len ih =>
    have hk : k ∉ bs := fun hk => by have := h k hk; omega
    rw [List.range'_succ,List.foldl_cons,fillByte,if_neg hk,ih]
    · simp [List.range'_succ,Nat.add_assoc,Nat.add_comm 1]
    · intro b hb
      simp only [List.mem_append,List.mem_singleton] at hb
      rcases hb with hb | rfl
      · have := h b hb
        omega
      · omega

theorem mem_printable {b : ℕ} :
    b ∈ printable ↔ 33 ≤ b ∧ b < 127 ∨ 161 ≤ b ∧ b < 173 ∨ 174 ≤ b ∧ b < 256 := by
  simp only [printable,List.mem_append,List.mem_range'_1]
  omega

/-- The bytes in the order in which they come into the map. -/
def byteOrder : List ℕ :=
  printable ++ List.range' 0 33 ++ List.range' 127 34 ++ List.range' 173 1

theorem foldl_fillByte_range : (List.range 256).foldl fillByte (printable,printable,0) =
    (byteOrder,printable ++ List.range' 256 33 ++ List.range' 289 34 ++ List.range' 323 1,68) := by
  have hrange : List.range 256 = List.range' 0 33 ++ List.range' 33 94 ++ List.range' 127 34 ++
      List.range' 161 12 ++ List.range' 173 1 ++ List.range' 174 82 := by
    rw [List.range_eq_range',List.range'_append_1,List.range'_append_1,List.range'_append_1,
      List.range'_append_1,List.range'_append_1]
  have h0 : ∀ b ∈ printable, b < 0 ∨ 0 + 33 ≤ b := by
    intro b hb
    rw [mem_printable] at hb
    omega
  have h1 : ∀ b ∈ List.range' 33 94, b ∈ printable ++ List.range' 0 33 := by
    intro b hb
    simp only [List.mem_append,List.mem_range'_1,mem_printable] at hb ⊢
    omega
  have h2 : ∀ b ∈ printable ++ List.range' 0 33, b < 127 ∨ 127 + 34 ≤ b := by
    intro b hb
    simp only [List.mem_append,List.mem_range'_1,mem_printable] at hb
    omega
  have h3 : ∀ b ∈ List.range' 161 12, b ∈ printable ++ List.range' 0 33 ++ List.range' 127 34 := by
    intro b hb
    simp only [List.mem_append,List.mem_range'_1,mem_printable] at hb ⊢
    omega
  have h4 : ∀ b ∈ printable ++ List.range' 0 33 ++ List.range' 127 34,
      b < 173 ∨ 173 + 1 ≤ b := by
    intro b hb
    simp only [List.mem_append,List.mem_range'_1,mem_printable] at hb
    omega
  have h5 : ∀ b ∈ List.range' 174 82, b ∈ byteOrder := by
    intro b hb
    simp only [byteOrder,List.mem_append,List.mem_range'_1,mem_printable] at hb ⊢
    omega
  rw [hrange]
  simp only [List.foldl_append]
  rw [foldl_fillByte_range' h0,foldl_fillByte_of_mem h1,foldl_fillByte_range' h2,
    foldl_fillByte_of_mem h3,foldl_fillByte_range' h4,← byteOrder,foldl_fillByte_of_mem h5]

theorem bytesToUnicode_eq : bytesToUnicode = byteOrder.map (fun b => (b,byteCode b)) := by
  have hcodes : printable ++ List.range' 256 33 ++ List.range' 289 34 ++ List.range' 323 1 =
      byteOrder.map byteCode := by
    decide +kernel
  have hzip : byteOrder.zip (byteOrder.map byteCode) = byteOrder.map (fun b => (b,byteCode b)) := by
    conv_lhs => rw [← List.map_id byteOrder]
    rw [List.map_map,List.zip_map']
    rfl
  rw [bytesToUnicode,foldl_fillByte_range,hcodes,hzip]

theorem lookup_map_pair (f : ℕ → ℕ) {l : List ℕ} {b : ℕ} (h : b ∈ l) :
    (l.map (fun b => (b,f b))).lookup b = some (f b) := by
  induction l with
  | nil => cases h
  | cons c l ih =>
    rw [List.map_cons,List.lookup_cons]
    cases hbc : b == c with
    | true => rw [eq_of_beq hbc]
    | false =>
      rcases List.mem_cons.mp h with rfl | h
      · rw [beq_self_eq_true] at hbc
        cases hbc
      · exact ih h

/-- Every byte is in the map. -/
theorem bytesToUnicode_lookup {b : ℕ} (hb : b < 256) :
    bytesToUnicode.lookup b = some (byteCode b) := by
  rw [bytesToUnicode_eq]
  apply lookup_map_pair
  simp only [byteOrder,List.mem_append,List.mem_range'_1,mem_printable]
  omega

theorem byteCode_injOn {b c : ℕ} (hb : b < 256) (hc : c < 256) (h : byteCode b = byteCode c) :
    b = c := by
  rw [byteCode,byteCode] at h
  split_ifs at h <;> omega

/-- A code is neither the space nor a part of a surrogate pair. -/
theorem byteCode_bounds {b : ℕ} (hb : b < 256) : 0x20 < byteCode b ∧ byteCode b < 0xD800 := by
  rw [byteCode]
  split_ifs <;> omega

end Rullama.Tokenizer
