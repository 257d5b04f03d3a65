import Mathlib.Data.List.Basic
import Mathlib.Tactic.Common

/-! # Byte positions in a text

A text is a list of characters, and a position in it counts the bytes of their UTF-8 encodings. A
text can be cut only between two characters.
-/
namespace Rullama.Text

def byteLength : List Char → ℕ
  | [] => 0
  | c :: cs => c.utf8Size + byteLength cs

/-- The text before and after a byte position; none if that is no character boundary. -/
def splitBytes : List Char → ℕ → Option (List Char × List Char)
  | cs, 0 => some ([],cs)
  | [], _ + 1 => none
  | c :: cs, n + 1 =>
    if c.utf8Size ≤ n + 1 then
      (splitBytes cs (n + 1 - c.utf8Size)).map (fun p => (c :: p.1,p.2))
    else none

variable {cs a b a' b' : List Char} {n : ℕ}

@[simp] theorem byteLength_nil : byteLength [] = 0 := rfl

@[simp] theorem byteLength_cons (c : Char) (cs : List Char) :
    byteLength (c :: cs) = c.utf8Size + byteLength cs := rfl

@[simp] theorem byteLength_append (a b : List Char) :
    byteLength (a ++ b) = byteLength a + byteLength b := by
  induction a with
  | nil => rw [List.nil_append,byteLength_nil,Nat.zero_add]
  | cons c a ih => rw [List.cons_append,byteLength_cons,byteLength_cons,ih,Nat.add_assoc]

theorem byteLength_eq_zero_iff : byteLength cs = 0 ↔ cs = [] := by
  cases cs with
  | nil => exact ⟨fun _ => rfl,fun _ => rfl⟩
  | cons c cs =>
    have hc := c.utf8Size_pos
    rw [byteLength_cons]
    refine ⟨fun h => absurd h (by omega),fun h => by cases h⟩

theorem splitBytes_eq_some : splitBytes cs n = some (a,b) ↔ cs = a ++ b ∧ byteLength a = n := by
  induction cs generalizing n a with
  | nil =>
    cases n with
    | zero =>
      rw [splitBytes,byteLength_eq_zero_iff]
      constructor
      · intro h
        cases h
        exact ⟨rfl,rfl⟩
      · rintro ⟨h,rfl⟩
        rw [h,List.nil_append]
    | succ n =>
      constructor
      · intro h
        cases h
      · rintro ⟨h,hn⟩
        obtain ⟨rfl,rfl⟩ := List.append_eq_nil_iff.mp h.symm
        cases hn
  | cons c cs ih =>
    have hc := c.utf8Size_pos
    cases n with
    | zero =>
      rw [splitBytes,byteLength_eq_zero_iff]
      constructor
      · intro h
        cases h
        exact ⟨rfl,rfl⟩
      · rintro ⟨h,rfl⟩
        rw [h,List.nil_append]
    | succ n =>
      rw [splitBytes]
      cases a with
      | nil =>
        simp only [List.nil_append,byteLength_nil]
        constructor
        · intro h
          split at h
          · obtain ⟨p,_,hp⟩ := Option.map_eq_some_iff.mp h
            cases hp
          · cases h
        · rintro ⟨_,h⟩
          cases h
      | cons d a =>
        rw [List.cons_append,List.cons.injEq,byteLength_cons]
        by_cases hle : c.utf8Size ≤ n + 1
        · rw [if_pos hle,Option.map_eq_some_iff]
          constructor
          · rintro ⟨⟨p,q⟩,h,hp⟩
            cases hp
            obtain ⟨rfl,hlen⟩ := ih.mp h
            have hp : c.utf8Size + byteLength p = n + 1 := by omega
            exact ⟨⟨rfl,rfl⟩,hp⟩
          · rintro ⟨⟨rfl,rfl⟩,hlen⟩
            exact ⟨(a,b),ih.mpr ⟨rfl,by omega⟩,rfl⟩
        · rw [if_neg hle]
          constructor
          · intro h
            cases h
          · rintro ⟨⟨rfl,_⟩,hlen⟩
            omega

theorem splitBytes_append (a b : List Char) : splitBytes (a ++ b) (byteLength a) = some (a,b) :=
  splitBytes_eq_some.mpr ⟨rfl,rfl⟩

/-- A character boundary. -/
def Boundary (cs : List Char) (n : ℕ) : Prop := ∃ a b, cs = a ++ b ∧ byteLength a = n

theorem boundary_iff : Boundary cs n ↔ ∃ p, splitBytes cs n = some p := by
  constructor
  · rintro ⟨a,b,rfl,rfl⟩
    exact ⟨_,splitBytes_append a b⟩
  · rintro ⟨⟨a,b⟩,h⟩
    exact ⟨a,b,splitBytes_eq_some.mp h⟩

instance (cs : List Char) (n : ℕ) : Decidable (Boundary cs n) :=
  decidable_of_iff ((splitBytes cs n).isSome = true) (Option.isSome_iff_exists.trans boundary_iff.symm)

theorem boundary_append (a b : List Char) : Boundary (a ++ b) (byteLength a) := ⟨a,b,rfl,rfl⟩

theorem boundary_zero (cs : List Char) : Boundary cs 0 := boundary_append [] cs

theorem boundary_byteLength (cs : List Char) : Boundary cs (byteLength cs) :=
  ⟨cs,[],(List.append_nil cs).symm,rfl⟩

theorem Boundary.le (h : Boundary cs n) : n ≤ byteLength cs := by
  obtain ⟨a,b,rfl,rfl⟩ := h
  rw [byteLength_append]
  exact Nat.le_add_right _ _

/-- There is no boundary inside a character. -/
theorem not_boundary_inside {c : Char} (hn : 0 < n) (hc : n < c.utf8Size) :
    ¬ Boundary (a ++ c :: b) (byteLength a + n) := by
  rintro ⟨x,y,h,hx⟩
  rcases List.append_eq_append_iff.mp h with ⟨t,rfl,ht⟩ | ⟨t,rfl,_⟩
  · cases t with
    | nil =>
      rw [List.append_nil] at hx
      omega
    | cons d t =>
      rw [List.cons_append,List.cons.injEq] at ht
      rw [byteLength_append,byteLength_cons,← ht.1] at hx
      omega
  · rw [byteLength_append] at hx
    omega

/-- One byte on from a character is a boundary only after a character of one byte. -/
theorem boundary_succ_iff {c : Char} :
    Boundary (a ++ c :: b) (byteLength a + 1) ↔ c.utf8Size = 1 := by
  have hpos := c.utf8Size_pos
  constructor
  · intro h
    by_contra hne
    exact not_boundary_inside Nat.one_pos (by omega) h
  · intro h
    refine ⟨a ++ [c],b,?_,?_⟩
    · rw [List.append_assoc]
      rfl
    · rw [byteLength_append,byteLength_cons,h]
      rfl

/-- And one byte back from its end. -/
theorem boundary_pred_iff {c : Char} :
    Boundary (a ++ c :: b) (byteLength a + c.utf8Size - 1) ↔ c.utf8Size = 1 := by
  have hpos := c.utf8Size_pos
  constructor
  · intro h
    by_contra hne
    rw [Nat.add_sub_assoc hpos] at h
    exact not_boundary_inside (by omega) (by omega) h
  · intro h
    rw [h]
    exact boundary_append a (c :: b)

end Rullama.Text
