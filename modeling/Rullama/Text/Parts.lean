import Rullama.Text.Chunks
import Rullama.Text.Search

/-! # Cutting a text up

A text is cut into slices of one length, or at the occurrences of a marker. Either way it is
put together again from what it was cut into.
-/
namespace Rullama.Text

variable {α : Type*}

/-! ## Slices -/

def slice (n : ℕ) : List α → Option (List α × List α)
  | [] => none
  | c :: s => some ((c :: s).take n,(c :: s).drop n)

/-- The slices of a text, each of `n` letters but for the last one. -/
def slices (n : ℕ) (s : List α) : List (List α) := (split (slice n) s).1

section Slices

variable {n : ℕ}

theorem slice_shortens (hn : 1 ≤ n) : Shortens (slice (α := α) n) := by
  intro s b rest h
  cases s with
  | nil => cases h
  | cons c s =>
    cases h
    rw [List.length_drop,List.length_cons]
    omega

@[simp] theorem slices_nil : slices n ([] : List α) = [] := rfl

theorem slices_cons (hn : 1 ≤ n) (c : α) (s : List α) :
    slices n (c :: s) = (c :: s).take n :: slices n ((c :: s).drop n) := by
  have hslice : slice n (c :: s) = some ((c :: s).take n,(c :: s).drop n) := rfl
  rw [slices,split_of_some (slice_shortens hn) hslice]
  rfl

theorem flatten_slices (hn : 1 ≤ n) (s : List α) : (slices n s).flatten = s := by
  induction s using (slice_shortens hn).induction with
  | hnone s h =>
    cases s with
    | nil => rfl
    | cons c s => cases h
  | hsome s b rest h ih =>
    cases s with
    | nil => cases h
    | cons c s =>
      cases h
      rw [slices_cons hn,List.flatten_cons,ih,List.take_append_drop]

theorem mem_slices (hn : 1 ≤ n) {s p : List α} (hp : p ∈ slices n s) :
    p ≠ [] ∧ p.length ≤ n := by
  induction s using (slice_shortens hn).induction with
  | hnone s h =>
    cases s with
    | nil => cases hp
    | cons c s => cases h
  | hsome s b rest h ih =>
    cases s with
    | nil => cases h
    | cons c s =>
      cases h
      rw [slices_cons hn,List.mem_cons] at hp
      rcases hp with rfl | hp
      · have hlen : ((c :: s).take n).length ≠ 0 := by
          rw [List.length_take,List.length_cons]
          omega
        exact ⟨fun h => hlen (congrArg List.length h),List.length_take_le n _⟩
      · exact ih hp

end Slices

/-! ## The parts between the occurrences of a marker -/

variable [DecidableEq α]

def parts (m s : List α) : List (List α) := (split (cut m) s).1 ++ [(split (cut m) s).2]

variable {m : List α}

theorem cut_shortens (hm : m ≠ []) : Shortens (cut m) := by
  intro s b rest h
  have hpos := List.length_pos_iff.mpr hm
  have hlen := congrArg List.length (eq_append_of_cut h)
  simp only [List.length_append] at hlen
  omega

/-- Every part but the last one is followed by the marker. -/
theorem split_cut_append (hm : m ≠ []) (s : List α) :
    ((split (cut m) s).1.map (· ++ m)).flatten ++ (split (cut m) s).2 = s := by
  induction s using (cut_shortens hm).induction with
  | hnone s h =>
    rw [split_of_none h]
    rfl
  | hsome s b rest h ih =>
    rw [split_of_some (cut_shortens hm) h,List.map_cons,List.flatten_cons,List.append_assoc,ih,
      eq_append_of_cut h,List.append_assoc]

theorem parts_of_cut {s b a : List α} (hm : m ≠ []) (h : cut m s = some (b,a)) :
    parts m s = b :: parts m a := by
  rw [parts,split_of_some (cut_shortens hm) h]
  rfl

/-- The marker comes in no part. -/
theorem not_isInfix_of_mem_parts (hm : m ≠ []) {s p : List α} (hp : p ∈ parts m s) :
    ¬m <:+: p := by
  induction s using (cut_shortens hm).induction with
  | hnone s h =>
    rw [parts,split_of_none h] at hp
    rw [List.mem_singleton.mp hp]
    exact cut_eq_none.mp h
  | hsome s b rest h ih =>
    rw [parts_of_cut hm h] at hp
    rcases List.mem_cons.mp hp with rfl | hp
    · exact not_isInfix_of_cut hm h
    · exact ih hp

/-- The parts with the marker behind each give the text with the marker behind it. -/
theorem flatMap_parts (hm : m ≠ []) (s : List α) : (parts m s).flatMap (· ++ m) = s ++ m := by
  rw [parts,List.flatMap_append,List.flatMap_singleton,← List.append_assoc,List.flatMap_def,
    split_cut_append hm]

theorem parts_append_marker (hm : m ≠ []) (s : List α) : parts m (m ++ s) = [] :: parts m s := by
  have hcut : cut m (m ++ s) = some ([],s) := by
    rw [cut_of_isPrefix (List.prefix_append m s),List.drop_left]
  exact parts_of_cut hm hcut

theorem parts_of_cut_eq_none {s : List α} (h : cut m s = none) : parts m s = [s] := by
  rw [parts,split_of_none h]
  rfl

theorem parts_cons (hm : m ≠ []) {c : α} {s : List α} (h : ¬m <+: c :: s) :
    parts m (c :: s) = (parts m s).modifyHead (c :: ·) := by
  cases hcut : cut m s with
  | none =>
    have hcons : cut m (c :: s) = none := by rw [cut_cons_of_not_isPrefix h,hcut]; rfl
    rw [parts_of_cut_eq_none hcut,parts_of_cut_eq_none hcons]
    rfl
  | some p =>
    have hcons : cut m (c :: s) = some (c :: p.1,p.2) := by
      rw [cut_cons_of_not_isPrefix h,hcut]
      rfl
    rw [parts_of_cut hm hcons,parts_of_cut hm hcut]
    rfl

end Rullama.Text
