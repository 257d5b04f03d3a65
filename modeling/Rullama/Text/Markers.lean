import Mathlib.Data.List.Infix
import Mathlib.Tactic.Common

/-! # Searching for one of several markers

The leftmost occurrence of a marker of a list splits a text. Where several begin at one place,
the first of the list is found.
-/
namespace Rullama.Text

variable {α : Type*} [DecidableEq α]

/-- The first marker that the text begins with. -/
def front (ms : List (List α)) (s : List α) : Option (List α) := ms.find? (fun m => m <+: s)

/-- The text before the leftmost occurrence of a marker, the marker, and the text after it. -/
def leftmost (ms : List (List α)) : List α → Option (List α × List α × List α)
  | [] => (front ms []).map (fun m => ([],m,[]))
  | c :: s =>
    match front ms (c :: s) with
    | some m => some ([],m,(c :: s).drop m.length)
    | none => (leftmost ms s).map (fun p => (c :: p.1,p.2))

variable {ms : List (List α)} {s b m a : List α}

theorem front_eq_none_iff : front ms s = none ↔ ∀ m ∈ ms, ¬ m <+: s := by
  simp only [front,List.find?_eq_none,decide_eq_true_eq]

theorem mem_of_front (h : front ms s = some m) : m ∈ ms := List.mem_of_find?_eq_some h

theorem isPrefix_of_front (h : front ms s = some m) : m <+: s := by
  simpa using List.find?_some h

theorem leftmost_of_front (h : front ms s = some m) :
    leftmost ms s = some ([],m,s.drop m.length) := by
  cases s with
  | nil => rw [leftmost,h,List.drop_nil]; rfl
  | cons c s => rw [leftmost,h]

theorem leftmost_cons {c : α} (h : front ms (c :: s) = none) :
    leftmost ms (c :: s) = (leftmost ms s).map (fun p => (c :: p.1,p.2)) := by
  rw [leftmost,h]

/-- The marker is the first at its place, and none begins before it. -/
theorem leftmost_spec (h : leftmost ms s = some (b,m,a)) :
    s = b ++ (m ++ a) ∧ front ms (m ++ a) = some m ∧
      ∀ i < b.length, front ms (s.drop i) = none := by
  induction s generalizing b with
  | nil =>
    rw [leftmost,Option.map_eq_some_iff] at h
    obtain ⟨m',hm,heq⟩ := h
    cases heq
    have hnil : m = [] := List.prefix_nil.mp (isPrefix_of_front hm)
    subst hnil
    exact ⟨rfl,hm,fun i hi => absurd hi (Nat.not_lt_zero i)⟩
  | cons c s ih =>
    cases hf : front ms (c :: s) with
    | some m' =>
      rw [leftmost_of_front hf] at h
      cases h
      obtain ⟨t,ht⟩ := isPrefix_of_front hf
      have hs : m ++ (c :: s).drop m.length = c :: s := by rw [← ht,List.drop_left]
      exact ⟨hs.symm,by rw [hs,hf],fun i hi => absurd hi (Nat.not_lt_zero i)⟩
    | none =>
      rw [leftmost_cons hf,Option.map_eq_some_iff] at h
      obtain ⟨⟨b',m',a'⟩,hrest,heq⟩ := h
      cases heq
      obtain ⟨hs,hm,hleft⟩ := ih hrest
      refine ⟨by rw [hs,List.cons_append],hm,fun i hi => ?_⟩
      cases i with
      | zero => exact hf
      | succ i => exact hleft i (Nat.lt_of_succ_lt_succ hi)

theorem leftmost_eq_none_iff : leftmost ms s = none ↔ ∀ m ∈ ms, ¬ m <:+: s := by
  induction s with
  | nil =>
    rw [leftmost,Option.map_eq_none_iff,front_eq_none_iff]
    simp only [List.prefix_nil,List.infix_nil]
  | cons c s ih =>
    simp only [List.infix_cons_iff,not_or]
    cases hf : front ms (c :: s) with
    | some m =>
      rw [leftmost_of_front hf]
      refine iff_of_false (Option.some_ne_none _) (fun h => ?_)
      exact (h m (mem_of_front hf)).1 (isPrefix_of_front hf)
    | none =>
      have hnone := front_eq_none_iff.mp hf
      rw [leftmost_cons hf,Option.map_eq_none_iff,ih]
      exact ⟨fun h m hm => ⟨hnone m hm,h m hm⟩,fun h m hm => (h m hm).2⟩

end Rullama.Text
