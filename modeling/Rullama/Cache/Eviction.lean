import Mathlib.Data.List.Nodup
import Mathlib.Order.Basic
import Mathlib.Tactic.Common

/-! # Eviction by usage

Entries are removed one by one, each time one of those used least that are not pinned, and only
while there is too much. Entries are told apart by their keys.
-/
namespace Rullama.Cache

structure Policy (α κ β : Type*) where
  key : α → κ
  pinned : α → Bool
  usage : α → β

namespace Policy
variable {α κ β : Type*} {p : Policy α κ β} {l m n xs ys : List α} {x y : α}

theorem eq_of_key (hk : (l.map p.key).Nodup) (hx : x ∈ l) (hy : y ∈ l) (h : p.key y = p.key x) :
    y = x := List.inj_on_of_nodup_map hk hy hx h

variable [DecidableEq κ]

def without (p : Policy α κ β) (l : List α) (x : α) : List α :=
  l.filter (fun y => p.key y ≠ p.key x)

theorem mem_without : y ∈ p.without l x ↔ y ∈ l ∧ p.key y ≠ p.key x := by
  simp [without]

theorem without_sublist : (p.without l x).Sublist l := List.filter_sublist

theorem length_without_lt (hx : x ∈ l) : (p.without l x).length < l.length := by
  refine List.length_filter_lt_length_iff_exists.mpr ⟨x,hx,?_⟩
  simp

variable [Preorder β]

/-- It may be removed next. -/
def Candidate (p : Policy α κ β) (l : List α) (x : α) : Prop :=
  x ∈ l ∧ p.pinned x = false ∧ ∀ y ∈ l, p.pinned y = false → p.usage x ≤ p.usage y

/-- From the first list on the entries of the second one are removed, which leaves the third. -/
inductive Evicted (p : Policy α κ β) (tooMuch : List α → Prop) :
    List α → List α → List α → Prop
  | done {l : List α} : Evicted p tooMuch l [] l
  | evict {l xs l' : List α} {x : α} : tooMuch l → p.Candidate l x →
    Evicted p tooMuch (p.without l x) xs l' → Evicted p tooMuch l (x :: xs) l'

variable {tooMuch tooMuch' : List α → Prop}

namespace Evicted

theorem mono (hmono : ∀ l, tooMuch l → tooMuch' l) (h : p.Evicted tooMuch l xs m) :
    p.Evicted tooMuch' l xs m := by
  induction h with
  | done => exact .done
  | evict hl hx _ ih => exact .evict (hmono _ hl) hx ih

theorem trans (h : p.Evicted tooMuch l xs m) (h' : p.Evicted tooMuch m ys n) :
    p.Evicted tooMuch l (xs ++ ys) n := by
  induction h with
  | done => exact h'
  | evict hl hx _ ih => exact .evict hl hx (ih h')

theorem sublist (h : p.Evicted tooMuch l xs m) : m.Sublist l := by
  induction h with
  | done => exact List.Sublist.refl _
  | evict _ _ _ ih => exact ih.trans without_sublist

theorem keys (h : p.Evicted tooMuch l xs m) (hk : (l.map p.key).Nodup) : (m.map p.key).Nodup :=
  hk.sublist (h.sublist.map p.key)

/-- Every entry is left or removed. -/
theorem left_or_removed (h : p.Evicted tooMuch l xs m) (hk : (l.map p.key).Nodup) (hy : y ∈ l) :
    y ∈ m ∨ y ∈ xs := by
  induction h with
  | done => exact .inl hy
  | @evict l xs l' x _ hx _ ih =>
    by_cases hkey : p.key y = p.key x
    · rw [eq_of_key hk hx.1 hy hkey]
      exact .inr List.mem_cons_self
    · have hrest := ih (hk.sublist (without_sublist.map p.key)) (mem_without.mpr ⟨hy,hkey⟩)
      exact hrest.imp_right (List.mem_cons_of_mem x)

theorem unpinned (h : p.Evicted tooMuch l xs m) (hx : x ∈ xs) : p.pinned x = false := by
  induction h with
  | done => cases hx
  | evict _ hc _ ih =>
    rcases List.mem_cons.mp hx with rfl | hx
    · exact hc.2.1
    · exact ih hx

/-- Pinned entries are not removed. -/
theorem spares (h : p.Evicted tooMuch l xs m) (hk : (l.map p.key).Nodup) (hy : y ∈ l)
    (hpin : p.pinned y = true) : y ∈ m := by
  rcases h.left_or_removed hk hy with hm | hx
  · exact hm
  · have hnot := h.unpinned hx
    rw [hpin] at hnot
    cases hnot

/-- What is removed is not used more than what is left. -/
theorem least (h : p.Evicted tooMuch l xs m) (hx : x ∈ xs) (hy : y ∈ m)
    (hpin : p.pinned y = false) : p.usage x ≤ p.usage y := by
  induction h with
  | done => cases hx
  | evict _ hc hrest ih =>
    rcases List.mem_cons.mp hx with rfl | hx
    · exact hc.2.2 y (without_sublist.subset (hrest.sublist.subset hy)) hpin
    · exact ih hx hy

end Evicted
end Policy
end Rullama.Cache
