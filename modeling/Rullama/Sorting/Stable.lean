import Mathlib.Order.Lattice
import Mathlib.Tactic.Common

/-! # Stable sorting by a key

Elements of one key stay in order when a list is sorted. A sorted list is known by the runs of
its keys, so that what a stable sort gives is told from the runs of the list that is sorted.
-/
namespace Rullama.Sorting

variable {α K : Type*} [LinearOrder K] (key : α → K)

def byKey (l : List α) : List α := l.mergeSort (fun a b => decide (key a ≤ key b))

/-- The elements of one key, in order. -/
def run (k : K) (l : List α) : List α := l.filter (fun a => decide (key a = k))

variable {key} {k : K} {l m s t : List α}

theorem mem_run {a : α} : a ∈ run key k l ↔ a ∈ l ∧ key a = k := by
  rw [run,List.mem_filter,decide_eq_true_eq]

theorem run_append (k : K) (l m : List α) : run key k (l ++ m) = run key k l ++ run key k m :=
  List.filter_append ..

theorem run_eq_nil (h : ∀ a ∈ l, key a ≠ k) : run key k l = [] :=
  List.filter_eq_nil_iff.mpr (fun a ha hk => h a ha (of_decide_eq_true hk))

theorem run_eq_self (h : ∀ a ∈ l, key a = k) : run key k l = l :=
  List.filter_eq_self.mpr (fun a ha => decide_eq_true (h a ha))

theorem run_filter (p : α → Bool) (k : K) (l : List α) :
    run key k (l.filter p) = (run key k l).filter p := by
  rw [run,run,List.filter_filter,List.filter_filter]
  exact List.filter_congr (fun a _ => Bool.and_comm _ _)

/-- The elements of all other keys. -/
def others (key : α → K) (k : K) (l : List α) : List α := l.filter (fun a => decide (key a ≠ k))

theorem mem_others {a : α} : a ∈ others key k l ↔ a ∈ l ∧ key a ≠ k := by
  rw [others,List.mem_filter,decide_eq_true_eq]

theorem run_run_self (k : K) (l : List α) : run key k (run key k l) = run key k l :=
  run_eq_self (fun _ ha => (mem_run.mp ha).2)

theorem run_run_of_ne {j : K} (h : j ≠ k) (l : List α) : run key j (run key k l) = [] :=
  run_eq_nil (fun _ ha hj => h (hj.symm.trans (mem_run.mp ha).2))

theorem run_others_self (k : K) (l : List α) : run key k (others key k l) = [] :=
  run_eq_nil (fun _ ha => (mem_others.mp ha).2)

theorem run_others_of_ne {j : K} (h : j ≠ k) (l : List α) :
    run key j (others key k l) = run key j l := by
  rw [others,run_filter]
  refine List.filter_eq_self.mpr (fun a ha => decide_eq_true ?_)
  rw [(mem_run.mp ha).2]
  exact h

/-! ## Sorting -/

theorem byKey_perm (l : List α) : (byKey key l).Perm l := List.mergeSort_perm l _

theorem mem_byKey {a : α} : a ∈ byKey key l ↔ a ∈ l := (byKey_perm l).mem_iff

theorem le_trans_decide (a b c : α) (hab : decide (key a ≤ key b) = true)
    (hbc : decide (key b ≤ key c) = true) : decide (key a ≤ key c) = true := by
  rw [decide_eq_true_eq] at *
  exact le_trans hab hbc

theorem le_total_decide (a b : α) :
    (decide (key a ≤ key b) || decide (key b ≤ key a)) = true := by
  rw [Bool.or_eq_true,decide_eq_true_eq,decide_eq_true_eq]
  exact le_total (key a) (key b)

theorem byKey_sorted (l : List α) : (byKey key l).Pairwise (fun a b => key a ≤ key b) :=
  (List.pairwise_mergeSort le_trans_decide le_total_decide l).imp of_decide_eq_true

theorem byKey_of_sorted (h : l.Pairwise (fun a b => key a ≤ key b)) : byKey key l = l :=
  List.mergeSort_of_pairwise (h.imp (fun hab => decide_eq_true hab))

/-- Elements of one key stay in order. -/
theorem run_byKey (k : K) (l : List α) : run key k (byKey key l) = run key k l := by
  have hpair : (run key k l).Pairwise (fun a b => decide (key a ≤ key b) = true) := by
    refine List.pairwise_of_forall_mem_list (fun a ha b hb => ?_)
    rw [(mem_run.mp ha).2,(mem_run.mp hb).2,decide_eq_true_eq]
  have hsub : (run key k l).Sublist (byKey key l) :=
    List.sublist_mergeSort le_trans_decide le_total_decide hpair List.filter_sublist
  have hsub' : (run key k (run key k l)).Sublist (run key k (byKey key l)) := hsub.filter _
  rw [run_eq_self (fun a ha => (mem_run.mp ha).2)] at hsub'
  have hlen : (run key k (byKey key l)).length = (run key k l).length :=
    ((byKey_perm l).filter _).length_eq
  exact (hsub'.eq_of_length hlen.symm).symm

/-! ## Sorted lists are their runs -/

theorem key_le_of_runs {a b : α} (hs : (a :: s).Pairwise (fun a b => key a ≤ key b))
    (h : run key (key b) (a :: s) = run key (key b) (b :: t)) : key a ≤ key b := by
  have hmem : b ∈ run key (key b) (b :: t) := mem_run.mpr ⟨List.mem_cons_self,rfl⟩
  rw [← h,mem_run] at hmem
  rcases List.mem_cons.mp hmem.1 with rfl | hb
  · exact le_refl _
  · exact List.rel_of_pairwise_cons hs hb

theorem eq_of_runs (hs : s.Pairwise (fun a b => key a ≤ key b))
    (ht : t.Pairwise (fun a b => key a ≤ key b)) (h : ∀ k, run key k s = run key k t) : s = t := by
  induction s generalizing t with
  | nil =>
    cases t with
    | nil => rfl
    | cons b t =>
      have hmem : b ∈ run key (key b) (b :: t) := mem_run.mpr ⟨List.mem_cons_self,rfl⟩
      rw [← h] at hmem
      cases hmem
  | cons a s ih =>
    cases t with
    | nil =>
      have hmem : a ∈ run key (key a) (a :: s) := mem_run.mpr ⟨List.mem_cons_self,rfl⟩
      rw [h] at hmem
      cases hmem
    | cons b t =>
      -- Each head has the lowest key of its list, so the heads begin one run.
      have hkey : key a = key b :=
        le_antisymm (key_le_of_runs hs (h (key b))) (key_le_of_runs ht (h (key a)).symm)
      have hcons (k : K) : (if key a = k then a :: run key k s else run key k s) =
          if key a = k then b :: run key k t else run key k t := by
        have hk := h k
        simp only [run,List.filter_cons,decide_eq_true_eq,← hkey] at hk
        exact hk
      have hhead : a = b := by
        have hk := hcons (key a)
        rw [if_pos rfl,if_pos rfl] at hk
        exact (List.cons.inj hk).1
      rw [hhead,ih (List.Pairwise.of_cons hs) (List.Pairwise.of_cons ht) (fun k => ?_)]
      have hk := hcons k
      split at hk
      · exact (List.cons.inj hk).2
      · exact hk

theorem byKey_congr (h : ∀ k, run key k l = run key k m) : byKey key l = byKey key m := by
  refine eq_of_runs (byKey_sorted l) (byKey_sorted m) (fun k => ?_)
  rw [run_byKey,run_byKey,h]

/-- What has the later keys is sorted after the rest. -/
theorem byKey_append (h : ∀ a ∈ l, ∀ b ∈ m, key a ≤ key b) :
    byKey key (l ++ m) = byKey key l ++ byKey key m := by
  refine eq_of_runs (byKey_sorted _) ?_ (fun k => ?_)
  · rw [List.pairwise_append]
    exact ⟨byKey_sorted l,byKey_sorted m,fun a ha b hb => h a (mem_byKey.mp ha) b (mem_byKey.mp hb)⟩
  · rw [run_byKey,run_append,run_append,run_byKey,run_byKey]

theorem filter_byKey (p : α → Bool) (l : List α) :
    (byKey key l).filter p = byKey key (l.filter p) := by
  refine eq_of_runs ((byKey_sorted l).sublist List.filter_sublist) (byKey_sorted _) (fun k => ?_)
  rw [run_byKey,run_filter,run_filter,run_byKey]

end Rullama.Sorting
