import Mathlib.Data.List.Basic
import Mathlib.Data.List.Chain
import Mathlib.Data.List.GetD
import Mathlib.Tactic.Common

/-! # Merging neighbours by rank

A word is a list of pieces. As long as two neighbours have a rank, the two with the lowest one
become a single piece. Each round takes a piece away, so the length of the word is enough fuel
for the loop.
-/
namespace Rullama.Text

variable {α : Type*}

def merge (word : List (List α)) (i : ℕ) : List (List α) :=
  word.take i ++ (word.getD i [] ++ word.getD (i + 1) []) :: word.drop (i + 2)

variable (rank : List α → List α → Option ℕ)

def rankAt (word : List (List α)) (i : ℕ) : Option ℕ := rank (word.getD i []) (word.getD (i + 1) [])

/-- A lower rank replaces the best one so far. -/
def consider (word : List (List α)) (best : Option (ℕ × ℕ)) (i : ℕ) : Option (ℕ × ℕ) :=
  match rankAt rank word i,best with
  | none,best => best
  | some r,none => some (r,i)
  | some r,some b => if r < b.1 then some (r,i) else some b

/-- The lowest rank of two neighbours, and the first place that has it. -/
def bestPair (word : List (List α)) : Option (ℕ × ℕ) :=
  (List.range (word.length - 1)).foldl (consider rank word) none

def mergeStep (word : List (List α)) : Option (List (List α)) :=
  if 1 < word.length then (bestPair rank word).map (fun b => merge word b.2) else none

def mergeAll : ℕ → List (List α) → List (List α)
  | 0,word => word
  | n + 1,word =>
    match mergeStep rank word with
    | none => word
    | some next => mergeAll n next

variable {rank} {word next : List (List α)}

/-! ## The best pair -/

/-- The best of the first places that were looked at. -/
structure IsBest (rank : List α → List α → Option ℕ) (word : List (List α)) (n : ℕ)
    (b : ℕ × ℕ) : Prop where
  lt : b.2 < n
  ranked : rankAt rank word b.2 = some b.1
  least : ∀ i < n, ∀ r, rankAt rank word i = some r → b.1 ≤ r ∧ (i < b.2 → b.1 < r)

section Consider

variable {i r : ℕ}

theorem consider_of_none (h : rankAt rank word i = none) (best : Option (ℕ × ℕ)) :
    consider rank word best i = best := by
  rw [consider.eq_def,h]

theorem consider_none (h : rankAt rank word i = some r) :
    consider rank word none i = some (r,i) := by
  rw [consider.eq_def,h]

theorem consider_some (h : rankAt rank word i = some r) (b : ℕ × ℕ) :
    consider rank word (some b) i = if r < b.1 then some (r,i) else some b := by
  rw [consider.eq_def,h]

end Consider

theorem foldl_consider (rank : List α → List α → Option ℕ) (word : List (List α)) (n : ℕ) :
    ((List.range n).foldl (consider rank word) none = none ∧
      ∀ i < n, rankAt rank word i = none) ∨
    ∃ b, (List.range n).foldl (consider rank word) none = some b ∧ IsBest rank word n b := by
  induction n with
  | zero => exact .inl ⟨rfl,fun i hi => absurd hi (Nat.not_lt_zero i)⟩
  | succ n ih =>
    rw [List.range_succ,List.foldl_append,List.foldl_cons,List.foldl_nil]
    cases hr : rankAt rank word n with
    | none =>
      rcases ih with ⟨hnone,hall⟩ | ⟨b,hb,hbest⟩
      · refine .inl ⟨by rw [hnone,consider_of_none hr],fun i hi => ?_⟩
        rcases Nat.lt_succ_iff_lt_or_eq.mp hi with hi | rfl
        · exact hall i hi
        · exact hr
      · refine .inr ⟨b,by rw [hb,consider_of_none hr],⟨Nat.lt_succ_of_lt hbest.lt,hbest.ranked,?_⟩⟩
        intro i hi r hir
        rcases Nat.lt_succ_iff_lt_or_eq.mp hi with hi | rfl
        · exact hbest.least i hi r hir
        · rw [hr] at hir
          cases hir
    | some r =>
      rcases ih with ⟨hnone,hall⟩ | ⟨b,hb,hbest⟩
      · refine .inr ⟨(r,n),by rw [hnone,consider_none hr],⟨Nat.lt_succ_self n,hr,?_⟩⟩
        intro i hi r' hir
        rcases Nat.lt_succ_iff_lt_or_eq.mp hi with hi | rfl
        · rw [hall i hi] at hir
          cases hir
        · rw [hr] at hir
          cases hir
          exact ⟨Nat.le_refl _,fun h => absurd h (Nat.lt_irrefl _)⟩
      · have hlt := hbest.lt
        rw [hb,consider_some hr]
        by_cases hlow : r < b.1
        · refine .inr ⟨(r,n),if_pos hlow,⟨Nat.lt_succ_self n,hr,?_⟩⟩
          intro i hi r' hir
          rcases Nat.lt_succ_iff_lt_or_eq.mp hi with hi | rfl
          · have hle := (hbest.least i hi r' hir).1
            exact ⟨by omega,fun _ => by omega⟩
          · rw [hr] at hir
            cases hir
            exact ⟨Nat.le_refl _,fun h => absurd h (Nat.lt_irrefl _)⟩
        · refine .inr ⟨b,if_neg hlow,⟨Nat.lt_succ_of_lt hlt,hbest.ranked,?_⟩⟩
          intro i hi r' hir
          rcases Nat.lt_succ_iff_lt_or_eq.mp hi with hi | rfl
          · exact hbest.least i hi r' hir
          · rw [hr] at hir
            cases hir
            exact ⟨by omega,fun h => absurd h (by omega)⟩

theorem isBest_of_bestPair {b : ℕ × ℕ} (h : bestPair rank word = some b) :
    IsBest rank word (word.length - 1) b := by
  rcases foldl_consider rank word (word.length - 1) with ⟨hnone,-⟩ | ⟨c,hc,hbest⟩
  · rw [bestPair,hnone] at h
    cases h
  · rw [bestPair,hc] at h
    cases h
    exact hbest

theorem bestPair_eq_none_iff :
    bestPair rank word = none ↔ ∀ i < word.length - 1, rankAt rank word i = none := by
  rcases foldl_consider rank word (word.length - 1) with ⟨hnone,hall⟩ | ⟨b,hb,hbest⟩
  · exact iff_of_true hnone hall
  · refine iff_of_false (by rw [bestPair,hb]; exact Option.some_ne_none b) (fun h => ?_)
    have hranked := hbest.ranked
    rw [h b.2 hbest.lt] at hranked
    cases hranked

/-! ## One round -/

/-- A round puts two neighbours with a rank together, and leaves the others. -/
theorem exists_of_mergeStep (h : mergeStep rank word = some next) :
    ∃ u a b v r, word = u ++ a :: b :: v ∧ rank a b = some r ∧ next = u ++ (a ++ b) :: v := by
  rw [mergeStep] at h
  split at h
  · obtain ⟨b,hb,rfl⟩ := Option.map_eq_some_iff.mp h
    have hbest := isBest_of_bestPair hb
    have hlt := hbest.lt
    have hranked := hbest.ranked
    rw [rankAt] at hranked
    refine ⟨word.take b.2,_,_,word.drop (b.2 + 2),b.1,?_,hranked,rfl⟩
    rw [List.getD_eq_getElem _ _ (by omega),List.getD_eq_getElem _ _ (by omega),
      ← List.drop_eq_getElem_cons (by omega),← List.drop_eq_getElem_cons (by omega),
      List.take_append_drop]
  · cases h

theorem mergeStep_eq_none_iff :
    mergeStep rank word = none ↔ word.IsChain (fun a b => rank a b = none) := by
  have hchain : word.IsChain (fun a b => rank a b = none) ↔
      ∀ i < word.length - 1, rankAt rank word i = none := by
    rw [List.isChain_iff_getElem]
    constructor
    · intro h i hi
      have hi' := h i (by omega)
      rwa [rankAt,List.getD_eq_getElem _ _ (by omega),List.getD_eq_getElem _ _ (by omega)]
    · intro h i hi
      have hi' := h i (by omega)
      rwa [rankAt,List.getD_eq_getElem _ _ (by omega),List.getD_eq_getElem _ _ (by omega)] at hi'
  rw [hchain,mergeStep,← bestPair_eq_none_iff]
  split
  · exact Option.map_eq_none_iff
  · refine iff_of_true rfl (bestPair_eq_none_iff.mpr (fun i hi => ?_))
    omega

theorem flatten_of_mergeStep (h : mergeStep rank word = some next) :
    next.flatten = word.flatten := by
  obtain ⟨u,a,b,v,r,rfl,-,rfl⟩ := exists_of_mergeStep h
  simp only [List.flatten_append,List.flatten_cons,List.append_assoc]

theorem length_of_mergeStep (h : mergeStep rank word = some next) :
    next.length + 1 = word.length := by
  obtain ⟨u,a,b,v,r,rfl,-,rfl⟩ := exists_of_mergeStep h
  simp only [List.length_append,List.length_cons]
  omega

/-! ## The loop -/

theorem mergeAll_of_none (h : mergeStep rank word = none) (n : ℕ) :
    mergeAll rank n word = word := by
  cases n with
  | zero => rfl
  | succ n => rw [mergeAll,h]

theorem mergeAll_of_some (h : mergeStep rank word = some next) (n : ℕ) :
    mergeAll rank (n + 1) word = mergeAll rank n next := by
  rw [mergeAll,h]

/-- After any number of rounds, the pieces put together are the word. -/
theorem flatten_mergeAll (n : ℕ) (word : List (List α)) :
    (mergeAll rank n word).flatten = word.flatten := by
  induction n generalizing word with
  | zero => rfl
  | succ n ih =>
    cases h : mergeStep rank word with
    | none => rw [mergeAll_of_none h]
    | some next => rw [mergeAll_of_some h,ih,flatten_of_mergeStep h]

/-- The loop ends within as many rounds as there are pieces. -/
theorem mergeStep_mergeAll {n : ℕ} (hn : word.length ≤ n) :
    mergeStep rank (mergeAll rank n word) = none := by
  induction n generalizing word with
  | zero =>
    have hword : word = [] := List.eq_nil_of_length_eq_zero (Nat.le_zero.mp hn)
    rw [mergeAll,hword]
    rfl
  | succ n ih =>
    cases h : mergeStep rank word with
    | none => rw [mergeAll_of_none h,h]
    | some next =>
      have hlen := length_of_mergeStep h
      rw [mergeAll_of_some h]
      exact ih (by omega)

/-- What holds of every piece, and of two merged ones, holds of the pieces that are left. -/
theorem forall_mem_mergeAll {P : List α → Prop} (hword : ∀ p ∈ word, P p)
    (hmerge : ∀ a b r, P a → P b → rank a b = some r → P (a ++ b)) (n : ℕ) :
    ∀ p ∈ mergeAll rank n word, P p := by
  induction n generalizing word with
  | zero => exact hword
  | succ n ih =>
    cases h : mergeStep rank word with
    | none =>
      rw [mergeAll_of_none h]
      exact hword
    | some next =>
      rw [mergeAll_of_some h]
      obtain ⟨u,a,b,v,r,rfl,hr,rfl⟩ := exists_of_mergeStep h
      refine ih (fun p hp => ?_)
      simp only [List.mem_append,List.mem_cons] at hp hword
      rcases hp with hp | rfl | hp
      · exact hword p (.inl hp)
      · exact hmerge a b r (hword a (by simp)) (hword b (by simp)) hr
      · exact hword p (by simp [hp])

end Rullama.Text
