import Mathlib.Data.List.Basic
import Mathlib.Tactic.Common

/-! # Reading a text chunk by chunk

A loop takes one chunk after another from the front of a text until it finds no more. Every
chunk shortens the text, so the length of the text is enough fuel for the loop.
-/
namespace Rullama.Text

variable {α β : Type*}

def chunks (next : List α → Option (β × List α)) : ℕ → List α → List β × List α
  | 0,s => ([],s)
  | n + 1,s =>
    match next s with
    | none => ([],s)
    | some (b,rest) => (b :: (chunks next n rest).1,(chunks next n rest).2)

/-- The chunks of a text, and what is left after the last one. -/
def split (next : List α → Option (β × List α)) (s : List α) : List β × List α :=
  chunks next s.length s

/-- The texts that chunks are taken from, one for each round. -/
def stops (next : List α → Option (β × List α)) (s : List α) : List (List α) :=
  (split (fun t => (next t).map (fun p => (t,p.2))) s).1

def Shortens (next : List α → Option (β × List α)) : Prop :=
  ∀ ⦃s b rest⦄, next s = some (b,rest) → rest.length < s.length

variable {next : List α → Option (β × List α)} {s rest : List α} {b : β}

theorem Shortens.nil (hn : Shortens next) : next [] = none := by
  cases h : next [] with
  | none => rfl
  | some p => exact absurd (hn h) (Nat.not_lt_zero _)

theorem chunks_of_none (h : next s = none) (n : ℕ) : chunks next n s = ([],s) := by
  cases n with
  | zero => rfl
  | succ n => rw [chunks,h]

theorem chunks_of_some (h : next s = some (b,rest)) (n : ℕ) :
    chunks next (n + 1) s = (b :: (chunks next n rest).1,(chunks next n rest).2) := by
  rw [chunks,h]

/-- Fuel beyond the length of the text makes no difference. -/
theorem chunks_congr (hn : Shortens next) {n m : ℕ} (hsn : s.length ≤ n) (hsm : s.length ≤ m) :
    chunks next n s = chunks next m s := by
  induction n generalizing s m with
  | zero =>
    obtain rfl : s = [] := List.eq_nil_of_length_eq_zero (by omega)
    rw [chunks_of_none hn.nil,chunks_of_none hn.nil]
  | succ n ih =>
    cases hs : next s with
    | none => rw [chunks_of_none hs,chunks_of_none hs]
    | some p =>
      obtain ⟨b,rest⟩ := p
      have hlt := hn hs
      obtain ⟨m,rfl⟩ : ∃ k, m = k + 1 := ⟨m - 1,by omega⟩
      have hrest : chunks next n rest = chunks next m rest := ih (by omega) (by omega)
      rw [chunks_of_some hs,chunks_of_some hs,hrest]

theorem split_of_none (h : next s = none) : split next s = ([],s) := chunks_of_none h _

theorem split_of_some (hn : Shortens next) (h : next s = some (b,rest)) :
    split next s = (b :: (split next rest).1,(split next rest).2) := by
  have hlt := hn h
  obtain ⟨n,hs⟩ : ∃ n, s.length = n + 1 := ⟨s.length - 1,by omega⟩
  have hrest : chunks next n rest = split next rest := chunks_congr hn (by omega) (Nat.le_refl _)
  rw [split,hs,chunks_of_some h,hrest]

/-- Every chunk is taken from the front of some text. -/
theorem exists_of_mem_split (h : b ∈ (split next s).1) : ∃ t rest, next t = some (b,rest) := by
  rw [split] at h
  generalize s.length = n at h
  induction n generalizing s with
  | zero => cases h
  | succ n ih =>
    cases hs : next s with
    | none =>
      rw [chunks_of_none hs] at h
      cases h
    | some p =>
      rw [chunks_of_some hs] at h
      rcases List.mem_cons.mp h with rfl | h
      · exact ⟨s,p.2,hs⟩
      · exact ih h

theorem stops_of_some (hn : Shortens next) (h : next s = some (b,rest)) :
    stops next s = s :: stops next rest := by
  have hshort : Shortens (fun t => (next t).map (fun p => (t,p.2))) := by
    intro t u rest ht
    obtain ⟨p,hp,heq⟩ := Option.map_eq_some_iff.mp ht
    cases heq
    exact hn hp
  have hsome : (next s).map (fun p => (s,p.2)) = some (s,rest) := by rw [h]; rfl
  rw [stops,split_of_some hshort hsome]
  rfl

/-- Induction along the loop. -/
theorem Shortens.induction (hn : Shortens next) {P : List α → Prop}
    (hnone : ∀ s, next s = none → P s)
    (hsome : ∀ s b rest, next s = some (b,rest) → P rest → P s) (s : List α) : P s := by
  induction hs : s.length using Nat.strongRecOn generalizing s with
  | _ n ih =>
    cases h : next s with
    | none => exact hnone s h
    | some p =>
      refine hsome s p.1 p.2 h (ih p.2.length ?_ p.2 rfl)
      rw [← hs]
      exact hn h

end Rullama.Text
