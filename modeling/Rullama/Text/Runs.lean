import Mathlib.Data.List.Basic
import Mathlib.Tactic.Common

/-! # Texts that a list of pieces spells

Each piece of a pattern takes one run of the text, in order. What it may take can depend on the
text before its run and on the text after it.
-/
namespace Rullama.Text

variable {α P Q : Type*}

/-- The pieces take the whole text, which stands behind another one. -/
def Spells (takes : P → List α → List α → List α → Prop) : List P → List α → List α → Prop
  | [], _, text => text = []
  | p :: ps, before, text => ∃ run rest, text = run ++ rest ∧ takes p before run rest ∧
      Spells takes ps (before ++ run) rest

variable {takes : P → List α → List α → List α → Prop}
  {takes' : Q → List α → List α → List α → Prop} {ps : List P} {before text : List α}

/-- Pieces that may take more spell more. -/
theorem Spells.map {e : P → Q} (ok : α → Prop)
    (h : ∀ p before run rest, (∀ c ∈ run, ok c) → takes p before run rest →
      takes' (e p) before run rest)
    (hok : ∀ c ∈ text, ok c) (hs : Spells takes ps before text) :
    Spells takes' (ps.map e) before text := by
  induction ps generalizing before text with
  | nil => exact hs
  | cons p ps ih =>
    obtain ⟨run,rest,rfl,hp,hrest⟩ := hs
    refine ⟨run,rest,rfl,h p before run rest ?_ hp,ih ?_ hrest⟩
    · exact fun c hc => hok c (List.mem_append_left _ hc)
    · exact fun c hc => hok c (List.mem_append_right _ hc)

/-- Pieces that take the same spell the same. -/
theorem spells_map_iff {e : P → Q} (h : ∀ p ∈ ps, ∀ before run rest,
    takes p before run rest ↔ takes' (e p) before run rest) :
    Spells takes ps before text ↔ Spells takes' (ps.map e) before text := by
  induction ps generalizing before text with
  | nil => exact Iff.rfl
  | cons p ps ih =>
    simp only [List.map_cons,Spells]
    simp only [h p List.mem_cons_self,ih fun q hq => h q (List.mem_cons_of_mem p hq)]

/-- Pieces that do not look back spell the same behind any text. -/
theorem Spells.behind (h : ∀ p before before' run rest, takes p before run rest →
    takes p before' run rest) (before' : List α) (hs : Spells takes ps before text) :
    Spells takes ps before' text := by
  induction ps generalizing before before' text with
  | nil => exact hs
  | cons p ps ih =>
    obtain ⟨run,rest,rfl,hp,hrest⟩ := hs
    exact ⟨run,rest,rfl,h p before before' run rest hp,ih (before' ++ run) hrest⟩

/-- A number that grows by at most one where runs meet, and is zero for each run, is at most the
number of pieces. -/
theorem Spells.number_le (number : List α → ℕ) (hnil : number [] = 0)
    (happend : ∀ a b, number (a ++ b) ≤ number a + number b + 1)
    (hrun : ∀ p before run rest, takes p before run rest → number run = 0)
    (hs : Spells takes ps before text) : number text ≤ ps.length := by
  induction ps generalizing before text with
  | nil =>
    obtain rfl : text = [] := hs
    exact Nat.le_of_eq hnil
  | cons p ps ih =>
    obtain ⟨run,rest,rfl,hp,hrest⟩ := hs
    have hle := ih hrest
    have happend := happend run rest
    rw [hrun p before run rest hp] at happend
    rw [List.length_cons]
    omega

/-- Every piece can take something, whatever is around it. -/
def Free (takes : P → List α → List α → List α → Prop) : Prop :=
  ∀ p, ∃ run, ∀ before rest, takes p before run rest

theorem Free.exists_spells (h : Free takes) (ps : List P) (before : List α) :
    ∃ text, Spells takes ps before text := by
  induction ps generalizing before with
  | nil => exact ⟨[],rfl⟩
  | cons p ps ih =>
    obtain ⟨run,hrun⟩ := h p
    obtain ⟨rest,hrest⟩ := ih (before ++ run)
    exact ⟨run ++ rest,run,rest,rfl,hrun before rest,hrest⟩

/-- What one piece can take is inside a text that all of them spell. -/
theorem Free.exists_spells_around (h : Free takes) {p : P} {run : List α} (hp : p ∈ ps)
    (hrun : ∀ before rest, takes p before run rest) (before : List α) :
    ∃ a b, Spells takes ps before (a ++ (run ++ b)) := by
  induction ps generalizing before with
  | nil => cases hp
  | cons q ps ih =>
    rcases List.mem_cons.mp hp with rfl | hp
    · obtain ⟨rest,hrest⟩ := h.exists_spells ps (before ++ run)
      exact ⟨[],rest,run,rest,rfl,hrun before rest,hrest⟩
    · obtain ⟨first,hfirst⟩ := h q
      obtain ⟨a,b,hrest⟩ := ih hp (before ++ first)
      exact ⟨first ++ a,b,first,a ++ (run ++ b),List.append_assoc _ _ _,hfirst before _,hrest⟩

end Rullama.Text
