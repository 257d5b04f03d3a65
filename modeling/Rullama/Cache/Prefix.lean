import Mathlib.Data.List.Basic
import Mathlib.Tactic.Common

/-! # Caches of a fed sequence

A cache has one entry for each token fed to it. The entry of a token depends on the
tokens before it and on the mode the cache was in when the token was fed, so a list
of tokens with their modes says all of a cache's contents. A tracker that knows the
tokens alone describes the cache when all entries are of the mode applied now.
-/
namespace Rullama.Cache

structure PrefixCache (τ μ : Type*) where
  mode : μ
  entries : List (τ × μ)
  deriving DecidableEq, Repr

namespace PrefixCache
variable {τ μ : Type*}

def position (c : PrefixCache τ μ) : ℕ := c.entries.length

def step (c : PrefixCache τ μ) (t : τ) : PrefixCache τ μ :=
  { c with entries := c.entries ++ [(t,c.mode)] }

def feed (c : PrefixCache τ μ) (ts : List τ) : PrefixCache τ μ := ts.foldl step c

def reset (c : PrefixCache τ μ) : PrefixCache τ μ := { c with entries := [] }

def truncate (c : PrefixCache τ μ) (n : ℕ) : PrefixCache τ μ :=
  { c with entries := c.entries.take n }

/-- The entries are kept: they stay those of the modes they were fed under. -/
def setMode (c : PrefixCache τ μ) (m : μ) : PrefixCache τ μ := { c with mode := m }

/-- A saved list of entries replaces the cache's own. -/
def restore (c : PrefixCache τ μ) (saved : List (τ × μ)) : PrefixCache τ μ :=
  { c with entries := saved }

@[simp] theorem step_mode (c : PrefixCache τ μ) (t : τ) : (c.step t).mode = c.mode := rfl
@[simp] theorem reset_mode (c : PrefixCache τ μ) : c.reset.mode = c.mode := rfl
@[simp] theorem truncate_mode (c : PrefixCache τ μ) (n : ℕ) : (c.truncate n).mode = c.mode := rfl
@[simp] theorem restore_mode (c : PrefixCache τ μ) (saved : List (τ × μ)) :
    (c.restore saved).mode = c.mode := rfl
@[simp] theorem feed_nil (c : PrefixCache τ μ) : c.feed [] = c := rfl
@[simp] theorem feed_cons (c : PrefixCache τ μ) (t : τ) (ts : List τ) :
    c.feed (t :: ts) = (c.step t).feed ts := rfl

theorem feed_append (c : PrefixCache τ μ) (ts us : List τ) :
    c.feed (ts ++ us) = (c.feed ts).feed us := List.foldl_append

@[simp] theorem feed_mode (c : PrefixCache τ μ) (ts : List τ) : (c.feed ts).mode = c.mode := by
  induction ts generalizing c with
  | nil => rfl
  | cons t ts ih => rw [feed_cons,ih,step_mode]

theorem feed_entries (c : PrefixCache τ μ) (ts : List τ) :
    (c.feed ts).entries = c.entries ++ ts.map (·,c.mode) := by
  induction ts generalizing c with
  | nil => simp
  | cons t ts ih =>
    rw [feed_cons,ih]
    simp [step]

/-- The cache holds exactly these tokens, all of them of the mode applied now. -/
def Holds (c : PrefixCache τ μ) (ts : List τ) : Prop := c.entries = ts.map (·,c.mode)

instance [DecidableEq τ] [DecidableEq μ] (c : PrefixCache τ μ) (ts : List τ) :
    Decidable (c.Holds ts) := inferInstanceAs (Decidable (_ = _))

/-- To hold `ts` is to be what a reset and a feed of `ts` give. -/
theorem holds_iff_feed {c : PrefixCache τ μ} {ts : List τ} : c.Holds ts ↔ c = c.reset.feed ts := by
  constructor
  · intro h
    have he : (c.reset.feed ts).entries = c.entries := by
      rw [feed_entries,reset_mode,h]
      rfl
    have hm : (c.reset.feed ts).mode = c.mode := by rw [feed_mode,reset_mode]
    cases c
    cases hf : reset _ |>.feed ts with
    | mk m e =>
      rw [hf] at he hm
      subst he hm
      rfl
  · intro h
    rw [h,Holds,feed_entries,feed_mode,reset_mode]
    rfl

theorem holds_reset (c : PrefixCache τ μ) : c.reset.Holds [] := rfl

theorem Holds.position {c : PrefixCache τ μ} {ts : List τ} (h : c.Holds ts) :
    c.position = ts.length := by rw [PrefixCache.position,h,List.length_map]

theorem Holds.feed {c : PrefixCache τ μ} {ts : List τ} (h : c.Holds ts) (us : List τ) :
    (c.feed us).Holds (ts ++ us) := by
  rw [Holds,feed_entries,feed_mode,h,List.map_append]

theorem Holds.step {c : PrefixCache τ μ} {ts : List τ} (h : c.Holds ts) (t : τ) :
    (c.step t).Holds (ts ++ [t]) := h.feed [t]

theorem Holds.truncate {c : PrefixCache τ μ} {ts : List τ} (h : c.Holds ts) (n : ℕ) :
    (c.truncate n).Holds (ts.take n) := by
  rw [Holds,truncate_mode,List.map_take,← h]
  rfl

/-- Reuse of a held prefix: feeding the rest gives what a fresh feed of all gives. -/
theorem Holds.feed_drop {c : PrefixCache τ μ} {ts : List τ} {n : ℕ} (h : c.Holds (ts.take n)) :
    c.feed (ts.drop n) = c.reset.feed ts := by
  calc c.feed (ts.drop n) = (c.reset.feed (ts.take n)).feed (ts.drop n) := by
        rw [← holds_iff_feed.mp h]
    _ = c.reset.feed ts := by rw [← feed_append,List.take_append_drop]

/-- Entries saved while they were held under the mode `m` describe the cache they are
restored to just when there are none or the cache is in that mode. -/
theorem holds_restore_iff {c : PrefixCache τ μ} {ts : List τ} {m : μ} :
    (c.restore (ts.map (·,m))).Holds ts ↔ ts = [] ∨ m = c.mode := by
  rw [Holds,restore_mode]
  cases ts with
  | nil => simp [restore]
  | cons t ts =>
    constructor
    · intro h
      have hh := congrArg List.head? h
      simp only [restore,List.map_cons,List.head?_cons,Option.some.injEq,Prod.mk.injEq,
        true_and] at hh
      exact Or.inr hh
    · rintro (h | rfl)
      · cases h
      · rfl

end PrefixCache

section CommonPrefix
variable {τ : Type*} [DecidableEq τ]

/-- The length of the longest common prefix. -/
def commonPrefix : List τ → List τ → ℕ
  | x :: xs, y :: ys => if x = y then commonPrefix xs ys + 1 else 0
  | _, _ => 0

theorem take_commonPrefix (xs ys : List τ) :
    xs.take (commonPrefix xs ys) = ys.take (commonPrefix xs ys) := by
  induction xs generalizing ys with
  | nil => simp [commonPrefix]
  | cons x xs ih =>
    cases ys with
    | nil => simp [commonPrefix]
    | cons y ys =>
      by_cases h : x = y
      · subst h
        simp only [commonPrefix,if_pos,List.take_succ_cons,ih ys]
      · simp [commonPrefix,h]

end CommonPrefix
end Rullama.Cache
