import Rullama.Cache.Recent
import Rullama.Tools.Json
import Rullama.Tui.NanoFiles

/-! # The prompt history

Prompts are kept once each, the newest last, and are written to a file with one line for each
entry. A restart reads the lines of the file. The arrow keys move an index over the entries.
-/
namespace Rullama.Utils

open Rullama.Cache Rullama.Nano
open Rullama.Tools (isWhitespace)

abbrev Prompt := List Char

def MAX_HISTORY_SIZE : ℕ := 1000

/-- `trim().is_empty()` -/
def isBlank (prompt : Prompt) : Bool :=
  ((prompt.dropWhile isWhitespace).rdropWhile isWhitespace).isEmpty

/-- The history with the file that it is saved to, if there is one. -/
structure PromptHistory where
  prompts : List Prompt := []
  currentIndex : Option ℕ := none
  historyFile : Option (List Char) := none
  deriving DecidableEq

inductive HistoryCall where
  | add (prompt : Prompt)
  | clear
  | restart
  | previous
  | nextPrompt
  | reset

namespace PromptHistory

/-- The entries of the file, of which the first ones go where there are too many. -/
def load (historyFile : Option (List Char)) : List Prompt :=
  match historyFile with
  | none => []
  | some content =>
    let prompts := (linesOf content).filter (fun line => !isBlank line)
    if prompts.length > MAX_HISTORY_SIZE then prompts.drop (prompts.length - MAX_HISTORY_SIZE)
    else prompts

def save (s : PromptHistory) : PromptHistory :=
  { s with historyFile := some (joinLines s.prompts) }

def add (s : PromptHistory) (prompt : Prompt) : PromptHistory :=
  if isBlank prompt then s
  else
    let prompts := s.prompts.filter (· ≠ prompt) ++ [prompt]
    let prompts := if prompts.length > MAX_HISTORY_SIZE then prompts.tail else prompts
    save { s with prompts := prompts, currentIndex := none }

def clear (s : PromptHistory) : PromptHistory := save { s with prompts := [], currentIndex := none }

def previous (s : PromptHistory) : PromptHistory × Option Prompt :=
  if s.prompts.isEmpty then (s,none)
  else
    let newIndex := match s.currentIndex with
      | none => s.prompts.length - 1
      | some 0 => 0
      | some (i+1) => i
    ({ s with currentIndex := some newIndex },s.prompts[newIndex]?)

def nextPrompt (s : PromptHistory) : PromptHistory × Option Prompt :=
  if s.prompts.isEmpty then (s,none)
  else
    let newIndex := s.currentIndex.bind
      (fun i => if s.prompts.length - 1 ≤ i then none else some (i+1))
    ({ s with currentIndex := newIndex },newIndex.bind (s.prompts[·]?))

def reset (s : PromptHistory) : PromptHistory := { s with currentIndex := none }

/-- A new history that is loaded from the same file. -/
def restart (s : PromptHistory) : PromptHistory where
  prompts := load s.historyFile
  historyFile := s.historyFile

def call (s : PromptHistory) : HistoryCall → PromptHistory
  | .add prompt => s.add prompt
  | .clear => s.clear
  | .restart => s.restart
  | .previous => s.previous.1
  | .nextPrompt => s.nextPrompt.1
  | .reset => s.reset

def run (s : PromptHistory) (calls : List HistoryCall) : PromptHistory := calls.foldl call s

end PromptHistory

/-! ## What is to be remembered -/

/-- The prompts used since the history was last cleared. -/
def usesAfter (uses : List Prompt) : HistoryCall → List Prompt
  | .add prompt => if isBlank prompt then uses else uses ++ [prompt]
  | .clear => []
  | _ => uses

def uses (calls : List HistoryCall) : List Prompt := calls.foldl usesAfter []

/-- No prompt has a line break in it, and none but the last ends in what a line ending starts
with. -/
def Legible (prompts : List Prompt) : Prop :=
  (∀ prompt ∈ prompts, '\n' ∉ prompt) ∧ ∀ prompt ∈ prompts.dropLast, prompt.getLast? ≠ some '\r'

instance (prompts : List Prompt) : Decidable (Legible prompts) :=
  inferInstanceAs (Decidable (_ ∧ _))

/-- At each restart the prompts to be remembered are legible. -/
def LegibleRestarts : List Prompt → List HistoryCall → Prop
  | _,[] => True
  | uses,.restart :: calls =>
    Legible (recent MAX_HISTORY_SIZE uses) ∧ LegibleRestarts uses calls
  | uses,call :: calls => LegibleRestarts (usesAfter uses call) calls

/-- The history is that of the prompts used last. -/
def Remembers (calls : List HistoryCall) : Prop :=
  (PromptHistory.run {} calls).prompts = recent MAX_HISTORY_SIZE (uses calls)

namespace PromptHistory

def InRange (s : PromptHistory) : Prop := ∀ i, s.currentIndex = some i → i < s.prompts.length

/-- A key up and a key down lead back. -/
def Returns (s : PromptHistory) : Prop := s.previous.1.nextPrompt.1.currentIndex = s.currentIndex

/-! ## Navigation -/

theorem inRange_of_none {s : PromptHistory} (h : s.currentIndex = none) : s.InRange := by
  intro i hi
  rw [h] at hi
  cases hi

theorem inRange_previous {s : PromptHistory} (h : s.InRange) : s.previous.1.InRange := by
  unfold previous
  split
  · exact h
  · rename_i hne
    have hpos : 0 < s.prompts.length := by
      rw [List.isEmpty_iff] at hne
      exact List.length_pos_of_ne_nil hne
    intro i hi
    obtain rfl := Option.some.inj hi
    cases hindex : s.currentIndex with
    | none => exact Nat.sub_lt hpos Nat.one_pos
    | some j =>
      have hj := h j hindex
      cases j with
      | zero => exact hpos
      | succ j => exact Nat.lt_of_succ_lt hj

theorem inRange_nextPrompt {s : PromptHistory} (h : s.InRange) : s.nextPrompt.1.InRange := by
  unfold nextPrompt
  split
  · exact h
  · intro i hi
    obtain ⟨j,hj,hnext⟩ := Option.bind_eq_some_iff.mp hi
    split at hnext
    · cases hnext
    · obtain rfl := Option.some.inj hnext
      have hlt := h j hj
      change j + 1 < s.prompts.length
      omega

theorem inRange_call {s : PromptHistory} (h : s.InRange) (c : HistoryCall) :
    (s.call c).InRange := by
  cases c with
  | add prompt =>
    change (s.add prompt).InRange
    unfold add
    split
    · exact h
    · exact inRange_of_none rfl
  | clear => exact inRange_of_none rfl
  | restart => exact inRange_of_none rfl
  | previous => exact inRange_previous h
  | nextPrompt => exact inRange_nextPrompt h
  | reset => exact inRange_of_none rfl

theorem inRange_run {s : PromptHistory} (h : s.InRange) (calls : List HistoryCall) :
    (s.run calls).InRange := by
  induction calls generalizing s with
  | nil => exact h
  | cons c calls ih => exact ih (inRange_call h c)

/-- Only at the oldest entry does the key down not lead back. -/
theorem returns_of_inRange {s : PromptHistory} (h : s.InRange) (holdest : s.currentIndex ≠ some 0) :
    s.Returns := by
  unfold Returns previous
  split
  · rename_i hempty
    unfold nextPrompt
    rw [if_pos hempty]
  · rename_i hne
    unfold nextPrompt
    dsimp only
    rw [if_neg hne,Option.bind_some]
    cases hindex : s.currentIndex with
    | none => exact if_pos (Nat.le_refl _)
    | some i =>
      have hi := h i hindex
      cases i with
      | zero => exact absurd hindex holdest
      | succ i => exact if_neg (by dsimp only; omega)

theorem stays_of_inRange {s : PromptHistory} (h : s.InRange) (holdest : s.currentIndex = some 0) :
    s.previous.1.currentIndex = some 0 := by
  have hpos := h 0 holdest
  have hne : s.prompts.isEmpty = false := by
    rw [List.isEmpty_eq_false_iff]
    exact List.ne_nil_of_length_pos hpos
  unfold previous
  rw [hne,if_neg Bool.false_ne_true,holdest]

/-! ## The file -/

theorem linesOf_joinLines {prompts : List Prompt} (h : Legible prompts)
    (hne : ∀ prompt ∈ prompts, prompt ≠ []) : linesOf (joinLines prompts) = prompts := by
  induction prompts with
  | nil => rfl
  | cons prompt prompts ih =>
    obtain ⟨hfeed,hreturn⟩ := h
    have hfirst := hfeed prompt List.mem_cons_self
    cases prompts with
    | nil =>
      have hjoin : joinLines [prompt] = prompt := List.intercalate_singleton
      rw [hjoin,linesOf,splitInclusive_line hfirst (hne prompt List.mem_cons_self),List.map_cons,
        stripLineEnd_line hfirst]
      rfl
    | cons next prompts =>
      have hrest : Legible (next :: prompts) :=
        ⟨fun p hp => hfeed p (List.mem_cons_of_mem _ hp),
          fun p hp => hreturn p (List.mem_cons_of_mem _ hp)⟩
      have hlines := ih hrest (fun p hp => hne p (List.mem_cons_of_mem _ hp))
      rw [linesOf] at hlines
      rw [joinLines_cons prompt (List.cons_ne_nil next prompts),linesOf,
        splitInclusive_append hfirst,List.map_cons,hlines,stripLineEnd_append,
        if_neg (hreturn prompt List.mem_cons_self)]

theorem load_joinLines {prompts : List Prompt} (h : Legible prompts)
    (hblank : ∀ prompt ∈ prompts, isBlank prompt = false)
    (hlength : prompts.length ≤ MAX_HISTORY_SIZE) :
    load (some (joinLines prompts)) = prompts := by
  have hne : ∀ prompt ∈ prompts, prompt ≠ [] := by
    rintro prompt hprompt rfl
    cases hblank [] hprompt
  have hfilter : prompts.filter (fun line => !isBlank line) = prompts :=
    List.filter_eq_self.mpr fun prompt hprompt => by rw [hblank prompt hprompt]; rfl
  unfold load
  dsimp only
  rw [linesOf_joinLines h hne,hfilter,if_neg (Nat.not_lt.mpr hlength)]

/-! ## What is remembered -/

/-- The history is what is to be remembered of the uses, and the file says the same. -/
structure Holds (uses : List Prompt) (s : PromptHistory) : Prop where
  prompts : s.prompts = recent MAX_HISTORY_SIZE uses
  file : s.historyFile = none ∧ s.prompts = [] ∨ s.historyFile = some (joinLines s.prompts)
  notBlank : ∀ prompt ∈ uses, isBlank prompt = false

theorem tail_eq_rtake {prompts : List Prompt} {n : ℕ} (h : prompts.length ≤ n + 1) :
    (if prompts.length > n then prompts.tail else prompts) = prompts.rtake n := by
  split
  · have hone : prompts.length - n = 1 := by omega
    rw [List.rtake,hone,List.drop_one]
  · exact (rtake_of_length_le (by omega)).symm

theorem holds_add {uses : List Prompt} {s : PromptHistory} (h : Holds uses s) (prompt : Prompt) :
    Holds (usesAfter uses (.add prompt)) (s.add prompt) := by
  by_cases hblank : isBlank prompt = true
  · rw [usesAfter,add,if_pos hblank,if_pos hblank]
    exact h
  · rw [usesAfter,add,if_neg hblank,if_neg hblank]
    have hlength : (s.prompts.filter (· ≠ prompt) ++ [prompt]).length ≤ MAX_HISTORY_SIZE + 1 := by
      have hfilter := List.length_filter_le (· ≠ prompt) s.prompts
      have hrecent := length_recent_le MAX_HISTORY_SIZE uses
      rw [← h.prompts] at hrecent
      rw [List.length_append,List.length_singleton]
      omega
    refine ⟨?_,.inr rfl,fun p hp => ?_⟩
    · dsimp only [save]
      rw [tail_eq_rtake hlength,h.prompts,recent_concat]
    · rcases List.mem_append.mp hp with hp | hp
      · exact h.notBlank p hp
      · rw [List.mem_singleton.mp hp]
        exact eq_false_of_ne_true hblank

theorem holds_restart {uses : List Prompt} {s : PromptHistory} (h : Holds uses s)
    (hlegible : Legible (recent MAX_HISTORY_SIZE uses)) : Holds uses s.restart := by
  have hload : load s.historyFile = s.prompts := by
    rcases h.file with ⟨hnone,hempty⟩ | hfile
    · rw [hnone,hempty]
      rfl
    · rw [hfile]
      apply load_joinLines
      · rw [h.prompts]
        exact hlegible
      · intro prompt hprompt
        rw [h.prompts] at hprompt
        exact h.notBlank prompt (mem_of_recent hprompt)
      · rw [h.prompts]
        exact length_recent_le _ _
  refine ⟨hload.trans h.prompts,?_,h.notBlank⟩
  unfold restart
  rw [hload]
  exact h.file

theorem holds_moved {uses : List Prompt} {s t : PromptHistory} (h : Holds uses s)
    (hprompts : t.prompts = s.prompts) (hfile : t.historyFile = s.historyFile) : Holds uses t := by
  refine ⟨hprompts.trans h.prompts,?_,h.notBlank⟩
  rw [hprompts,hfile]
  exact h.file

theorem previous_prompts (s : PromptHistory) :
    s.previous.1.prompts = s.prompts ∧ s.previous.1.historyFile = s.historyFile := by
  unfold previous
  split <;> exact ⟨rfl,rfl⟩

theorem nextPrompt_prompts (s : PromptHistory) :
    s.nextPrompt.1.prompts = s.prompts ∧ s.nextPrompt.1.historyFile = s.historyFile := by
  unfold nextPrompt
  split <;> exact ⟨rfl,rfl⟩

theorem holds_run {uses : List Prompt} {s : PromptHistory} (h : Holds uses s)
    (calls : List HistoryCall) (hlegible : LegibleRestarts uses calls) :
    Holds (calls.foldl usesAfter uses) (s.run calls) := by
  induction calls generalizing uses s with
  | nil => exact h
  | cons c calls ih =>
    cases c with
    | add prompt => exact ih (holds_add h prompt) hlegible
    | clear =>
      refine ih ⟨(recent_nil MAX_HISTORY_SIZE).symm,.inr rfl,?_⟩ hlegible
      rintro prompt ⟨⟩
    | restart => exact ih (holds_restart h hlegible.1) hlegible.2
    | previous =>
      obtain ⟨hprompts,hfile⟩ := previous_prompts s
      exact ih (holds_moved h hprompts hfile) hlegible
    | nextPrompt =>
      obtain ⟨hprompts,hfile⟩ := nextPrompt_prompts s
      exact ih (holds_moved h hprompts hfile) hlegible
    | reset => exact ih (holds_moved h rfl rfl) hlegible

end PromptHistory

/-- The history is that of the prompts used last as long as no restart reads one of several lines,
the index is in range, and a key up and a key down lead back except at the oldest entry, where the
key up stays. -/
theorem promptHistory_run (calls : List HistoryCall) (hlegible : LegibleRestarts [] calls) :
    let s := PromptHistory.run {} calls
    Remembers calls ∧ s.InRange ∧ (s.currentIndex ≠ some 0 → s.Returns) ∧
      (s.currentIndex = some 0 → s.previous.1.currentIndex = some 0) := by
  intro s
  have hinit : PromptHistory.Holds [] {} := by
    refine ⟨(recent_nil MAX_HISTORY_SIZE).symm,.inl ⟨rfl,rfl⟩,?_⟩
    rintro prompt ⟨⟩
  have hrange : s.InRange := PromptHistory.inRange_run (PromptHistory.inRange_of_none rfl) calls
  exact ⟨(PromptHistory.holds_run hinit calls hlegible).prompts,hrange,
    PromptHistory.returns_of_inRange hrange,PromptHistory.stays_of_inRange hrange⟩

theorem promptHistory_run_restarted : Remembers [.add ['a'],.restart,.add ['b','\n','c']] := by
  have hlegible : Legible (recent MAX_HISTORY_SIZE [['a']]) := by decide
  exact (promptHistory_run [.add ['a'],.restart,.add ['b','\n','c']] ⟨hlegible,trivial⟩).1

/-- From the oldest entry the keys lead to the one behind it. -/
theorem oldest_not_returns :
    ¬ (PromptHistory.run {} [.add ['a'],.add ['b'],.previous,.previous]).Returns := by
  unfold PromptHistory.Returns
  decide

end Rullama.Utils
