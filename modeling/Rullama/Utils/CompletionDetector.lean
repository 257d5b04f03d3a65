import Mathlib.Algebra.GroupWithZero.Nat
import Mathlib.Data.List.Nodup
import Mathlib.Data.List.Perm.Basic
import Rullama.Text.Regex
import Rullama.Text.Trim
import Rullama.Text.Utf8
import Rullama.Tools.Json

/-! # Detecting completed tasks

A response of the model is searched for markers of completion, and the text next to each of them
is matched with the descriptions of the active tasks.
-/
namespace Rullama.Utils.Completion

open Rullama.Text
open Rullama.Tools (isWhitespace)

structure Task where
  id : String
  description : List Char

/-- The confidence is in percent. -/
structure CompletionMatch where
  taskId : String
  confidence : ℕ
  pattern : String
  summary : Option (List Char)
  deriving DecidableEq

/-! ## Patterns -/

def isDot (c : Char) : Bool := c ≠ '\n'

/-- The letters that a small letter stands for where case is ignored. -/
def anyCase (c d : Char) : Bool :=
  d = c || d = c.toUpper || (c = 's' && d = 'ſ') || (c = 'k' && d = '\u212a')

def exactly (c d : Char) : Bool := d = c

def word (letter : Char → Char → Bool) (text : String) : Regex Char :=
  text.toList.foldr (fun c r => .seq (.letter (letter c)) r) .empty

def text (lo hi : ℕ) : Regex Char := .capture (.many isDot lo (some hi))

def spaces (lo : ℕ) : Regex Char := .many isWhitespace lo none

def concat : List (Regex Char) → Regex Char := List.foldr .seq .empty

/-- `[✓✅☑]\s*(.{10,100})` -/
def checkmarkRe : Regex Char :=
  concat [.letter (fun c => c ∈ ['✓','✅','☑']),spaces 0,text 10 100]

def doneWords (letter : Char → Char → Bool) (done complete completed : String) : Regex Char :=
  concat [.letter (exactly '['),
    .alt (word letter done) (.alt (word letter complete) (word letter completed)),
    .letter (exactly ']')]

/-- `(?i)\[(DONE|COMPLETE|COMPLETED)\][\s:]*(.{0,100})` -/
def markerRe : Regex Char :=
  concat [doneWords anyCase "done" "complete" "completed",
    .many (fun c => isWhitespace c || c = ':') 0 none,text 0 100]

/-- `(.{10,100})\s*\[(DONE|COMPLETE|COMPLETED)\]` -/
def reverseRe : Regex Char :=
  concat [text 10 100,spaces 0,doneWords exactly "DONE" "COMPLETE" "COMPLETED"]

/-- `(?i)completed\s+(step|task)\s*#?(\d+)` -/
def stepRe (isDecimal : Char → Bool) : Regex Char :=
  concat [word anyCase "completed",spaces 1,.alt (word anyCase "step") (word anyCase "task"),
    spaces 0,.many (exactly '#') 0 (some 1),.capture (.many isDecimal 1 none)]

/-- `(?i)completed[:.]?\s+(?:the\s+)?(.{5,80})` -/
def completedRe : Regex Char :=
  concat [word anyCase "completed",.many (fun c => c = ':' || c = '.') 0 (some 1),spaces 1,
    .alt (concat [word anyCase "the",spaces 1]) .empty,text 5 80]

/-- `(.{5,60})\s+is\s+now\s+complete`, `(.{5,60})\s+has\s+been\s+completed`,
`finished\s+(.{5,60})` and `done\s+with\s+(.{5,60})`, all with `(?i)` -/
def sentenceRes : List (Regex Char) :=
  [concat [text 5 60,spaces 1,word anyCase "is",spaces 1,word anyCase "now",spaces 1,
      word anyCase "complete"],
    concat [text 5 60,spaces 1,word anyCase "has",spaces 1,word anyCase "been",spaces 1,
      word anyCase "completed"],
    concat [word anyCase "finished",spaces 1,text 5 60],
    concat [word anyCase "done",spaces 1,word anyCase "with",spaces 1,text 5 60]]

/-! ## Texts and tasks -/

/-- `split_whitespace`, where the words have more than two bytes -/
def significantWords (text : List Char) : List (List Char) :=
  ((text.splitOnP isWhitespace).filter (fun w => !w.isEmpty)).filter (fun w => byteLength w > 2)

/-- `to_lowercase` -/
abbrev Lowercase := List Char → List Char

variable (lowercase : Lowercase)

/-- The ratio of matching words in single precision is above one half where they are three or more
or more than half of all. -/
def textMatchesTask (text : List Char) (task : Task) : Bool :=
  let taskDesc := lowercase task.description
  let textLower := lowercase text
  if taskDesc <:+: textLower ∨ textLower <:+: taskDesc then true
  else
    let taskWords := significantWords taskDesc
    let textWords := significantWords textLower
    let matchingWords := (taskWords.filter (fun w => w ∈ textWords)).length
    if taskWords.isEmpty then false
    else if taskWords.length ≤ 2 then matchingWords = taskWords.length
    else 2 * matchingWords > taskWords.length || matchingWords ≥ 3

def trim (text : List Char) : List Char := trimmed isWhitespace text

def number (digits : List Char) : ℕ :=
  digits.foldl (fun n c => 10 * n + (c.toNat - '0'.toNat)) 0

/-- `str::parse::<usize>` of digits -/
def parseUsize (digits : List Char) : Option ℕ :=
  if digits.all Char.isDigit && number digits < 2 ^ 64 then some (number digits) else none

/-! ## Detection -/

variable (isDecimal : Char → Bool) (response : List Char) (tasks : List Task)

/-- The match of the first task that a text matches, among those that are not passed over. -/
def firstMatch (confidence : ℕ) (pattern : String) (passed : Task → Bool) (text : List Char) :
    Option CompletionMatch :=
  (tasks.find? (fun task => textMatchesTask lowercase (lowercase text) task && !passed task)).map
    (fun task => ⟨task.id,confidence,pattern,some (trim text)⟩)

/-- Each text adds the first task that has no match yet. -/
def addNew (confidence : ℕ) (pattern : String) (matches' : List CompletionMatch)
    (text : List Char) : List CompletionMatch :=
  matches' ++ (firstMatch lowercase tasks confidence pattern
    (fun task => matches'.any (fun m => m.taskId == task.id)) text).toList

def detectCheckmarkCompletions : List CompletionMatch :=
  (checkmarkRe.captures response).filterMap
    (firstMatch lowercase tasks 90 "checkmark" (fun _ => false))

def detectMarkerCompletions : List CompletionMatch :=
  (reverseRe.captures response).foldl (addNew lowercase tasks 95 "marker")
    ((markerRe.captures response).filterMap (firstMatch lowercase tasks 95 "marker"
      (fun _ => false)))

def stepMatch (digits : List Char) : Option CompletionMatch := do
  let stepNum ← parseUsize digits
  if stepNum > 0 then
    let task ← tasks[stepNum - 1]?
    some ⟨task.id,85,"step_number",
      some ("Step ".toList ++ (toString stepNum).toList ++ " completed".toList)⟩
  else none

def detectExplicitCompletions : List CompletionMatch :=
  (completedRe.captures response).foldl (addNew lowercase tasks 80 "explicit")
    (((stepRe isDecimal).captures response).filterMap (stepMatch tasks))

def detectSentenceCompletions : List CompletionMatch :=
  sentenceRes.foldl (fun found re =>
    (re.captures response).foldl (addNew lowercase tasks 75 "sentence") found) []

def allMatches : List CompletionMatch :=
  detectCheckmarkCompletions lowercase response tasks ++
    detectMarkerCompletions lowercase response tasks ++
    detectExplicitCompletions lowercase isDecimal response tasks ++
    detectSentenceCompletions lowercase response tasks

/-- The best match of each task, in some order. -/
def insertBest (best : List CompletionMatch) (m : CompletionMatch) : List CompletionMatch :=
  if best.any (fun entry => entry.taskId == m.taskId) then
    best.map (fun entry =>
      if entry.taskId = m.taskId ∧ m.confidence > entry.confidence then m else entry)
  else best ++ [m]

def deduplicateMatches (found : List CompletionMatch) : List CompletionMatch :=
  found.foldl insertBest []

def detectCompletedTasks : List CompletionMatch :=
  if tasks.isEmpty then []
  else deduplicateMatches (allMatches lowercase isDecimal response tasks)

/-! ## What a report is worth -/

/-- The expressions whose group is the text next to a marker. -/
def textRes : List (Regex Char) := [checkmarkRe,markerRe,reverseRe,completedRe] ++ sentenceRes

/-- All words that matter of a description of one or two, or more than half or three of them. -/
def SharesWords (text description : List Char) : Prop :=
  let taskWords := significantWords description
  let shared := taskWords.filter (fun w => w ∈ significantWords text)
  taskWords ≠ [] ∧ if taskWords.length ≤ 2 then shared.length = taskWords.length
    else taskWords.length < 2 * shared.length ∨ 3 ≤ shared.length

/-- A text mentions a task where it contains its description, is a part of it and not empty, or
shares its words. -/
def Mentions (text : List Char) (task : Task) : Prop :=
  lowercase task.description <:+: lowercase (lowercase text) ∨
    (text ≠ [] ∧ lowercase (lowercase text) <:+: lowercase task.description) ∨
    SharesWords (lowercase (lowercase text)) (lowercase task.description)

/-- The text next to a marker mentions the task, or a phrase names its position. -/
def Signalled (i : ℕ) (task : Task) : Prop :=
  (∃ re ∈ textRes, ∃ text ∈ re.captures response, Mentions lowercase text task) ∨
    ∃ digits ∈ (stepRe isDecimal).captures response, parseUsize digits = some (i + 1)

structure Conservative (reported : List CompletionMatch) : Prop where
  once : (reported.map CompletionMatch.taskId).Nodup
  best : ∀ m ∈ reported, m ∈ allMatches lowercase isDecimal response tasks ∧
    ∀ m' ∈ allMatches lowercase isDecimal response tasks, m'.taskId = m.taskId →
      m'.confidence ≤ m.confidence
  signalled : ∀ m ∈ reported, ∃ i task, tasks[i]? = some task ∧ task.id = m.taskId ∧
    Signalled lowercase isDecimal response i task
  bare : [] ∈ markerRe.captures response →
    firstMatch lowercase tasks 95 "marker" (fun _ => false) [] = none

/-! ## Deduplication -/

section Deduplication

variable {best found : List CompletionMatch} {m : CompletionMatch}

theorem map_taskId_insertBest : (insertBest best m).map CompletionMatch.taskId =
    if best.any (fun entry => entry.taskId == m.taskId) then best.map CompletionMatch.taskId
    else best.map CompletionMatch.taskId ++ [m.taskId] := by
  rw [insertBest]
  split
  · rw [List.map_map]
    refine List.map_congr_left fun entry _ => ?_
    rw [Function.comp_apply]
    split
    · rename_i h
      exact h.1.symm
    · rfl
  · rw [List.map_append]
    rfl

theorem nodup_insertBest (h : (best.map CompletionMatch.taskId).Nodup) :
    ((insertBest best m).map CompletionMatch.taskId).Nodup := by
  rw [map_taskId_insertBest]
  split
  · exact h
  · rename_i hnew
    refine List.nodup_append.mpr ⟨h,List.nodup_singleton _,?_⟩
    rintro id hid id' hid' rfl
    obtain ⟨entry,hentry,rfl⟩ := List.mem_map.mp hid
    refine hnew (List.any_eq_true.mpr ⟨entry,hentry,?_⟩)
    rw [List.mem_singleton.mp hid',beq_self_eq_true]

/-- An entry is one of the matches, and no match of its task is better. -/
def IsBest (found : List CompletionMatch) (entry : CompletionMatch) : Prop :=
  entry ∈ found ∧ ∀ m' ∈ found, m'.taskId = entry.taskId → m'.confidence ≤ entry.confidence

/-- The entries for the matches that were seen. -/
structure Deduplicated (found best : List CompletionMatch) : Prop where
  nodup : (best.map CompletionMatch.taskId).Nodup
  isBest : ∀ entry ∈ best, IsBest found entry
  covers : ∀ m ∈ found, ∃ entry ∈ best, entry.taskId = m.taskId

theorem IsBest.concat {entry : CompletionMatch} (h : IsBest found entry)
    (hm : m.taskId = entry.taskId → m.confidence ≤ entry.confidence) :
    IsBest (found ++ [m]) entry := by
  refine ⟨List.mem_append_left _ h.1,fun m' hm' hid => ?_⟩
  rcases List.mem_append.mp hm' with hm' | hm'
  · exact h.2 m' hm' hid
  · rw [List.mem_singleton.mp hm'] at hid ⊢
    exact hm hid

theorem isBest_concat (h : ∀ m' ∈ found, m'.taskId = m.taskId → m'.confidence ≤ m.confidence) :
    IsBest (found ++ [m]) m := by
  refine ⟨List.mem_append_right _ (List.mem_singleton_self m),fun m' hm' hid => ?_⟩
  rcases List.mem_append.mp hm' with hm' | hm'
  · exact h m' hm' hid
  · rw [List.mem_singleton.mp hm']

theorem Deduplicated.isBest_insertBest (h : Deduplicated found best) :
    ∀ entry ∈ insertBest best m, IsBest (found ++ [m]) entry := by
  intro entry hentry
  rw [insertBest] at hentry
  split at hentry
  · obtain ⟨old,hold,rfl⟩ := List.mem_map.mp hentry
    have hbest := h.isBest old hold
    split
    · rename_i hbetter
      refine isBest_concat fun m' hm' hid => ?_
      exact (hbest.2 m' hm' (hid.trans hbetter.1.symm)).trans hbetter.2.le
    · rename_i hworse
      exact hbest.concat fun hid => Nat.not_lt.mp fun hlt => hworse ⟨hid.symm,hlt⟩
  · rename_i hnew
    have hother (old : CompletionMatch) (hold : old ∈ best) : old.taskId ≠ m.taskId := by
      intro hid
      refine hnew (List.any_eq_true.mpr ⟨old,hold,?_⟩)
      rw [hid,beq_self_eq_true]
    rcases List.mem_append.mp hentry with hentry | hentry
    · exact (h.isBest entry hentry).concat fun hid => absurd hid.symm (hother entry hentry)
    · rw [List.mem_singleton.mp hentry]
      refine isBest_concat fun m' hm' hid => ?_
      obtain ⟨old,hold,hsame⟩ := h.covers m' hm'
      exact absurd (hsame.trans hid) (hother old hold)

theorem Deduplicated.covers_insertBest (h : Deduplicated found best) :
    ∀ m' ∈ found ++ [m], ∃ entry ∈ insertBest best m, entry.taskId = m'.taskId := by
  intro m' hm'
  have hids : m'.taskId ∈ (insertBest best m).map CompletionMatch.taskId := by
    rw [map_taskId_insertBest]
    rcases List.mem_append.mp hm' with hm' | hm'
    · obtain ⟨entry,hentry,hsame⟩ := h.covers m' hm'
      have hmem : m'.taskId ∈ best.map CompletionMatch.taskId :=
        List.mem_map.mpr ⟨entry,hentry,hsame⟩
      split
      · exact hmem
      · exact List.mem_append_left _ hmem
    · rw [List.mem_singleton.mp hm']
      split
      · rename_i hold
        obtain ⟨entry,hentry,hsame⟩ := List.any_eq_true.mp hold
        exact List.mem_map.mpr ⟨entry,hentry,eq_of_beq hsame⟩
      · exact List.mem_append_right _ (List.mem_singleton_self _)
  obtain ⟨entry,hentry,hsame⟩ := List.mem_map.mp hids
  exact ⟨entry,hentry,hsame⟩

theorem deduplicated (found : List CompletionMatch) :
    Deduplicated found (deduplicateMatches found) := by
  induction found using List.reverseRecOn with
  | nil => exact ⟨List.nodup_nil,List.forall_mem_nil _,List.forall_mem_nil _⟩
  | append_singleton found m ih =>
    rw [deduplicateMatches,List.foldl_concat]
    exact ⟨nodup_insertBest ih.nodup,ih.isBest_insertBest,ih.covers_insertBest⟩

end Deduplication

/-! ## Where matches come from -/

section Origins

variable {lowercase isDecimal response tasks} {m : CompletionMatch} {text : List Char}
  {task : Task} {confidence : ℕ} {pattern : String} {passed : Task → Bool}

/-- A match of a task that a text next to a marker mentions, or whose position a phrase names. -/
def Founded (lowercase : Lowercase) (isDecimal : Char → Bool) (response : List Char)
    (tasks : List Task) (m : CompletionMatch) : Prop :=
  ∃ i task, tasks[i]? = some task ∧ task.id = m.taskId ∧
    Signalled lowercase isDecimal response i task

theorem mentions_of_matches (hne : text ≠ [])
    (h : textMatchesTask lowercase (lowercase text) task = true) : Mentions lowercase text task := by
  rw [textMatchesTask] at h
  simp only at h
  split at h
  · rename_i hsub
    exact hsub.imp_right fun hpart => .inl ⟨hne,hpart⟩
  · refine .inr (.inr ?_)
    split at h
    · cases h
    · rename_i hwords
      refine ⟨fun hnil => hwords (List.isEmpty_iff.mpr hnil),?_⟩
      split at h
      · rename_i hfew
        rw [if_pos hfew]
        exact of_decide_eq_true h
      · rename_i hmany
        rw [if_neg hmany]
        rw [Bool.or_eq_true,decide_eq_true_iff,decide_eq_true_iff] at h
        exact h

theorem founded_of_firstMatch {re : Regex Char} (hre : re ∈ textRes)
    (htext : text ∈ re.captures response) (hne : text ≠ [])
    (h : firstMatch lowercase tasks confidence pattern passed text = some m) :
    Founded lowercase isDecimal response tasks m := by
  obtain ⟨task,htask,rfl⟩ := Option.map_eq_some_iff.mp h
  have hmatches := List.find?_some htask
  obtain ⟨i,hi⟩ := List.mem_iff_getElem?.mp (List.mem_of_find?_eq_some htask)
  rw [Bool.and_eq_true] at hmatches
  exact ⟨i,task,hi,rfl,.inl ⟨re,hre,text,htext,mentions_of_matches hne hmatches.1⟩⟩

theorem founded_of_stepMatch {digits : List Char}
    (hdigits : digits ∈ (stepRe isDecimal).captures response) (h : stepMatch tasks digits = some m) :
    Founded lowercase isDecimal response tasks m := by
  rw [stepMatch] at h
  obtain ⟨stepNum,hnum,h⟩ := Option.bind_eq_some_iff.mp h
  split at h
  · rename_i hpos
    obtain ⟨task,htask,heq⟩ := Option.bind_eq_some_iff.mp h
    cases heq
    refine ⟨stepNum - 1,task,htask,rfl,.inr ⟨digits,hdigits,?_⟩⟩
    rw [hnum,Nat.sub_add_cancel hpos]
  · cases h

theorem founded_of_filterMap {re : Regex Char} (hre : re ∈ textRes)
    (hne : ∀ text ∈ re.captures response, text ≠ [])
    (h : m ∈ (re.captures response).filterMap (firstMatch lowercase tasks confidence pattern passed)) :
    Founded lowercase isDecimal response tasks m := by
  obtain ⟨text,htext,hm⟩ := List.mem_filterMap.mp h
  exact founded_of_firstMatch hre htext (hne text htext) hm

theorem founded_of_foldl {re : Regex Char} (hre : re ∈ textRes) {texts : List (List Char)}
    (htexts : ∀ text ∈ texts, text ∈ re.captures response ∧ text ≠ [])
    {found : List CompletionMatch}
    (hfound : ∀ m ∈ found, Founded lowercase isDecimal response tasks m) :
    ∀ m ∈ texts.foldl (addNew lowercase tasks confidence pattern) found,
      Founded lowercase isDecimal response tasks m := by
  induction texts generalizing found with
  | nil => exact hfound
  | cons text texts ih =>
    refine ih (fun t ht => htexts t (List.mem_cons_of_mem _ ht)) fun m hm => ?_
    obtain ⟨htext,hne⟩ := htexts text List.mem_cons_self
    rcases List.mem_append.mp hm with hm | hm
    · exact hfound m hm
    · exact founded_of_firstMatch hre htext hne (Option.mem_toList.mp hm)

theorem ne_nil_of_captures {re : Regex Char} (hre : re.capturesAtLeast 5 = true)
    (h : text ∈ re.captures response) : text ≠ [] := by
  have hlength := Regex.length_of_mem_captures hre h
  rintro rfl
  exact absurd hlength (by decide)

theorem captures_of_re {re : Regex Char} (hre : re.capturesAtLeast 5 = true) :
    ∀ text ∈ re.captures response, text ∈ re.captures response ∧ text ≠ [] :=
  fun _ h => ⟨h,ne_nil_of_captures hre h⟩

theorem founded_checkmark (h : m ∈ detectCheckmarkCompletions lowercase response tasks) :
    Founded lowercase isDecimal response tasks m :=
  founded_of_filterMap (by simp [textRes]) (fun _ => ne_nil_of_captures (by decide)) h

theorem founded_marker (hbare : [] ∉ markerRe.captures response)
    (h : m ∈ detectMarkerCompletions lowercase response tasks) :
    Founded lowercase isDecimal response tasks m := by
  have hre : reverseRe ∈ textRes := by simp [textRes]
  refine founded_of_foldl hre (captures_of_re (by decide)) ?_ m h
  intro m hm
  exact founded_of_filterMap (by simp [textRes]) (fun text htext hnil => hbare (hnil ▸ htext)) hm

theorem founded_explicit (h : m ∈ detectExplicitCompletions lowercase isDecimal response tasks) :
    Founded lowercase isDecimal response tasks m := by
  have hre : completedRe ∈ textRes := by simp [textRes]
  refine founded_of_foldl hre (captures_of_re (by decide)) ?_ m h
  intro m hm
  obtain ⟨digits,hdigits,hm⟩ := List.mem_filterMap.mp hm
  exact founded_of_stepMatch hdigits hm

theorem founded_sentence {res : List (Regex Char)}
    (hres : ∀ re ∈ res, re ∈ textRes ∧ re.capturesAtLeast 5 = true) {found : List CompletionMatch}
    (hfound : ∀ m ∈ found, Founded lowercase isDecimal response tasks m) :
    ∀ m ∈ res.foldl (fun found re =>
      (re.captures response).foldl (addNew lowercase tasks 75 "sentence") found) found,
      Founded lowercase isDecimal response tasks m := by
  induction res generalizing found with
  | nil => exact hfound
  | cons re res ih =>
    obtain ⟨hre,hleast⟩ := hres re List.mem_cons_self
    refine ih (fun r hr => hres r (List.mem_cons_of_mem _ hr)) ?_
    exact founded_of_foldl hre (captures_of_re hleast) hfound

theorem founded (hbare : [] ∉ markerRe.captures response)
    (h : m ∈ allMatches lowercase isDecimal response tasks) :
    Founded lowercase isDecimal response tasks m := by
  have hsentences : ∀ re ∈ sentenceRes, re ∈ textRes ∧ re.capturesAtLeast 5 = true := by
    intro re hre
    refine ⟨List.mem_append_right _ hre,?_⟩
    have hall : sentenceRes.all (Regex.capturesAtLeast 5) = true := by decide
    exact List.all_eq_true.mp hall re hre
  rw [allMatches,List.mem_append,List.mem_append,List.mem_append] at h
  rcases h with ((h | h) | h) | h
  · exact founded_checkmark h
  · exact founded_marker hbare h
  · exact founded_explicit h
  · exact founded_sentence hsentences (List.forall_mem_nil _) m h

end Origins

/-- An empty text is a part of every description. -/
theorem firstMatch_nil (hlower : lowercase [] = []) (task : Task) :
    (firstMatch lowercase (task :: tasks) 95 "marker" (fun _ => false) []).isSome = true := by
  have hmatches : textMatchesTask lowercase (lowercase []) task = true := by
    rw [textMatchesTask,hlower,hlower]
    exact if_pos (.inr (List.nil_infix))
  rw [firstMatch,List.find?_cons_of_pos]
  · rfl
  · rw [hmatches]
    rfl

/-- Detection is conservative, in whatever order it reports, exactly where no marker stands without
a text behind it, or there is no task. -/
theorem conservative_iff (lowercase : Lowercase) (hlower : lowercase [] = [])
    (isDecimal : Char → Bool) (response : List Char) (tasks : List Task) :
    (∀ reported : List CompletionMatch,
      reported.Perm (detectCompletedTasks lowercase isDecimal response tasks) →
        Conservative lowercase isDecimal response tasks reported) ↔
      tasks = [] ∨ [] ∉ markerRe.captures response := by
  constructor
  · intro h
    cases tasks with
    | nil => exact .inl rfl
    | cons task tasks =>
      refine .inr fun hbare => ?_
      have hnone := (h _ (List.Perm.refl _)).bare hbare
      have hsome := firstMatch_nil lowercase tasks hlower task
      rw [hnone] at hsome
      cases hsome
  · intro h reported hperm
    rw [detectCompletedTasks] at hperm
    split at hperm
    · rename_i hempty
      have hnil := List.isEmpty_iff.mp hempty
      rw [List.perm_nil.mp hperm,hnil]
      exact ⟨List.nodup_nil,List.forall_mem_nil _,List.forall_mem_nil _,fun _ => rfl⟩
    · rename_i hsome
      have hbare := h.resolve_left fun hnil => hsome (List.isEmpty_iff.mpr hnil)
      have hdedup := deduplicated (allMatches lowercase isDecimal response tasks)
      refine ⟨(hperm.map _).nodup_iff.mpr hdedup.nodup,fun m hm => ?_,fun m hm => ?_,fun hin => ?_⟩
      · exact hdedup.isBest m (hperm.mem_iff.mp hm)
      · exact founded hbare (hdedup.isBest m (hperm.mem_iff.mp hm)).1
      · exact absurd hin hbare

def createApi : Task := ⟨"task-0","Create API endpoints".toList⟩
def setupDatabase : Task := ⟨"task-1","Setup database".toList⟩

/-- A marker with a description behind it reports that task and no other one. -/
theorem conservative_of_named :
    (∀ reported : List CompletionMatch,
      reported.Perm (detectCompletedTasks (List.map Char.toLower) Char.isDigit
        "[DONE] Setup database".toList [createApi,setupDatabase]) →
        Conservative (List.map Char.toLower) Char.isDigit "[DONE] Setup database".toList
          [createApi,setupDatabase] reported) ∧
      (detectCompletedTasks (List.map Char.toLower) Char.isDigit
        "[DONE] Setup database".toList [createApi,setupDatabase]).map CompletionMatch.taskId =
        ["task-1"] := by
  have hnamed : [] ∉ markerRe.captures "[DONE] Setup database".toList := by decide +kernel
  refine ⟨?_,by decide +kernel⟩
  exact (conservative_iff (List.map Char.toLower) rfl Char.isDigit _ _).mpr (.inr hnamed)

/-- The marker behind the name of the second task has no text behind it, and the first task, which
nothing mentions, is reported besides. -/
theorem bare_marker_completes :
    (detectCompletedTasks (List.map Char.toLower) Char.isDigit
      "Setup database [DONE]".toList [createApi,setupDatabase]).map
        (fun m => (m.taskId,m.confidence)) = [("task-0",95),("task-1",95)] ∧
      ¬ ∀ reported : List CompletionMatch,
        reported.Perm (detectCompletedTasks (List.map Char.toLower) Char.isDigit
          "Setup database [DONE]".toList [createApi,setupDatabase]) →
          Conservative (List.map Char.toLower) Char.isDigit "Setup database [DONE]".toList
            [createApi,setupDatabase] reported := by
  refine ⟨by decide +kernel,fun h => ?_⟩
  have hbare : [] ∈ markerRe.captures "Setup database [DONE]".toList := by decide +kernel
  have hnone := (h _ (List.Perm.refl _)).bare hbare
  revert hnone
  decide +kernel

end Rullama.Utils.Completion
