import Rullama.Numbers.Extended
import Rullama.Numbers.Rounding
import Rullama.Utils.Conversation

/-! # Retrieval gating

Whether earlier context is searched for depends on a compaction summary in the history, on the
configuration and on what the query looks like. The scores are of single precision. Lower case is
a parameter.
-/
namespace Rullama.Utils

open Rullama.Conversation Rullama.Numbers
open Rullama.Tools (contains isWhitespace)

/-- Patterns that suggest the user is referring to earlier context. -/
def referencePatterns : List String :=
  ["earlier","before","we discussed","remember when","what was","didn't we","you mentioned",
    "as i said","previously","last time","originally","initially","you said","i said","we talked",
    "back when","recall","mentioned earlier","as mentioned"]

/-- Question patterns that often need historical context. -/
def questionPatterns : List String :=
  ["what did","when did","why did","how did","where was","who was"]

def pronounPatterns : List String := ["it","they","that","those","the one"]

/-- `split_whitespace` -/
def splitWhitespace (text : String) : List String :=
  ((text.toList.splitOnP isWhitespace).filter (fun word => !word.isEmpty)).map String.ofList

section Gate
variable (toLowercase : String → String)

/-- Whether there is a compaction summary is not looked at. -/
def needsRetrieval (userMessage : String) (recentContextLen : ℕ) (_hasCompactionSummary : Bool) :
    Bool :=
  let lower := toLowercase userMessage
  if referencePatterns.any (contains lower) then true
  else if questionPatterns.any (contains lower) then true
  else if recentContextLen < 5 then true
  else
    recentContextLen < 10 &&
      pronounPatterns.any (fun p => (splitWhitespace lower).any (· == p)) &&
      userMessage.utf8ByteSize < 100 && contains lower "?"

inductive RetrievalNeed where
  | none
  | low
  | medium
  | high
  deriving DecidableEq

def RetrievalNeed.level : RetrievalNeed → ℕ
  | .none => 0
  | .low => 1
  | .medium => 2
  | .high => 3

/-- A number of single precision. -/
def f32 (x : ℚ) : ℚ := roundTo 24 x

/-- The loop over the patterns of one weight. -/
def scorePatterns (lower : String) (weight : ℚ) (patterns : List String) (sofar : ℚ × ℕ) :
    ℚ × ℕ :=
  patterns.foldl (fun (score,found) pattern =>
    if contains lower pattern then (f32 (score + weight),found+1) else (score,found)) sofar

def contextScore (recentContextLen : ℕ) (score : ℚ) : ℚ :=
  if recentContextLen < 3 then f32 (score + f32 (3/10))
  else if recentContextLen < 5 then f32 (score + f32 (2/10))
  else if recentContextLen < 10 then f32 (score + f32 (1/10))
  else score

def needOfScore (score : ℚ) : RetrievalNeed :=
  if f32 (6/10) ≤ score then .high
  else if f32 (35/100) ≤ score then .medium
  else if f32 (15/100) ≤ score then .low
  else .none

/-- The need and a confidence. -/
def classifyRetrievalNeed (userMessage : String) (recentContextLen : ℕ)
    (_hasCompactionSummary : Bool) : RetrievalNeed × ℚ :=
  let lower := toLowercase userMessage
  let (score,found) := scorePatterns lower (f32 (25/100)) questionPatterns
    (scorePatterns lower (f32 (4/10)) referencePatterns (0,0))
  let score := min (contextScore recentContextLen score) 1
  let confidence := if 0 < found then
      f32 (f32 (8/10) + min (f32 (found * f32 (5/100))) (f32 (2/10)))
    else f32 (6/10)
  (needOfScore score,confidence)

end Gate

structure ContextBuilderConfig where
  injectionThreshold : Extended := .fin (f32 (75/100))
  maxInjectItems : ℕ := 3
  useGating : Bool := true
  minRetrievalNeed : RetrievalNeed := .medium
  useResolvedQuery : Bool := true
  injectEntityContext : Bool := true
  qualityAwareThreshold : Bool := true
  enablePersonalKnowledge : Bool := true

variable {Block : Type}

/-- A system message whose text has one of the marks. -/
def isMarked (marks : List String) (message : Message Block) : Bool :=
  message.role = .system &&
    match message.content with
    | .text text => marks.any (contains text)
    | .blocks _ => false

def summaryMarks : List String := ["[Compacted Context]","Summary of earlier conversation"]

def hasCompactionSummary (messages : List (Message Block)) : Bool :=
  messages.any (isMarked summaryMarks)

section Retrieve
variable (toLowercase : String → String)

def shouldRetrieve (config : ContextBuilderConfig) (userQuery : String)
    (messages : List (Message Block)) : Bool :=
  if !hasCompactionSummary messages then false
  else if !config.useGating then true
  else
    let recentCount := messages.length
    let hasCompaction := hasCompactionSummary messages
    if needsRetrieval toLowercase userQuery recentCount hasCompaction then true
    else
      match (classifyRetrievalNeed toLowercase userQuery recentCount hasCompaction).1 with
      | .high => true
      | .medium => config.minRetrievalNeed != .high
      | .low => config.minRetrievalNeed == .low
      | .none => false

/-! ## The two classifiers -/

theorem scorePatterns_of_none {lower : String} {patterns : List String}
    (h : patterns.any (contains lower) = false) (weight : ℚ) (sofar : ℚ × ℕ) :
    scorePatterns lower weight patterns sofar = sofar := by
  unfold scorePatterns
  induction patterns with
  | nil => rfl
  | cons pattern patterns ih =>
    rw [List.any_cons,Bool.or_eq_false_iff] at h
    rw [List.foldl_cons,h.1]
    exact ih h.2

/-- What the simple gate lets pass has no pattern and some context, so it scores too little. -/
theorem classifyRetrievalNeed_of_not_needs {userMessage : String} {recentContextLen : ℕ}
    {hasCompactionSummary : Bool}
    (h : needsRetrieval toLowercase userMessage recentContextLen hasCompactionSummary = false) :
    (classifyRetrievalNeed toLowercase userMessage recentContextLen hasCompactionSummary).1
      = .none := by
  unfold needsRetrieval at h
  dsimp only at h
  split at h
  · cases h
  · rename_i hreference
    split at h
    · cases h
    · rename_i hquestion
      split at h
      · cases h
      · rename_i hlong
        unfold classifyRetrievalNeed
        dsimp only
        rw [scorePatterns_of_none (eq_false_of_ne_true hreference),
          scorePatterns_of_none (eq_false_of_ne_true hquestion)]
        unfold contextScore
        rw [if_neg (by omega),if_neg hlong]
        split
        · decide +kernel
        · decide +kernel

/-- The detailed classification never makes a difference. -/
theorem shouldRetrieve_eq (config : ContextBuilderConfig) (userQuery : String)
    (messages : List (Message Block)) :
    shouldRetrieve toLowercase config userQuery messages =
      (hasCompactionSummary messages && (!config.useGating ||
        needsRetrieval toLowercase userQuery messages.length (hasCompactionSummary messages))) := by
  unfold shouldRetrieve
  cases hsummary : hasCompactionSummary messages with
  | false => rfl
  | true =>
    cases hgating : config.useGating with
    | false => rfl
    | true =>
      cases hneeds : needsRetrieval toLowercase userQuery messages.length true with
      | true =>
        dsimp only
        rw [hneeds]
        rfl
      | false =>
        dsimp only
        rw [classifyRetrievalNeed_of_not_needs toLowercase hneeds,hneeds]
        rfl

/-! ## Configurations compared -/

/-- Neither to disable the gate nor to ask for less need turns a retrieval off, and without the
gate there is always one. -/
structure GatesMonotonely (config : ContextBuilderConfig) (userQuery : String)
    (messages : List (Message Block)) : Prop where
  gatingOff : shouldRetrieve toLowercase config userQuery messages →
    shouldRetrieve toLowercase { config with useGating := false } userQuery messages
  lowerNeed : ∀ need : RetrievalNeed, need.level ≤ config.minRetrievalNeed.level →
    shouldRetrieve toLowercase config userQuery messages →
    shouldRetrieve toLowercase { config with minRetrievalNeed := need } userQuery messages
  always : config.useGating = false → shouldRetrieve toLowercase config userQuery messages

/-- The order of the needs is kept by every configuration, but there is no retrieval without a
summary even where there is no gate. -/
theorem gatesMonotonely_iff (config : ContextBuilderConfig) (userQuery : String)
    (messages : List (Message Block)) :
    GatesMonotonely toLowercase config userQuery messages ↔
      config.useGating = true ∨ hasCompactionSummary messages := by
  constructor
  · intro h
    cases hgating : config.useGating with
    | true => exact .inl rfl
    | false =>
      have halways := h.always hgating
      rw [shouldRetrieve_eq,Bool.and_eq_true] at halways
      exact .inr halways.1
  · intro h
    refine ⟨fun hretrieve => ?_,fun need _ hretrieve => ?_,fun hgating => ?_⟩
    · rw [shouldRetrieve_eq,Bool.and_eq_true] at hretrieve ⊢
      exact ⟨hretrieve.1,rfl⟩
    · rw [shouldRetrieve_eq] at hretrieve ⊢
      exact hretrieve
    · rcases h with h | h
      · rw [h] at hgating
        cases hgating
      · rw [shouldRetrieve_eq,h,hgating]
        rfl

end Retrieve

/-- A task agent that starts retrieves nothing. -/
theorem taskAgent_not_gatesMonotonely :
    ¬ GatesMonotonely id { useGating := false } "what did we decide"
      ([⟨.user,.text "go on"⟩] : List (Message Empty)) := by
  intro h
  have halways := h.always rfl
  revert halways
  decide

end Rullama.Utils
