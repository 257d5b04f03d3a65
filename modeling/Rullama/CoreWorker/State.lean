import Rullama.Cache.Prefix
import Rullama.Router.Core

/-! # State of the inference core worker

The globals of the dedicated worker that own the model, with the wasm `Model` taken as
a cache of fed tokens whose mode is the adapter applied. RPCs are taken one at a time,
as the router sends them: a state is one between two of them. The last two fields are
ghosts, the notifications posted and the conversation snapshots handed out.
-/
namespace Rullama.CoreWorker
open Rullama.Cache Rullama.Router

abbrev Bytes := List UInt8

/-- What one position of the KV cache was computed from: a vocabulary id, or a soft
token (a row of an image or audio embedding) that has none. -/
inductive Token where
  | id (n : ℕ)
  | soft (row : ℕ)
  deriving DecidableEq, Repr

/-- An adapter is known by its weights. -/
abbrev KvCache := PrefixCache Token (Option Bytes)

abbrev KvBytes := List (Token × Option Bytes)

structure ModelFacts where
  vocabSize : ℕ
  hasVision : Bool
  hasAudio : Bool
  imageSentinelIds : Option (ℕ × ℕ)
  audioSentinelIds : Option (ℕ × ℕ)
  deriving DecidableEq, Repr

/-- The wasm `Model` behind a `ModelHandle`. -/
structure Engine where
  modelKey : String
  filename : String
  facts : ModelFacts
  maxContext : ℕ
  cache : KvCache
  deriving DecidableEq, Repr

namespace Engine

def adapter (m : Engine) : Option Bytes := m.cache.mode

def position (m : Engine) : ℕ := m.cache.position

def step (m : Engine) (t : Token) : Engine := { m with cache := m.cache.step t }

def feed (m : Engine) (ts : List Token) : Engine := { m with cache := m.cache.feed ts }

def reset (m : Engine) : Engine := { m with cache := m.cache.reset }

def truncateKv (m : Engine) (n : ℕ) : Engine := { m with cache := m.cache.truncate n }

def saveKvState (m : Engine) : KvBytes := m.cache.entries

def restoreKvState (m : Engine) (bytes : KvBytes) : Engine :=
  { m with cache := m.cache.restore bytes }

def loadAdapter (m : Engine) (bytes : Bytes) : Engine :=
  { m with cache := m.cache.setMode (some bytes) }

def clearAdapter (m : Engine) : Engine := { m with cache := m.cache.setMode none }

/-- Discards the cached content. -/
def shrinkKv (m : Engine) (newMaxContext : ℕ) : Engine :=
  { m with maxContext := newMaxContext, cache := m.cache.reset }

end Engine

/-- What training left in the model it gives back. -/
structure Trained where
  kv : KvBytes
  adapter : Option Bytes
  deriving DecidableEq, Repr

structure SessionFacts where
  parameterCount : ℕ
  gradientCheckpointing : Bool
  mixedPrecision : Bool
  deriving DecidableEq, Repr

/-- A `TrainingSession` consumes the model it is built from. -/
structure TrainingSession where
  engine : Engine
  facts : SessionFacts
  deriving DecidableEq, Repr

/-- `finish()`, or `takeModel()` of the result of `saveAdapterAndFinish()`. -/
def TrainingSession.takeModel (session : TrainingSession) (trained : Trained) : Engine :=
  { session.engine with cache := ⟨trained.adapter,trained.kv⟩ }

/-- The notifications posted to the router, but for the logs and the progress of encodings,
transcriptions and training steps. -/
inductive Notice where
  | modelLoading (modelKey filename : String)
  | modelLoaded (info : LoadedModelInfo)
  | modelFreed
  | warmProgress (done total : ℕ)
  | adapterChanged (active : Option String) (slots : Option ℕ) (was : Option String)
  | adapterSaved (name : String) (size : ℕ)
  | adapterDeleted (name : String)
  | trainingStarted (facts : SessionFacts) (estimatedBytes : ℕ)
  | trainingFinished
  deriving DecidableEq, Repr

/-- An RLCV envelope, decoded. -/
structure Envelope where
  ids : List ℕ
  kvBytes : KvBytes
  deriving DecidableEq, Repr

/-- An envelope `saveConvKv` returned, with the model and the adapter it was saved of. -/
structure Snapshot where
  envelope : Envelope
  modelKey : String
  filename : String
  adapter : Option Bytes
  deriving DecidableEq, Repr

structure State where
  model : Option Engine
  residentIds : Option (List ℕ)
  trainingSession : Option TrainingSession
  activeAdapterName : Option String
  trainingOriginalKvContext : Option ℕ
  loadedInfo : Option LoadedModelInfo
  notices : List Notice
  saved : List Snapshot
  deriving DecidableEq, Repr

def State.initial : State := ⟨none,none,none,none,none,none,[],[]⟩

inductive Result where
  | none
  | bool (b : Bool)
  | info (info : LoadedModelInfo)
  | token (next : ℕ)
  | decoded (next : ℕ) (isEos : Bool) (str : Option String)
  | reuse (n : ℕ)
  | warmed (tokens : ℕ)
  | transcript (text : String)
  | kv (bytes : KvBytes)
  | envelope (envelope : Option Envelope)
  | restored (tokens : ℕ)
  | started (facts : SessionFacts) (estimatedBytes : ℕ)
  | adapterSaved (name : String) (size : ℕ)
  | adapterApplied (name : String) (slots : ℕ)
  deriving DecidableEq, Repr

/-- What a handler returns, or the message of the error it throws. -/
abbrev Reply := Except String Result

namespace State

/-- Go on with the value of a call or an await, or throw its error. State changes made
before a throw stay. -/
def orThrow {α : Type} (s : State) (o : Except String α) (k : α → State × Reply) : State × Reply :=
  match o with
  | .ok a => k a
  | .error e => (s,.error e)

def notify (s : State) (n : Notice) : State := { s with notices := s.notices ++ [n] }

def kvCommit (s : State) (id : ℕ) : State :=
  { s with residentIds := s.residentIds.map (· ++ [id]) }

def kvInvalidate (s : State) : State := { s with residentIds := none }

def kvCleared (s : State) : State := { s with residentIds := some [] }

def setModel (s : State) (m : Engine) : State := { s with model := some m }

def mapModel (s : State) (f : Engine → Engine) : State := { s with model := s.model.map f }

/-- `trainingSession` is asked first: while it is set the model is loaned out, not gone. -/
def requireModel (s : State) : Except String Engine :=
  if s.trainingSession.isSome then
    .error "model is owned by an active training session — call trainingFinish() first"
  else
    match s.model with
    | some m => .ok m
    | none => .error "no model loaded — call load() first"

def requireTraining (s : State) : Except String TrainingSession :=
  match s.trainingSession with
  | some session => .ok session
  | none => .error "no training session active — call trainingStart() first"

section Rules
variable (s : State) (n : Notice) (id : ℕ) (m : Engine) (f : Engine → Engine)

@[simp] theorem notify_model : (s.notify n).model = s.model := rfl
@[simp] theorem notify_residentIds : (s.notify n).residentIds = s.residentIds := rfl
@[simp] theorem notify_notices : (s.notify n).notices = s.notices ++ [n] := rfl
@[simp] theorem kvCommit_model : (s.kvCommit id).model = s.model := rfl
@[simp] theorem kvInvalidate_model : s.kvInvalidate.model = s.model := rfl
@[simp] theorem kvInvalidate_residentIds : s.kvInvalidate.residentIds = none := rfl
@[simp] theorem kvCleared_model : s.kvCleared.model = s.model := rfl
@[simp] theorem kvCleared_residentIds : s.kvCleared.residentIds = some [] := rfl
@[simp] theorem setModel_model : (s.setModel m).model = some m := rfl
@[simp] theorem setModel_residentIds : (s.setModel m).residentIds = s.residentIds := rfl
@[simp] theorem mapModel_model : (s.mapModel f).model = s.model.map f := rfl
@[simp] theorem mapModel_residentIds : (s.mapModel f).residentIds = s.residentIds := rfl

end Rules

theorem requireModel_ok {s : State} {m : Engine} (h : s.requireModel = .ok m) :
    s.trainingSession = none ∧ s.model = some m := by
  simp only [requireModel] at h
  split at h
  · cases h
  · rename_i ht
    split at h
    · rename_i m' hm
      cases h
      exact ⟨Option.not_isSome_iff_eq_none.mp ht,hm⟩
    · cases h

theorem requireTraining_ok {s : State} {session : TrainingSession}
    (h : s.requireTraining = .ok session) : s.trainingSession = some session := by
  simp only [requireTraining] at h
  split at h
  · cases h
    assumption
  · cases h

/-- A predicate that holds where the call throws and after every way to go on. -/
theorem orThrow_of {α : Type} {P : State → Prop} {s : State} {o : Except String α}
    {k : α → State × Reply} (hs : P s) (hk : ∀ a, o = .ok a → P (k a).1) :
    P (s.orThrow o k).1 := by
  cases o with
  | ok a => exact hk a rfl
  | error e => exact hs

end State
end Rullama.CoreWorker
