import Rullama.CoreWorker.State

/-! # Loading, stepping and KV reuse

The handlers of the core's RPC table for the model's lifecycle, its stateful inference
and the KV snapshots. An argument of type `Except` is what an engine or file call of the
handler gives: its value, or the error it throws. A call that throws leaves the engine
as it was.
-/
namespace Rullama.CoreWorker
open Rullama.Router

structure LoadArgs where
  modelKey : String
  filename : String
  name : Option String
  deriving DecidableEq, Repr

/-- `ensureWasm()`, `openSyncReadFn(..)` and `Model.loadFromOpfs(..)`, whose value is what
the loaded model says of itself. -/
structure LoadCalls where
  wasm : Except String Unit
  file : Except String Unit
  model : Except String (ModelFacts × ℕ)

def Engine.fresh (args : LoadArgs) (facts : ModelFacts) (maxContext : ℕ) : Engine :=
  ⟨args.modelKey,args.filename,facts,maxContext,⟨none,[]⟩⟩

def Engine.loadedInfo (m : Engine) (name : Option String) : LoadedModelInfo where
  name
  modelKey := m.modelKey
  filename := m.filename
  hasVision := m.facts.hasVision
  hasAudio := m.facts.hasAudio
  vocabSize := m.facts.vocabSize
  imageSentinelIds := m.facts.imageSentinelIds
  audioSentinelIds := m.facts.audioSentinelIds

/-- An engine call of `transcribeAudio`'s feed loop that throws: how many came before it, and
its error. -/
abbrev Throw := ℕ × String

/-- The calls of `transcribeAudio` before it touches the cache: the soft tokens of the audio
and the ids of the rendered prompt. -/
structure Transcription where
  soft : List ℕ
  ids : List ℕ
  deriving DecidableEq, Repr

namespace State

def freeModel (s : State) : State :=
  if s.model.isSome then { s with model := none, loadedInfo := none }.notify .modelFreed else s

/-- The condition of `handleLoad`'s short-circuit, with the info it returns. -/
def alreadyLoaded (s : State) (args : LoadArgs) : Option LoadedModelInfo :=
  if s.model.isSome then
    s.loadedInfo.filter (fun info => info.modelKey = args.modelKey ∧ info.filename = args.filename)
  else none

def loadFresh (s : State) (args : LoadArgs) (calls : LoadCalls) : State × Reply :=
  let s := s.freeModel.notify (.modelLoading args.modelKey args.filename)
  s.orThrow calls.file fun _ =>
  s.orThrow calls.model fun (facts,maxContext) =>
    let m := Engine.fresh args facts maxContext
    let info := m.loadedInfo args.name
    ({ (s.setModel m).kvCleared with loadedInfo := some info }.notify (.modelLoaded info),
      .ok (.info info))

def load (s : State) (args : LoadArgs) (calls : LoadCalls) : State × Reply :=
  s.orThrow calls.wasm fun _ =>
  if s.trainingSession.isSome then
    (s,.error ("training session is active — apply / save / discard the adapter " ++
      "from the Fine-tune tab first, then try loading again"))
  else
    match s.alreadyLoaded args with
    | some info => (s,.ok (.info info))
    | none => s.loadFresh args calls

/-- A throw of `model.free` is ignored. -/
def free (s : State) : State × Reply :=
  let s := { s.kvInvalidate with model := none }
  if s.loadedInfo.isSome then ({ s with loadedInfo := none }.notify .modelFreed,.ok .none)
  else (s,.ok .none)

def step (s : State) (tokenId : ℕ) (next : Except String ℕ) : State × Reply :=
  s.orThrow s.requireModel fun m =>
  s.orThrow next fun next =>
    ((s.setModel (m.step (.id tokenId))).kvCommit tokenId,.ok (.token next))

def stepWithEmb (s : State) (embedding : ℕ) (next : Except String ℕ) : State × Reply :=
  let s := s.kvInvalidate
  s.orThrow s.requireModel fun m =>
  s.orThrow next fun next =>
    (s.setModel (m.step (.soft embedding)),.ok (.token next))

/-- `isEos` and `str` are what the engine says of the next token. -/
def stepAndDecode (s : State) (tokenId : ℕ) (next : Except String ℕ) (isEos : Bool)
    (str : Option String) : State × Reply :=
  s.orThrow s.requireModel fun m =>
  s.orThrow next fun next =>
    ((s.setModel (m.step (.id tokenId))).kvCommit tokenId,.ok (.decoded next isEos str))

/-- The fallback of `kvReusePlan`, and the RPC `reset` without its reply. -/
def resetKv (s : State) (m : Engine) : State := (s.setModel m.reset).kvCleared

def kvReusePlan (s : State) (ids : List ℕ) : State × Reply :=
  s.orThrow s.requireModel fun m =>
  match s.residentIds with
  | none => (s.resetKv m,.ok (.reuse 0))
  | some res =>
    if 0 < res.length ∧ m.position = res.length then
      let p := Cache.commonPrefix res ids
      if p = res.length then (s,.ok (.reuse p))
      else if 0 < p then
        ({ s.setModel (m.truncateKv p) with residentIds := some (res.take p) },.ok (.reuse p))
      else (s.resetKv m,.ok (.reuse 0))
    else (s.resetKv m,.ok (.reuse 0))

/-- The loop of `warmSystem` from index `i` on; `thrown` is the step that throws, if any does. -/
def warmFeed (total : ℕ) (thrown : Option Throw) (s : State) (i : ℕ) : List ℕ → State × Reply
  | [] => (s,.ok (.warmed total))
  | id :: ids =>
    match thrown.filter (·.1 = i) with
    | some (_,e) => (s,.error e)
    | none =>
      warmFeed total thrown
        (((s.mapModel (·.step (.id id))).kvCommit id).notify (.warmProgress (i + 1) total)) (i + 1) ids

def warmSystem (s : State) (ids : List ℕ) (thrown : Option Throw) : State × Reply :=
  s.orThrow s.requireModel fun m =>
    let s := s.resetKv m
    if m.maxContext ≤ ids.length then (s,.ok (.warmed 0))
    else s.warmFeed ids.length thrown 0 ids

/-- What the feed loop of `transcribeAudio` gives the engine: the prompt with the soft tokens
spliced in after the audio sentinel, then the generated tokens fed back. -/
def transcribeFeed (audioBeginId : ℕ) (t : Transcription) (generated : List ℕ) : List Token :=
  t.ids.flatMap (fun id => .id id :: if id = audioBeginId then t.soft.map .soft else []) ++
    generated.map .id

/-- The pieces of the generated tokens, with the blanks of the vocabulary written out. -/
def transcriptOf (pieces : List (Option String)) : String :=
  String.join (pieces.filterMap (·.map (·.replace "▁" " ")))

/-- `prepared` is the outcome of the calls before the cache is reset, `generated` the tokens and
pieces the engine comes up with before its end token. -/
def transcribeAudio (s : State) (maxTokens : ℕ) (prepared : Except String Transcription)
    (generated : List (ℕ × Option String)) (thrown : Option Throw) : State × Reply :=
  s.orThrow s.requireModel fun m =>
  match m.facts.audioSentinelIds with
  | none => (s,.error "transcribeAudio: model has no <|audio> sentinel")
  | some (audioBeginId,_) =>
    s.orThrow prepared fun t =>
      let generated := generated.take maxTokens
      let feed := transcribeFeed audioBeginId t (generated.map Prod.fst)
      let s := (s.setModel m.reset).kvInvalidate
      match thrown.filter (·.1 < feed.length) with
      | some (i,e) => (s.setModel (m.reset.feed (feed.take i)),.error e)
      | none =>
        (s.setModel (m.reset.feed feed),.ok (.transcript (transcriptOf (generated.map Prod.snd))))

def reset (s : State) : State × Reply :=
  s.orThrow s.requireModel fun m => (s.resetKv m,.ok .none)

def saveKvState (s : State) (saves : Except String Unit) : State × Reply :=
  s.orThrow s.requireModel fun m =>
  s.orThrow saves fun _ => (s,.ok (.kv m.saveKvState))

def restoreKvState (s : State) (bytes : KvBytes) (restores : Except String Unit) : State × Reply :=
  s.orThrow s.requireModel fun m =>
  s.orThrow restores fun _ => ((s.setModel (m.restoreKvState bytes)).kvInvalidate,.ok (.bool true))

/-- Without a tracked sequence there is nothing to save, with or without a model. -/
def saveConvKv (s : State) (saves : Except String Unit) : State × Reply :=
  match s.residentIds with
  | none => (s,.ok (.envelope none))
  | some ids =>
    s.orThrow s.requireModel fun m =>
    s.orThrow saves fun _ =>
      let envelope : Envelope := ⟨ids,m.saveKvState⟩
      ({ s with saved := ⟨envelope,m.modelKey,m.filename,m.adapter⟩ :: s.saved },
        .ok (.envelope (some envelope)))

/-- `decoded` is what `decodeRlcvEnvelope` gives for the RPC's bytes. -/
def restoreConvKv (s : State) (decoded : Except String Envelope) (restores : Except String Unit) :
    State × Reply :=
  s.orThrow decoded fun envelope =>
  s.orThrow s.requireModel fun m =>
  s.orThrow restores fun _ =>
    ({ s.setModel (m.restoreKvState envelope.kvBytes) with residentIds := some envelope.ids },
      .ok (.restored envelope.ids.length))

end State
end Rullama.CoreWorker
