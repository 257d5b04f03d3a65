import Rullama.Router.Arbiter

/-! # Messages, effects and state of the SharedWorker router

Port and core identities are those of the `MessagePort` objects of the router's
own realm: a new one comes with every `onconnect` and with every transferred
port. The trace is a ghost log of what the router did to the outside, oldest
first; a post to a port that is closed by then does nothing and leaves no entry.
-/
namespace Rullama.Router

/-- Identity of a `MessagePort` received by `attachCore`. -/
abbrev Core := ℕ

/-- A structured-clone value the router passes on unread. -/
abbrev Payload := String

structure LoadedModelInfo where
  name : Option String
  modelKey : String
  filename : String
  hasVision : Bool
  hasAudio : Bool
  vocabSize : ℕ
  imageSentinelIds : Option (ℕ × ℕ)
  audioSentinelIds : Option (ℕ × ℕ)
  deriving DecidableEq, Repr

/-- The members of `STATEFUL_RPCS`. -/
inductive StatefulRpc where
  | load | free | releaseVisionWeights | releaseAudioWeights | step | stepWithEmb
  | stepAndDecode | kvReusePlan | warmSystem | encodeImage | encodeAudio | transcribeAudio
  | reset | setSampling | saveKvState | restoreKvState | saveConvKv | restoreConvKv
  | trainingProbeFit | trainingStart | trainingStep | trainingZeroGrads
  | trainingForwardBackward | trainingOptimizerStep | trainingSaveAdapter
  | trainingSaveAdapterAndFinish | trainingCancel | trainingFinish | trainingApplyAdapter
  | trainingClearAdapter | trainingDeleteAdapter
  deriving DecidableEq, Repr

inductive RpcName where
  | stateful (rpc : StatefulRpc)
  | stateless (name : String)
  deriving DecidableEq, Repr

/-- `STATEFUL_RPCS.has(type)`. -/
def RpcName.isStateful : RpcName → Bool
  | .stateful _ => true
  | .stateless _ => false

/-- An RPC that the router does not serve itself. -/
structure CoreCall where
  name : RpcName
  sid : SidArg
  args : Payload
  deriving DecidableEq, Repr

/-- The switch of `handleRequest`; the last case is everything behind it. -/
inductive Request where
  | ping
  | disconnect
  | teardownCore
  | acquireSession (abortToken : Option String)
  | releaseSession (sid : SidArg)
  | cancelAcquire (abortToken : Option String)
  | currentMeta
  | updateAvailable (version : Option String)
  | applyUpdate (version : Option String)
  | attachCore (transferred : Bool)
  | core (call : CoreCall)
  deriving DecidableEq, Repr

structure Message where
  requestId : ℤ
  request : Request
  deriving DecidableEq, Repr

inductive Notify where
  | pleaseSpawnCore
  | coreReady
  | metaInfo (loaded : Option LoadedModelInfo) (pendingUpdateVersion : Option String)
  | modelLoaded (info : LoadedModelInfo)
  | modelFreed
  | updateAvailable (version : String)
  | applyingUpdate (version : String)
  | other (kind : String) (payload : Payload)
  deriving DecidableEq, Repr

inductive Result where
  | bool (b : Bool)
  | sid (n : ℕ)
  | metaInfo (loaded : Option LoadedModelInfo) (activeSessionPortHeld : Bool)
      (pendingUpdateVersion : Option String)
  | core (payload : Payload)
  deriving DecidableEq, Repr

inductive ToTab where
  | reply (requestId : ℤ) (outcome : Except String Result)
  | log (args : List String)
  | notify (n : Notify)
  deriving DecidableEq

inductive FromCore where
  | log (args : List String)
  | modelLoaded (info : LoadedModelInfo)
  | modelFreed
  | notify (kind : String) (payload : Payload)
  | reply (requestId : ℕ) (outcome : Except String Payload)
  deriving DecidableEq

/-- `answer` and `reject` are the two posts that end a forwarded RPC, with the id it
was forwarded under: the core's reply passed on, and `core disconnected`. `forward`
has `false` where `postMessage` to the core threw. -/
inductive Effect where
  | post (port : Port) (msg : ToTab)
  | answer (childReqId : ℕ) (port : Port) (requestId : ℤ) (outcome : Except String Payload)
  | reject (childReqId : ℕ) (port : Port) (requestId : ℤ)
  | forward (childReqId : ℕ) (core : Core) (port : Port) (requestId : ℤ) (call : CoreCall)
      (posted : Bool)
  | pingCore (pingId : ℕ) (core : Core)
  | shutdown (core : Core)
  | startCore (core : Core) (host : Port)
  | closeCore (core : Core)
  | closePort (port : Port)
  deriving DecidableEq

structure Election where
  tab : Port
  startedAt : ℕ
  deriving DecidableEq, Repr

structure PendingChild where
  port : Port
  originalRequestId : ℤ
  deriving DecidableEq, Repr

/-- The closure a ping waits with: the core it was sent to, and the new tab whose
`onconnect` awaits `verifyCoreLive`. -/
structure PingWaiter where
  core : Core
  tab : Port
  deriving DecidableEq, Repr

/-- `ports` is `PORTS` in insertion order, `pendingChild` and `pingsAwaitingPong`
are maps in insertion order. `openCores` are the core ports not closed on this
side, `nextPort` and `nextCore` number the port objects. -/
structure State where
  ports : List Port
  lastSeen : Port → Option ℕ
  loadedInfo : Option LoadedModelInfo
  pendingUpdateVersion : Option String
  updateInProgress : Bool
  arbiter : Arbiter
  corePort : Option Core
  coreHostPort : Option Port
  electionInFlight : Option Election
  pendingChild : List (ℕ × PendingChild)
  nextChildReqId : ℕ
  pingsAwaitingPong : List (ℕ × PingWaiter)
  nextPingId : ℕ
  openCores : List Core
  nextPort : Port
  nextCore : Core
  trace : List Effect

namespace State

def initial : State where
  ports := []
  lastSeen _ := none
  loadedInfo := none
  pendingUpdateVersion := none
  updateInProgress := false
  arbiter := .initial
  corePort := none
  coreHostPort := none
  electionInFlight := none
  pendingChild := []
  nextChildReqId := 1
  pingsAwaitingPong := []
  nextPingId := 1000000000
  openCores := []
  nextPort := 0
  nextCore := 0
  trace := []

def emit (s : State) (effects : List Effect) : State :=
  { s with trace := s.trace ++ effects }

/-- `port.postMessage(msg)` inside `try`; a port is closed once it left `PORTS`. -/
def post (s : State) (port : Port) (msg : ToTab) : State :=
  if port ∈ s.ports then s.emit [.post port msg] else s

def reply (s : State) (port : Port) (requestId : ℤ) (outcome : Except String Result) : State :=
  s.post port (.reply requestId outcome)

def notifyAll (s : State) (msg : ToTab) : State :=
  s.emit (s.ports.map (fun port => .post port msg))

def log (s : State) (line : String) : State := s.notifyAll (.log [line])

/-- The core's reply to a forwarded RPC, under the requestId its sender gave it. -/
def answer (s : State) (childReqId : ℕ) (p : PendingChild) (outcome : Except String Payload) :
    State :=
  if p.port ∈ s.ports then s.emit [.answer childReqId p.port p.originalRequestId outcome] else s

/-- `core disconnected` for a forwarded RPC, under the requestId its sender gave it. -/
def reject (s : State) (childReqId : ℕ) (p : PendingChild) : State :=
  if p.port ∈ s.ports then s.emit [.reject childReqId p.port p.originalRequestId] else s

end State
end Rullama.Router
