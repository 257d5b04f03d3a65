import Rullama.Router.State

/-! # Core election, forwarding and liveness pings

The functions of the router between a tab's RPC and the core worker's port. The
argument `now` is what `Date.now()` returns inside the step, `throws` says whether
the step's `postMessage` to the core throws.
-/
namespace Rullama.Router.State

def nextElectableTab (s : State) : Option Port := s.ports.head?

def electHost (s : State) (tab : Port) (now : ℕ) : State :=
  if s.corePort.isSome ∨ s.electionInFlight.isSome then s
  else { s with electionInFlight := some ⟨tab,now⟩ }.post tab (.notify .pleaseSpawnCore)

/-- `const next = nextElectableTab(); if (next) electHost(next);` -/
def electNext (s : State) (now : ℕ) : State :=
  match s.nextElectableTab with
  | some next => s.electHost next now
  | none => s

/-- The transferred port is the object numbered `nextCore`. A stray one is closed. -/
def attachCore (s : State) (hostPort : Port) : State :=
  let transferredPort := s.nextCore
  let s := { s with nextCore := s.nextCore + 1 }
  if s.corePort.isSome then s.emit [.closeCore transferredPort]
  else
    let s := { s with
      corePort := some transferredPort
      coreHostPort := some hostPort
      electionInFlight := none
      openCores := transferredPort :: s.openCores }
    let s := s.emit [.startCore transferredPort hostPort]
    (s.log "core: host attached via tab port").notifyAll (.notify .coreReady)

def closeCorePort (s : State) : State :=
  match s.corePort with
  | some core => { s with openCores := s.openCores.erase core }.emit [.closeCore core]
  | none => s

/-- The loop of `loseCore` over `pendingChild`. -/
def rejectPending (s : State) : State :=
  s.pendingChild.foldl (fun s entry => s.reject entry.1 entry.2) s

def freeLoaded (s : State) : State :=
  if s.loadedInfo.isSome then { s with loadedInfo := none }.notifyAll (.notify .modelFreed) else s

def loseCore (s : State) (reason : String) (reelect : Bool) (now : ℕ) : State :=
  if s.corePort = none ∧ s.coreHostPort = none then s
  else
    let s := (s.log s!"core: lost ({reason})").closeCorePort
    let s := { s with corePort := none, coreHostPort := none, electionInFlight := none }
    let s := { s.rejectPending with pendingChild := [] }
    let s := s.freeLoaded
    if reelect then s.electNext now else s

def forwardToCore (s : State) (port : Port) (originalRequestId : ℤ) (call : CoreCall)
    (now : ℕ) (throws : Bool) : State :=
  match s.corePort with
  | none =>
    let s :=
      if s.electionInFlight = none ∧ port ∈ s.ports then s.electHost port now
      else if s.electionInFlight = none then s.electNext now
      else s
    s.reply port originalRequestId (.error "core disconnected")
  | some core =>
    let childReqId := s.nextChildReqId
    let s := { s with
      nextChildReqId := childReqId + 1
      pendingChild := s.pendingChild ++ [(childReqId,PendingChild.mk port originalRequestId)] }
    let s := s.emit [.forward childReqId core port originalRequestId call !throws]
    if throws then
      let s := { s with pendingChild := s.pendingChild.filter (fun entry => entry.1 ≠ childReqId) }
      s.loseCore "postMessage failed" true now
    else s

def dropPendingForPort (s : State) (port : Port) : State :=
  { s with pendingChild := s.pendingChild.filter (fun entry => entry.2.port ≠ port) }

/-- The continuation of `await verifyCoreLive()` in `onconnect` of the tab. -/
def pingSettled (s : State) (p : PingWaiter) (alive : Bool) (now : ℕ) : State :=
  if alive then s.post p.tab (.notify .coreReady)
  else
    let s := s.log "core: ping failed on new connection — re-electing"
    let s := s.loseCore "ping failed on new connection" true now
    if s.corePort = none ∧ s.electionInFlight = none then s.electHost p.tab now else s

/-- `finish(ok)` of the ping, which does nothing once the ping is settled. -/
def finishPing (s : State) (pingId : ℕ) (ok : Bool) (now : ℕ) : State :=
  match s.pingsAwaitingPong.lookup pingId with
  | none => s
  | some p =>
    { s with
      pingsAwaitingPong := s.pingsAwaitingPong.filter (fun entry => entry.1 ≠ pingId) }.pingSettled
        p ok now

/-- `verifyCoreLive` as `onconnect` of a new tab calls it, with a core attached. -/
def verifyCoreLive (s : State) (core : Core) (tab : Port) (now : ℕ) (throws : Bool) : State :=
  let pingId := s.nextPingId
  let s := { s with
    nextPingId := pingId + 1
    pingsAwaitingPong := s.pingsAwaitingPong ++ [(pingId,PingWaiter.mk core tab)] }
  if throws then s.finishPing pingId false now
  else s.emit [.pingCore pingId core]

def isOk {ε α : Type} : Except ε α → Bool
  | .ok _ => true
  | .error _ => false

def onCoreMessage (s : State) (msg : FromCore) (now : ℕ) : State :=
  match msg with
  | .log args => s.notifyAll (.log args)
  | .modelLoaded info => { s with loadedInfo := some info }.notifyAll (.notify (.modelLoaded info))
  | .modelFreed => { s with loadedInfo := none }.notifyAll (.notify .modelFreed)
  | .notify kind payload => s.notifyAll (.notify (.other kind payload))
  | .reply requestId outcome =>
    if (s.pingsAwaitingPong.lookup requestId).isSome then s.finishPing requestId (isOk outcome) now
    else
      match s.pendingChild.lookup requestId with
      | none => s
      | some p =>
        { s with
          pendingChild := s.pendingChild.filter (fun entry => entry.1 ≠ requestId) }.answer
            requestId p outcome

end Rullama.Router.State
