import Rullama.Router.Core

/-! # Port lifecycle, RPC dispatch and the router machine

One event is one task of the SharedWorker's event loop together with the microtasks
it queues. Replies to settled acquire promises are such microtasks: they are posted
after everything the task itself posts.
-/
namespace Rullama.Router
open Transition

def HEARTBEAT_DEAD_MS : ℕ := 300000
def ELECTION_TIMEOUT_MS : ℕ := 15000

namespace State

def disconnectPort (s : State) (port : Port) (reason : String) (now : ℕ) : State :=
  if port ∉ s.ports then s
  else
    let s := { s with
      ports := s.ports.erase port
      lastSeen := Function.update s.lastSeen port none }
    let s := match s.arbiter.active with
      | some a =>
        if a.port = port then s.log s!"port disconnect ({reason}) released session {a.sid}" else s
      | none => s
    let s := { s with arbiter := s.arbiter.disconnect port }
    let s := s.dropPendingForPort port
    let s := if s.coreHostPort = some port then s.loseCore "host tab disconnected" true now else s
    let s :=
      if s.electionInFlight.any (fun e => e.tab = port) then
        { s with electionInFlight := none }.electNext now
      else s
    s.emit [.closePort port]

def isStale (s : State) (now : ℕ) (port : Port) : Bool :=
  now - (s.lastSeen port).getD now > HEARTBEAT_DEAD_MS

/-- The heartbeat loop over `PORTS`, which only ever deletes the port it is at. -/
def reap (s : State) (now : ℕ) : State :=
  s.ports.foldl (fun s port =>
    if s.isStale now port then s.disconnectPort port "heartbeat timeout" now else s) s

/-- The election part of the heartbeat; both branches on `stuck` elect `next`. -/
def electionTimeout (s : State) (now : ℕ) : State :=
  match s.electionInFlight with
  | none => s
  | some election =>
    if now - election.startedAt > ELECTION_TIMEOUT_MS then
      let stuck := election.tab
      let s := s.log "election: tab did not attachCore within 15000ms"
      let s := { s with electionInFlight := none }
      match s.nextElectableTab with
      | some next =>
        if next ≠ stuck then s.electHost next now
        else s.electHost next now
      | none => s
    else s

/-- The `setInterval` callback; `now` and `later` are its two clock readings. -/
def heartbeat (s : State) (now later : ℕ) : State := (s.reap now).electionTimeout later

/-- `onconnect` with the port object numbered `nextPort`. -/
def onconnect (s : State) (now : ℕ) (throws : Bool) : State :=
  let port := s.nextPort
  let s := { s with
    nextPort := port + 1
    ports := s.ports ++ [port]
    lastSeen := Function.update s.lastSeen port (some now) }
  let s := s.post port (.notify (.metaInfo s.loadedInfo s.pendingUpdateVersion))
  match s.corePort with
  | some core => s.verifyCoreLive core port now throws
  | none => if s.electionInFlight = none then s.electHost port now else s

def applyUpdate (s : State) (port : Port) (requestId : ℤ) (version : Option String)
    (throws : Bool) : State :=
  if s.updateInProgress then s.reply port requestId (.ok (.bool false))
  else
    let s := { s with updateInProgress := true }
    let v := s.pendingUpdateVersion.getD (version.getD "")
    let s := s.notifyAll (.notify (.applyingUpdate v))
    let s := match s.corePort with
      | some core =>
        if throws then s.log "applyUpdate: core shutdown post failed (port closed?)"
        else s.emit [.shutdown core]
      | none => s
    s.reply port requestId (.ok (.bool true))

/-- The body of the `try` in `handleRequest`, up to its `await`. -/
def serve (s : State) (port : Port) (msg : Message) (now : ℕ) (throws : Bool) : State :=
  let requestId := msg.requestId
  match msg.request with
  | .ping => s.reply port requestId (.ok (.bool true))
  | .disconnect =>
    (s.reply port requestId (.ok (.bool true))).disconnectPort port "client disconnect" now
  | .teardownCore =>
    let s := if s.coreHostPort = some port then s.loseCore "deliberate teardown" false now else s
    s.reply port requestId (.ok (.bool true))
  | .acquireSession abortToken =>
    { s with arbiter := s.arbiter.acquireSession (abortToken.getD "") port requestId }
  | .releaseSession sid =>
    let r := s.arbiter.releaseSession sid.toNumber port
    { s with arbiter := r.1 }.reply port requestId (.ok (.bool r.2))
  | .cancelAcquire abortToken =>
    let r := s.arbiter.cancelAcquire (abortToken.getD "undefined")
    { s with arbiter := r.1 }.reply port requestId (.ok (.bool r.2))
  | .currentMeta =>
    s.reply port requestId
      (.ok (.metaInfo s.loadedInfo s.arbiter.active.isSome s.pendingUpdateVersion))
  | .updateAvailable version =>
    let v := version.getD ""
    if v = "" then s.reply port requestId (.error "updateAvailable: missing version")
    else
      let s := { s with pendingUpdateVersion := some v }
      (s.notifyAll (.notify (.updateAvailable v))).reply port requestId (.ok (.bool true))
  | .applyUpdate version => s.applyUpdate port requestId version throws
  | .attachCore transferred =>
    if transferred then (s.attachCore port).reply port requestId (.ok (.bool true))
    else s.reply port requestId (.error "attachCore: no transferred port")
  | .core call =>
    match if call.name.isStateful then s.arbiter.checkSession port call.sid else none with
    | some err => s.reply port requestId (.error err)
    | none => s.forwardToCore port requestId call now throws

def handleRequest (s : State) (port : Port) (msg : Message) (now : ℕ) (throws : Bool) : State :=
  { s with lastSeen := Function.update s.lastSeen port (some now) }.serve port msg now throws

/-- The reply of the handler that awaits a promise settled by this record. -/
def settle (s : State) : Record → State
  | .granted w sid => s.reply w.port w.requestId (.ok (.sid sid))
  | .rejected w error => s.reply w.port w.requestId (.error error)
  | .ended _ => s

/-- The microtasks of a task that began with `n` records in the history. -/
def runMicrotasks (s : State) (n : ℕ) : State := (s.arbiter.history.drop n).foldl settle s

end State

inductive Event where
  | connect (now : ℕ) (throws : Bool)
  | message (port : Port) (msg : Message) (now : ℕ) (throws : Bool)
  | coreMessage (core : Core) (msg : FromCore) (now : ℕ)
  | pingTimeout (pingId : ℕ) (now : ℕ)
  | heartbeat (now later : ℕ)

/-- A closed port delivers no messages. -/
def Enabled (s : State) : Event → Prop
  | .message port _ _ _ => port ∈ s.ports
  | .coreMessage core _ _ => core ∈ s.openCores
  | _ => True

instance (s : State) (e : Event) : Decidable (Enabled s e) := by
  cases e <;> unfold Enabled <;> infer_instance

namespace State

/-- The task alone, before its microtasks. -/
def task (s : State) : Event → State
  | .connect now throws => s.onconnect now throws
  | .message port msg now throws => s.handleRequest port msg now throws
  | .coreMessage _ msg now => s.onCoreMessage msg now
  | .pingTimeout pingId now => s.finishPing pingId false now
  | .heartbeat now later => s.heartbeat now later

def next (s : State) (e : Event) : State := (s.task e).runMicrotasks s.arbiter.history.length

end State

def machine : Machine State Event where
  enabled := Enabled
  next := State.next

instance (s : State) (e : Event) : Decidable (machine.enabled s e) :=
  inferInstanceAs (Decidable (Enabled s e))

end Rullama.Router
