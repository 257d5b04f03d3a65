import Rullama.Router.Dispatch

/-! # What the router's functions do to the state

Every function is put in the form of an update followed by one extension of the
trace, so that whatever it leaves alone is read off by simplification.
-/
namespace Rullama.Router.State
variable (s : State) (port : Port) (now : ℕ) (throws : Bool)

section Emit
variable (effects : List Effect)

@[simp] theorem emit_nil : s.emit [] = s := by simp [emit]
@[simp] theorem emit_emit (later : List Effect) :
    (s.emit effects).emit later = s.emit (effects ++ later) := by simp [emit]
@[simp] theorem emit_ports : (s.emit effects).ports = s.ports := rfl
@[simp] theorem emit_lastSeen : (s.emit effects).lastSeen = s.lastSeen := rfl
@[simp] theorem emit_loadedInfo : (s.emit effects).loadedInfo = s.loadedInfo := rfl
@[simp] theorem emit_arbiter : (s.emit effects).arbiter = s.arbiter := rfl
@[simp] theorem emit_corePort : (s.emit effects).corePort = s.corePort := rfl
@[simp] theorem emit_coreHostPort : (s.emit effects).coreHostPort = s.coreHostPort := rfl
@[simp] theorem emit_electionInFlight :
    (s.emit effects).electionInFlight = s.electionInFlight := rfl
@[simp] theorem emit_pendingChild : (s.emit effects).pendingChild = s.pendingChild := rfl
@[simp] theorem emit_nextChildReqId : (s.emit effects).nextChildReqId = s.nextChildReqId := rfl
@[simp] theorem emit_pingsAwaitingPong :
    (s.emit effects).pingsAwaitingPong = s.pingsAwaitingPong := rfl
@[simp] theorem emit_nextPingId : (s.emit effects).nextPingId = s.nextPingId := rfl
@[simp] theorem emit_openCores : (s.emit effects).openCores = s.openCores := rfl
@[simp] theorem emit_nextPort : (s.emit effects).nextPort = s.nextPort := rfl
@[simp] theorem emit_nextCore : (s.emit effects).nextCore = s.nextCore := rfl
@[simp] theorem emit_trace : (s.emit effects).trace = s.trace ++ effects := rfl

end Emit

/-- What one post adds to the trace. -/
def posted (s : State) (port : Port) (msg : ToTab) : List Effect :=
  if port ∈ s.ports then [.post port msg] else []

@[simp] theorem post_eq (msg : ToTab) : s.post port msg = s.emit (s.posted port msg) := by
  unfold post posted
  split <;> simp

@[simp] theorem mem_posted {msg : ToTab} {fx : Effect} :
    fx ∈ s.posted port msg ↔ port ∈ s.ports ∧ fx = .post port msg := by
  unfold State.posted
  split <;> simp_all

@[simp] theorem reply_eq (requestId : ℤ) (outcome : Except String Result) :
    s.reply port requestId outcome = s.emit (s.posted port (.reply requestId outcome)) :=
  s.post_eq port _

/-- What one broadcast adds to the trace. -/
def broadcast (s : State) (msg : ToTab) : List Effect := s.ports.map (fun port => .post port msg)

@[simp] theorem mem_broadcast {msg : ToTab} {fx : Effect} :
    fx ∈ s.broadcast msg ↔ ∃ port ∈ s.ports, fx = .post port msg := by
  simp [broadcast,eq_comm]

@[simp] theorem notifyAll_eq (msg : ToTab) : s.notifyAll msg = s.emit (s.broadcast msg) := rfl

@[simp] theorem log_eq (line : String) : s.log line = s.emit (s.broadcast (.log [line])) := rfl

/-- What the reply to one forwarded RPC adds to the trace. -/
def answered (s : State) (outcome : Except String Payload) (entry : ℕ × PendingChild) :
    List Effect :=
  if entry.2.port ∈ s.ports then
    [.answer entry.1 entry.2.port entry.2.originalRequestId outcome]
  else []

@[simp] theorem mem_answered {outcome : Except String Payload} {entry : ℕ × PendingChild}
    {fx : Effect} : fx ∈ s.answered outcome entry ↔ entry.2.port ∈ s.ports ∧
      fx = .answer entry.1 entry.2.port entry.2.originalRequestId outcome := by
  unfold answered
  split <;> simp_all

@[simp] theorem answer_eq (id : ℕ) (p : PendingChild) (outcome : Except String Payload) :
    s.answer id p outcome = s.emit (s.answered outcome (id,p)) := by
  unfold answer answered
  split <;> simp

/-- What `core disconnected` for one forwarded RPC adds to the trace. -/
def rejected (s : State) (entry : ℕ × PendingChild) : List Effect :=
  if entry.2.port ∈ s.ports then [.reject entry.1 entry.2.port entry.2.originalRequestId] else []

@[simp] theorem mem_rejected {entry : ℕ × PendingChild} {fx : Effect} :
    fx ∈ s.rejected entry ↔ entry.2.port ∈ s.ports ∧
      fx = .reject entry.1 entry.2.port entry.2.originalRequestId := by
  unfold rejected
  split <;> simp_all

@[simp] theorem reject_eq (id : ℕ) (p : PendingChild) :
    s.reject id p = s.emit (s.rejected (id,p)) := by
  unfold reject rejected
  split <;> simp

/-- An election is not started while a core is attached or another election runs. -/
def Settled (s : State) : Prop := s.corePort.isSome ∨ s.electionInFlight.isSome

instance : Decidable s.Settled := inferInstanceAs (Decidable (_ ∨ _))

theorem electHost_eq (tab : Port) :
    s.electHost tab now =
      { s with
        electionInFlight := if s.Settled then s.electionInFlight else some ⟨tab,now⟩ }.emit
          (if s.Settled then [] else s.posted tab (.notify .pleaseSpawnCore)) := by
  unfold electHost
  by_cases h : s.Settled
  · simp only [if_pos h,emit_nil]
    exact if_pos h
  · simp only [if_neg h,post_eq]
    exact if_neg h

theorem electNext_eq :
    s.electNext now =
      { s with
        electionInFlight := if s.Settled then s.electionInFlight
          else s.ports.head?.map (fun tab => ⟨tab,now⟩) }.emit
          (if s.Settled then []
          else s.ports.head?.toList.map (fun tab => .post tab (.notify .pleaseSpawnCore))) := by
  unfold electNext nextElectableTab
  cases hp : s.ports.head? with
  | none =>
    by_cases h : s.Settled
    · simp only [if_pos h,emit_nil]
    · have he : none = s.electionInFlight := (Option.not_isSome_iff_eq_none.mp (not_or.mp h).2).symm
      simp only [if_neg h,Option.map_none,Option.toList_none,List.map_nil,emit_nil,he]
  | some tab =>
    have ht : tab ∈ s.ports := List.mem_of_head? hp
    simp only [electHost_eq,posted,if_pos ht,Option.map_some,Option.toList_some,List.map_cons,
      List.map_nil]

theorem rejectPending_eq :
    s.rejectPending = s.emit (s.pendingChild.flatMap s.rejected) := by
  have hfold : ∀ (l : List (ℕ × PendingChild)) (fx : List Effect),
      l.foldl (fun s entry => s.reject entry.1 entry.2) (s.emit fx) =
        s.emit (fx ++ l.flatMap s.rejected) := by
    intro l
    induction l with
    | nil => simp
    | cons entry rest ih =>
      intro fx
      rw [List.foldl_cons,reject_eq,emit_emit,ih,List.flatMap_cons,List.append_assoc]
      rfl
  have h := hfold s.pendingChild []
  rwa [emit_nil,List.nil_append] at h

theorem freeLoaded_eq :
    s.freeLoaded = { s with loadedInfo := none }.emit
      (if s.loadedInfo.isSome then s.broadcast (.notify .modelFreed) else []) := by
  unfold freeLoaded
  by_cases h : s.loadedInfo.isSome
  · simp only [if_pos h]
    rfl
  · have hn : none = s.loadedInfo := (Option.not_isSome_iff_eq_none.mp h).symm
    simp only [if_neg h,emit_nil,hn]

theorem closeCorePort_eq :
    s.closeCorePort =
      { s with openCores := s.corePort.elim s.openCores s.openCores.erase }.emit
        (s.corePort.toList.map Effect.closeCore) := by
  rcases s with ⟨ports,seen,loaded,version,updating,arbiter,core,rest⟩
  cases core with
  | none => simp [closeCorePort,emit]
  | some core => rfl

/-- What losing a core does, where there is one to lose. -/
def lost (s : State) (reason : String) : State :=
  { s with
    corePort := none
    coreHostPort := none
    electionInFlight := none
    pendingChild := []
    loadedInfo := none
    openCores := s.corePort.elim s.openCores s.openCores.erase }.emit
      (s.broadcast (.log [s!"core: lost ({reason})"]) ++ s.corePort.toList.map Effect.closeCore ++
        s.pendingChild.flatMap s.rejected ++
        if s.loadedInfo.isSome then s.broadcast (.notify .modelFreed) else [])

theorem loseCore_eq (reason : String) (reelect : Bool) :
    s.loseCore reason reelect now =
      if s.corePort = none ∧ s.coreHostPort = none then s
      else if reelect then (s.lost reason).electNext now else s.lost reason := by
  unfold loseCore lost
  simp only [log_eq,closeCorePort_eq,rejectPending_eq,freeLoaded_eq,emit]
  simp only [List.append_assoc]
  rfl

/-- The election that a call without a core starts, if none runs. -/
def electFor (s : State) (port : Port) (now : ℕ) : State :=
  if s.electionInFlight = none ∧ port ∈ s.ports then s.electHost port now
  else if s.electionInFlight = none then s.electNext now
  else s

theorem forwardToCore_none (h : s.corePort = none) (requestId : ℤ) (call : CoreCall) :
    s.forwardToCore port requestId call now throws =
      (s.electFor port now).reply port requestId (.error "core disconnected") := by
  unfold forwardToCore electFor
  simp only [h]

/-- The state after an RPC took its place in `pendingChild`. -/
def registered (s : State) (core : Core) (port : Port) (requestId : ℤ) (call : CoreCall)
    (posted : Bool) : State :=
  { s with
    nextChildReqId := s.nextChildReqId + 1
    pendingChild := s.pendingChild ++ [(s.nextChildReqId,PendingChild.mk port requestId)] }.emit
      [.forward s.nextChildReqId core port requestId call posted]

/-- The state after a failed post took the RPC out of `pendingChild` again. -/
def unregistered (s : State) (core : Core) (port : Port) (requestId : ℤ) (call : CoreCall) :
    State :=
  { s.registered core port requestId call false with
    pendingChild := (s.registered core port requestId call false).pendingChild.filter
      (fun entry => entry.1 ≠ s.nextChildReqId) }

theorem forwardToCore_some {core : Core} (h : s.corePort = some core) (requestId : ℤ)
    (call : CoreCall) :
    s.forwardToCore port requestId call now throws =
      if throws then (s.unregistered core port requestId call).loseCore "postMessage failed" true now
      else s.registered core port requestId call true := by
  unfold forwardToCore
  simp only [h]
  cases throws <;> simp only [Bool.not_true,Bool.not_false,Bool.false_eq_true,↓reduceIte] <;>
    simp only [← h] <;> rfl

section Disconnect
variable (reason : String)

/-- The log line of a port that held the session. -/
def releaseNotice (s : State) (port : Port) (reason : String) : List Effect :=
  match s.arbiter.active with
  | some a =>
    if a.port = port then
      (s.ports.erase port).map
        (fun tab => .post tab (.log [s!"port disconnect ({reason}) released session {a.sid}"]))
    else []
  | none => []

/-- The state after a port left every table it was in. -/
def dropped (s : State) (port : Port) (reason : String) : State :=
  { s with
    ports := s.ports.erase port
    lastSeen := Function.update s.lastSeen port none
    arbiter := s.arbiter.disconnect port
    pendingChild := s.pendingChild.filter (fun entry => entry.2.port ≠ port) }.emit
      (s.releaseNotice port reason)

/-- The core goes with its host. -/
def hostLeft (s : State) (port : Port) (now : ℕ) : State :=
  if s.coreHostPort = some port then s.loseCore "host tab disconnected" true now else s

/-- An election goes on without the tab it was waiting for. -/
def electedLeft (s : State) (port : Port) (now : ℕ) : State :=
  if s.electionInFlight.any (fun e => e.tab = port) then
    { s with electionInFlight := none }.electNext now
  else s

theorem disconnectPort_eq (h : port ∈ s.ports) :
    s.disconnectPort port reason now =
      (((s.dropped port reason).hostLeft port now).electedLeft port now).emit [.closePort port] := by
  unfold disconnectPort dropped releaseNotice
  simp only [h,not_true_eq_false,↓reduceIte]
  cases ha : s.arbiter.active with
  | none =>
    rw [emit_nil]
    rfl
  | some a =>
    by_cases hp : a.port = port
    · simp only [hp,↓reduceIte]
      rfl
    · simp only [hp,↓reduceIte]
      rw [emit_nil]
      rfl

end Disconnect

end Rullama.Router.State
