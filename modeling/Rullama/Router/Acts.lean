import Rullama.Router.Frame
import Rullama.Router.Lease

/-! # Elementary acts

Every task of the router is a list of elementary acts. The marks of an act say how
it touches the docket and which message it serves; a task's marks are known from its
event, so an invariant of the acts becomes one of the runs.
-/
namespace Rullama.Router

/-- A notice, or a message to a core that no reply is owed for. -/
def Effect.isNotice : Effect → Bool
  | .post _ (.log _) | .post _ (.notify _) | .pingCore _ _ | .shutdown _ | .closePort _ => true
  | _ => false

/-- `aside` takes over the fields of its argument that no other act depends on. -/
inductive Act where
  | tell (effects : List Effect)
  | aside (t : State)
  | reply (port : Port) (requestId : ℤ) (outcome : Except String Result)
  | settle (r : Record)
  | join (port : Port)
  | leave (port : Port)
  | arbitrate (e : DocketEvent)
  | elect (tab : Port) (now : ℕ)
  | abandon
  | attach (host : Port)
  | stray
  | lose (reason : String)
  | forward (port : Port) (requestId : ℤ) (call : CoreCall) (kept : Bool)
  | relay (childReqId : ℕ) (outcome : Except String Payload)

/-- `serve` marks the router's own reply to a message, `forward` the message's way to
the core, not kept when the post throws, `attach` an offered core, and `settle` the reply
to a settled acquire promise. -/
inductive Mark where
  | docket (e : DocketEvent)
  | attach
  | settle (r : Record)
  | serve (port : Port) (requestId : ℤ)
  | forward (port : Port) (requestId : ℤ) (call : CoreCall) (kept : Bool)
  deriving DecidableEq, Repr

def Act.marks : Act → List Mark
  | .reply port requestId _ => [.serve port requestId]
  | .join port => [.docket (.connect port)]
  | .leave port => [.docket (.disconnect port)]
  | .arbitrate e => [.docket e]
  | .attach _ | .stray => [.attach]
  | .settle r => [.settle r]
  | .forward port requestId call kept => [.forward port requestId call kept]
  | _ => []

def DocketEvent.isArbitration : DocketEvent → Bool
  | .connect _ | .disconnect _ => false
  | _ => true

namespace State

def Allows (s : State) : Act → Prop
  | .tell effects => ∀ fx ∈ effects, fx.isNotice ∧
      ∀ port, fx = .post port (.notify .coreReady) → s.corePort.isSome
  | .reply _ _ outcome => (outcome = .error "core disconnected" → s.corePort = none) ∧
      ∀ sid, outcome ≠ .ok (.sid sid)
  | .settle (.rejected _ error) => error ≠ "core disconnected"
  | .join port => port = s.nextPort
  | .leave port => port ∈ s.ports
  | .arbitrate e => e.isArbitration ∧ s.docket.Enabled e
  | .attach host => s.corePort = none ∧ host ∈ s.ports
  | .stray => s.corePort.isSome
  | .forward port _ _ _ => s.corePort.isSome ∧ port ∈ s.ports
  | _ => True

def act (s : State) : Act → State
  | .tell effects => s.emit effects
  | .aside t =>
    { s with
      lastSeen := t.lastSeen
      loadedInfo := t.loadedInfo
      pendingUpdateVersion := t.pendingUpdateVersion
      updateInProgress := t.updateInProgress
      pingsAwaitingPong := t.pingsAwaitingPong
      nextPingId := t.nextPingId }
  | .reply port requestId outcome => s.reply port requestId outcome
  | .settle r => s.settle r
  | .join port => { s with nextPort := port + 1, ports := s.ports ++ [port] }
  | .leave port =>
    { s with
      ports := s.ports.erase port
      arbiter := s.arbiter.disconnect port
      pendingChild := s.pendingChild.filter (fun entry => entry.2.port ≠ port) }
  | .arbitrate e => { s with arbiter := (s.docket.next e).arbiter }
  | .elect tab now => s.electHost tab now
  | .abandon => { s with electionInFlight := none }
  | .attach host =>
    { s with
      nextCore := s.nextCore + 1
      corePort := some s.nextCore
      coreHostPort := some host
      electionInFlight := none
      openCores := s.nextCore :: s.openCores }.emit [.startCore s.nextCore host]
  | .stray => { s with nextCore := s.nextCore + 1 }.emit [.closeCore s.nextCore]
  | .lose reason => s.lost reason
  | .forward port requestId call kept =>
    match s.corePort with
    | some core =>
      if kept then s.registered core port requestId call true
      else s.unregistered core port requestId call
    | none => s
  | .relay childReqId outcome =>
    match s.pendingChild.lookup childReqId with
    | some p =>
      { s with
        pendingChild := s.pendingChild.filter (fun entry => entry.1 ≠ childReqId) }.answer
          childReqId p outcome
    | none => s

/-- What an act adds to the trace. -/
def emits (s : State) : Act → List Effect
  | .tell effects => effects
  | .reply port requestId outcome => s.posted port (.reply requestId outcome)
  | .settle (.granted w sid) => s.posted w.port (.reply w.requestId (.ok (.sid sid)))
  | .settle (.rejected w error) => s.posted w.port (.reply w.requestId (.error error))
  | .elect tab _ => if s.Settled then [] else s.posted tab (.notify .pleaseSpawnCore)
  | .attach host => [.startCore s.nextCore host]
  | .stray => [.closeCore s.nextCore]
  | .lose reason => s.broadcast (.log [s!"core: lost ({reason})"]) ++
      s.corePort.toList.map Effect.closeCore ++ s.pendingChild.flatMap s.rejected ++
      if s.loadedInfo.isSome then s.broadcast (.notify .modelFreed) else []
  | .forward port requestId call kept => s.corePort.toList.map
      (fun core => .forward s.nextChildReqId core port requestId call kept)
  | .relay childReqId outcome => (s.pendingChild.lookup childReqId).toList.flatMap
      (fun p => s.answered outcome (childReqId,p))
  | _ => []

theorem act_trace (s : State) (a : Act) : (s.act a).trace = s.trace ++ s.emits a := by
  cases a with
  | tell | attach | stray | lose => rfl
  | aside | join | leave | arbitrate | abandon => simp [act,emits]
  | reply port requestId outcome => simp [act,emits]
  | settle r => cases r <;> simp [act,emits,settle]
  | elect tab now => simp [act,emits,electHost_eq]
  | forward port requestId call kept =>
    simp only [act,emits]
    cases hc : s.corePort with
    | none => simp
    | some core => cases kept <;> rfl
  | relay childReqId outcome =>
    simp only [act,emits]
    cases hl : s.pendingChild.lookup childReqId with
    | none => simp
    | some p => simp [answered]

theorem act_reply (s : State) (port : Port) (requestId : ℤ) (outcome : Except String Result) :
    s.act (.reply port requestId outcome) = s.emit (s.emits (.reply port requestId outcome)) :=
  s.reply_eq port requestId outcome

theorem act_settle (s : State) (r : Record) : s.act (.settle r) = s.emit (s.emits (.settle r)) := by
  cases r <;> simp [act,settle,emits]

theorem act_elect (s : State) (tab : Port) (now : ℕ) :
    s.act (.elect tab now) =
      { s with
        electionInFlight := if s.Settled then s.electionInFlight else some ⟨tab,now⟩ }.emit
          (s.emits (.elect tab now)) := s.electHost_eq now tab

/-- Forwarding and relaying touch the tables of RPCs and the trace, nothing else. -/
structure SameFrame (s t : State) : Prop where
  ports : t.ports = s.ports
  arbiter : t.arbiter = s.arbiter
  corePort : t.corePort = s.corePort
  nextPort : t.nextPort = s.nextPort
  nextCore : t.nextCore = s.nextCore
  electionInFlight : t.electionInFlight = s.electionInFlight

theorem forward_frame (s : State) (port : Port) (requestId : ℤ) (call : CoreCall) (kept : Bool) :
    SameFrame s (s.act (.forward port requestId call kept)) := by
  simp only [act]
  split
  · next hc => split <;> exact ⟨rfl,rfl,rfl,rfl,rfl,rfl⟩
  · exact ⟨rfl,rfl,rfl,rfl,rfl,rfl⟩

theorem relay_frame (s : State) (childReqId : ℕ) (outcome : Except String Payload) :
    SameFrame s (s.act (.relay childReqId outcome)) := by
  simp only [act]
  split
  · rw [answer_eq]
    exact ⟨rfl,rfl,rfl,rfl,rfl,rfl⟩
  · exact ⟨rfl,rfl,rfl,rfl,rfl,rfl⟩

theorem emits_forward {s : State} {a : Act} (ha : s.Allows a) {id : ℕ} {core : Core} {port : Port}
    {requestId : ℤ} {call : CoreCall} {posted : Bool}
    (h : .forward id core port requestId call posted ∈ s.emits a) :
    a = .forward port requestId call posted ∧ id = s.nextChildReqId ∧ s.corePort = some core := by
  cases a with
  | tell effects => exact absurd (ha _ h).1 (by simp [Effect.isNotice])
  | forward tab n c kept =>
    obtain ⟨core',hcore,heq⟩ := List.mem_map.mp h
    obtain ⟨rfl,rfl,rfl,rfl,rfl,rfl⟩ := Effect.forward.inj heq
    exact ⟨rfl,rfl,by simpa using hcore⟩
  | settle r => cases r <;> simp [emits] at h
  | elect tab now =>
    simp only [emits] at h
    split at h <;> simp at h
  | lose reason =>
    simp only [emits] at h
    split at h <;> simp at h
  | aside | reply | join | leave | arbitrate | abandon | attach | stray | relay => simp [emits] at h

/-- `t` is what a list of acts with these marks makes of `s`. -/
inductive Performs : State → List Mark → State → Prop
  | nil (s : State) : Performs s [] s
  | cons {s t : State} {marks : List Mark} (a : Act) (ha : s.Allows a)
      (ht : Performs (s.act a) marks t) : Performs s (a.marks ++ marks) t

namespace Performs

theorem trans {s t u : State} {ms ns : List Mark} (h : Performs s ms t) (h' : Performs t ns u) :
    Performs s (ms ++ ns) u := by
  induction h with
  | nil => exact h'
  | cons a ha _ ih =>
    rw [List.append_assoc]
    exact .cons a ha (ih h')

theorem single {s : State} (a : Act) (ha : s.Allows a) : Performs s a.marks (s.act a) := by
  have h := Performs.cons a ha (.nil (s.act a))
  rwa [List.append_nil] at h

/-- Acts without marks may follow. -/
theorem quiet {s t u : State} {ms : List Mark} (h : Performs s ms t) (h' : Performs t [] u) :
    Performs s ms u := by
  have h'' := h.trans h'
  rwa [List.append_nil] at h''

/-- Acts without marks may come first. -/
theorem after {s t u : State} {ms : List Mark} (h : Performs s [] t) (h' : Performs t ms u) :
    Performs s ms u := h.trans h'

/-- What every act with marks of a kind keeps, a list of such acts keeps. -/
theorem invariant_of {I : State → Prop} {C : Mark → Prop}
    (hact : ∀ s a, I s → s.Allows a → (∀ m ∈ a.marks, C m) → I (s.act a)) {s t : State}
    {ms : List Mark} (h : Performs s ms t) (hC : ∀ m ∈ ms, C m) (hs : I s) : I t := by
  induction h with
  | nil => exact hs
  | cons a ha _ ih =>
    rw [List.forall_mem_append] at hC
    exact ih hC.2 (hact _ a hs ha hC.1)

theorem invariant {I : State → Prop} (hact : ∀ s a, I s → s.Allows a → I (s.act a))
    {s t : State} {ms : List Mark} (h : Performs s ms t) (hs : I s) : I t :=
  h.invariant_of (C := fun _ => True) (fun s a hI ha _ => hact s a hI ha) (fun _ _ => trivial) hs

end Performs

section Functions
variable (s : State) (port : Port) (now : ℕ) (throws : Bool)

/-- What the port table, the core's port and the docket satisfy in every reachable
state. -/
structure Sound (s : State) : Prop where
  nodup : s.ports.Nodup
  fresh : ∀ port ∈ s.ports, port < s.nextPort
  open_eq : s.openCores = s.corePort.toList
  fair : s.docket.Fair

theorem sound_initial : Sound .initial :=
  ⟨.nil,fun _ h => by simp [initial] at h,rfl,Docket.fair_initial []⟩

theorem performs_emit {effects : List Effect} (h : ∀ fx ∈ effects, fx.isNotice ∧
    ∀ port, fx = .post port (.notify .coreReady) → s.corePort.isSome) :
    Performs s [] (s.emit effects) := .single (.tell effects) h

theorem performs_aside {t : State} (h : s.act (.aside t) = t) : Performs s [] t := by
  have ha := Performs.single (s := s) (.aside t) trivial
  rwa [h] at ha

theorem performs_log (line : String) : Performs s [] (s.log line) := by
  apply s.performs_emit
  intro fx hfx
  obtain ⟨port,_,rfl⟩ := List.mem_map.mp hfx
  exact ⟨rfl,fun _ h => by simp at h⟩

theorem performs_notifyAll {n : Notify} (h : n = .coreReady → s.corePort.isSome) :
    Performs s [] (s.notifyAll (.notify n)) := by
  apply s.performs_emit
  intro fx hfx
  obtain ⟨port,_,rfl⟩ := List.mem_map.mp hfx
  refine ⟨rfl,fun _ he => h ?_⟩
  simp only [Effect.post.injEq,ToTab.notify.injEq] at he
  exact he.2

theorem performs_post {n : Notify} (h : n = .coreReady → s.corePort.isSome) :
    Performs s [] (s.post port (.notify n)) := by
  rw [post_eq]
  apply s.performs_emit
  intro fx hfx
  unfold posted at hfx
  split at hfx
  · obtain rfl := List.mem_singleton.mp hfx
    refine ⟨rfl,fun _ he => h ?_⟩
    simp only [Effect.post.injEq,ToTab.notify.injEq] at he
    exact he.2
  · simp at hfx

theorem performs_reply (requestId : ℤ) {outcome : Except String Result}
    (h : outcome = .error "core disconnected" → s.corePort = none)
    (hsid : ∀ sid, outcome ≠ .ok (.sid sid)) :
    Performs s [.serve port requestId] (s.reply port requestId outcome) :=
  .single (.reply port requestId outcome) ⟨h,hsid⟩

theorem electHost_performs (tab : Port) : Performs s [] (s.electHost tab now) :=
  .single (.elect tab now) trivial

theorem electNext_performs : Performs s [] (s.electNext now) := by
  unfold electNext
  cases s.nextElectableTab with
  | none => exact .nil s
  | some tab => exact s.electHost_performs now tab

theorem loseCore_performs (reason : String) (reelect : Bool) :
    Performs s [] (s.loseCore reason reelect now) := by
  rw [loseCore_eq]
  split
  · exact .nil s
  · have h : Performs s [] (s.lost reason) := .single (.lose reason) trivial
    cases reelect with
    | false => exact h
    | true => exact h.quiet (electNext_performs _ now)

theorem attachCore_performs (h : port ∈ s.ports) : Performs s [.attach] (s.attachCore port) := by
  cases hc : s.corePort with
  | some core =>
    have heq : s.attachCore port = s.act .stray := if_pos (by simp [hc])
    rw [heq]
    exact .single .stray (by simp [Allows,hc])
  | none =>
    have heq : s.attachCore port =
        ((s.act (.attach port)).log "core: host attached via tab port").notifyAll
          (.notify .coreReady) := if_neg (by simp [hc])
    rw [heq]
    have ha : Performs s [.attach] (s.act (.attach port)) := .single (.attach port) ⟨hc,h⟩
    exact (ha.quiet (performs_log _ _)).quiet (performs_notifyAll _ (fun _ => rfl))

theorem electFor_performs : Performs s [] (s.electFor port now) := by
  unfold electFor
  split
  · exact s.electHost_performs now port
  · split
    · exact s.electNext_performs now
    · exact .nil s

@[simp] theorem electHost_corePort (tab : Port) : (s.electHost tab now).corePort = s.corePort := by
  rw [electHost_eq]
  rfl

@[simp] theorem electNext_corePort : (s.electNext now).corePort = s.corePort := by
  rw [electNext_eq]
  rfl

@[simp] theorem electFor_corePort : (s.electFor port now).corePort = s.corePort := by
  unfold electFor
  split
  · simp
  · split <;> simp

theorem forwardToCore_performs (h : port ∈ s.ports) (requestId : ℤ) (call : CoreCall) :
    Performs s (if s.corePort.isSome then [.forward port requestId call !throws]
        else [.serve port requestId])
      (s.forwardToCore port requestId call now throws) := by
  cases hc : s.corePort with
  | none =>
    rw [forwardToCore_none s port now throws hc,Option.isSome_none,if_neg (by simp)]
    refine (s.electFor_performs port now).after (performs_reply _ port requestId (fun _ => ?_) (by simp))
    rw [electFor_corePort,hc]
  | some core =>
    rw [forwardToCore_some s port now throws hc,Option.isSome_some,if_pos rfl]
    have ha := Performs.single (s := s) (.forward port requestId call !throws)
      ⟨by simp [hc],h⟩
    simp only [act,hc] at ha
    cases throws with
    | false => exact ha
    | true => exact ha.quiet (loseCore_performs _ now _ true)

theorem pingSettled_performs (p : PingWaiter) {alive : Bool}
    (h : alive = true → s.corePort.isSome) : Performs s [] (s.pingSettled p alive now) := by
  cases alive with
  | true => exact s.performs_post p.tab (fun _ => h rfl)
  | false =>
    have hl := (s.performs_log "core: ping failed on new connection — re-electing").quiet
      (loseCore_performs _ now "ping failed on new connection" true)
    unfold pingSettled
    simp only [Bool.false_eq_true,↓reduceIte]
    split
    · exact hl.quiet (electHost_performs _ now p.tab)
    · exact hl

theorem finishPing_performs (pingId : ℕ) {ok : Bool} (h : ok = true → s.corePort.isSome) :
    Performs s [] (s.finishPing pingId ok now) := by
  unfold finishPing
  cases s.pingsAwaitingPong.lookup pingId with
  | none => exact .nil s
  | some p =>
    have ha : Performs s [] { s with
        pingsAwaitingPong := s.pingsAwaitingPong.filter (fun entry => entry.1 ≠ pingId) } :=
      s.performs_aside rfl
    exact ha.quiet (pingSettled_performs _ now p h)

theorem verifyCoreLive_performs (core : Core) :
    Performs s [] (s.verifyCoreLive core port now throws) := by
  have ha : Performs s [] { s with
      nextPingId := s.nextPingId + 1
      pingsAwaitingPong := s.pingsAwaitingPong ++ [(s.nextPingId,PingWaiter.mk core port)] } :=
    s.performs_aside rfl
  unfold verifyCoreLive
  cases throws with
  | true => exact ha.quiet (finishPing_performs _ now _ (by simp))
  | false => exact ha.quiet (performs_emit _ (by simp [Effect.isNotice]))

theorem onCoreMessage_performs (h : s.corePort.isSome) (msg : FromCore) :
    Performs s [] (s.onCoreMessage msg now) := by
  cases msg with
  | log args =>
    apply s.performs_emit
    intro fx hfx
    obtain ⟨port,_,rfl⟩ := List.mem_map.mp hfx
    exact ⟨rfl,fun _ _ => h⟩
  | modelLoaded info =>
    have ha : Performs s [] { s with loadedInfo := some info } := s.performs_aside rfl
    exact ha.quiet (performs_notifyAll _ (fun _ => h))
  | modelFreed =>
    have ha : Performs s [] { s with loadedInfo := none } := s.performs_aside rfl
    exact ha.quiet (performs_notifyAll _ (fun _ => h))
  | notify kind payload => exact s.performs_notifyAll (fun _ => h)
  | reply requestId outcome =>
    unfold onCoreMessage
    by_cases hp : (s.pingsAwaitingPong.lookup requestId).isSome
    · simp only [hp,↓reduceIte]
      exact s.finishPing_performs now requestId (fun _ => h)
    · simp only [hp,Bool.false_eq_true,↓reduceIte]
      have ha := Performs.single (s := s) (.relay requestId outcome) trivial
      cases hl : s.pendingChild.lookup requestId with
      | none => exact .nil s
      | some p =>
        simp only [act,hl] at ha
        exact ha

end Functions

end State
end Rullama.Router
