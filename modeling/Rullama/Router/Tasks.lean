import Rullama.Router.Acts

/-! # Tasks as acts

Every event's task and its microtasks perform acts whose marks are read off the
event. The docket follows its own machine along these marks.
-/
namespace Rullama.Router
open Transition

def Mark.docket? : Mark → Option DocketEvent
  | .docket e => some e
  | _ => none

namespace State

/-- The RPC goes to the core and not back to its sender. -/
def Forwards (s : State) (port : Port) (call : CoreCall) : Prop :=
  s.corePort.isSome ∧
    (call.name.isStateful = true → s.arbiter.checkSession port call.sid = none)

instance (s : State) (port : Port) (call : CoreCall) : Decidable (s.Forwards port call) :=
  inferInstanceAs (Decidable (_ ∧ _))

def marks (s : State) : Event → List Mark
  | .connect _ _ => [.docket (.connect s.nextPort)]
  | .message port msg _ throws =>
    match msg.request with
    | .disconnect => [.serve port msg.requestId,.docket (.disconnect port)]
    | .acquireSession abortToken => [.docket (.acquire (abortToken.getD "") port msg.requestId)]
    | .releaseSession sid => [.docket (.release sid.toNumber port),.serve port msg.requestId]
    | .cancelAcquire abortToken =>
      [.docket (.cancel (abortToken.getD "undefined")),.serve port msg.requestId]
    | .attachCore true => [.attach,.serve port msg.requestId]
    | .core call =>
      if s.Forwards port call then [.forward port msg.requestId call !throws]
      else [.serve port msg.requestId]
    | _ => [.serve port msg.requestId]
  | .heartbeat now _ => (s.ports.filter (s.isStale now)).map (fun port => .docket (.disconnect port))
  | _ => []

theorem marks_docket (s : State) (e : Event) :
    (s.marks e).filterMap Mark.docket? = s.docketEvents e := by
  cases e with
  | message port msg now throws =>
    obtain ⟨requestId,request⟩ := msg
    cases request with
    | attachCore transferred => cases transferred <;> rfl
    | core call =>
      simp only [marks,docketEvents]
      split <;> rfl
    | _ => rfl
  | heartbeat now later =>
    simp only [marks,docketEvents,List.filterMap_map]
    exact congrFun List.filterMap_eq_map _
  | connect | coreMessage | pingTimeout => rfl

/-- Only a message of a tab's RPC that passes the checks is forwarded. -/
theorem marks_forward {s : State} {e : Event} {port : Port} {requestId : ℤ} {call : CoreCall}
    {kept : Bool} (h : .forward port requestId call kept ∈ s.marks e) :
    ∃ now throws, e = .message port ⟨requestId,.core call⟩ now throws ∧
      s.Forwards port call ∧ kept = !throws := by
  cases e with
  | message tab msg now throws =>
    obtain ⟨requestId,request⟩ := msg
    cases request with
    | attachCore transferred => cases transferred <;> simp [marks] at h
    | core call' =>
      simp only [marks] at h
      split at h
      · next hf =>
        obtain ⟨rfl,rfl,rfl,rfl⟩ := Mark.forward.inj (List.mem_singleton.mp h)
        exact ⟨now,throws,rfl,hf,rfl⟩
      · simp at h
    | _ => simp [marks] at h
  | _ => simp [marks] at h

section Acts
variable {s : State} {a : Act}

theorem act_docket (ha : s.Allows a) :
    (s.act a).docket = Docket.machine.exec s.docket (a.marks.filterMap Mark.docket?) := by
  cases a with
  | tell | aside | abandon | lose | join | leave | attach | stray => rfl
  | arbitrate e => cases e <;> first | rfl | simp [Allows,DocketEvent.isArbitration] at ha
  | reply port requestId outcome =>
    simp only [act,reply_eq]
    rfl
  | settle r => cases r <;> simp only [act,settle,reply_eq] <;> rfl
  | elect tab now =>
    simp only [act,electHost_eq]
    rfl
  | forward port requestId call kept =>
    simp only [act]
    cases s.corePort with
    | none => rfl
    | some core => cases kept <;> rfl
  | relay childReqId outcome =>
    simp only [act]
    cases s.pendingChild.lookup childReqId with
    | none => rfl
    | some p =>
      simp only [answer_eq]
      rfl

theorem allows_docket (hs : Sound s) (ha : s.Allows a) :
    Docket.machine.Run s.docket (a.marks.filterMap Mark.docket?) := by
  cases a with
  | join port =>
    obtain rfl : port = s.nextPort := ha
    exact ⟨fun hp => Nat.lt_irrefl _ (hs.fresh _ hp),trivial⟩
  | leave port => exact ⟨ha,trivial⟩
  | arbitrate e => exact ⟨ha.2,trivial⟩
  | tell | aside | reply | settle | elect | abandon | attach | stray | lose | forward | relay =>
    exact trivial

theorem act_fair (hs : Sound s) (ha : s.Allows a) : (s.act a).docket.Fair := by
  rw [act_docket ha]
  exact Docket.run_fair (allows_docket hs ha) hs.fair

theorem act_sound (hs : Sound s) (ha : s.Allows a) : Sound (s.act a) := by
  have hfair := act_fair hs ha
  obtain ⟨hn,hf,ho,hs⟩ := hs
  cases a with
  | tell | aside | abandon => exact ⟨hn,hf,ho,hfair⟩
  | arbitrate e => exact ⟨hn,hf,ho,hfair⟩
  | reply port requestId outcome =>
    simp only [act,reply_eq] at hfair ⊢
    exact ⟨hn,hf,ho,hfair⟩
  | settle r =>
    cases r <;> simp only [act,settle,reply_eq] at hfair ⊢ <;> exact ⟨hn,hf,ho,hfair⟩
  | join port =>
    obtain rfl : port = s.nextPort := ha
    refine ⟨?_,?_,ho,hfair⟩
    · refine List.nodup_append.mpr ⟨hn,List.pairwise_singleton _ _,?_⟩
      rintro p hp q hq rfl
      exact Nat.ne_of_lt (hf p hp) (List.mem_singleton.mp hq)
    · intro p hp
      simp only [act,List.mem_append,List.mem_singleton] at hp ⊢
      rcases hp with hp | rfl
      · exact Nat.lt_succ_of_lt (hf p hp)
      · exact Nat.lt_succ_self _
  | leave port => exact ⟨hn.erase port,fun p hp => hf p (List.mem_of_mem_erase hp),ho,hfair⟩
  | elect tab now =>
    simp only [act,electHost_eq] at hfair ⊢
    exact ⟨hn,hf,ho,hfair⟩
  | attach host =>
    refine ⟨hn,hf,?_,hfair⟩
    simp only [act,emit_openCores,emit_corePort,ho,ha.1]
    rfl
  | stray => exact ⟨hn,hf,ho,hfair⟩
  | lose reason =>
    refine ⟨hn,hf,?_,hfair⟩
    simp only [act,lost,emit_openCores,emit_corePort,ho]
    cases s.corePort <;> simp
  | forward port requestId call kept =>
    simp only [act] at hfair ⊢
    cases hc : s.corePort with
    | none => exact ⟨hn,hf,ho,hs⟩
    | some core => cases kept <;> exact ⟨hn,hf,ho,hs⟩
  | relay childReqId outcome =>
    simp only [act]
    cases s.pendingChild.lookup childReqId with
    | none => exact ⟨hn,hf,ho,hs⟩
    | some p =>
      simp only [answer_eq]
      exact ⟨hn,hf,ho,hs⟩

end Acts

namespace Performs
variable {s t : State} {ms : List Mark}

theorem sound (h : Performs s ms t) (hs : Sound s) : Sound t :=
  h.invariant (fun _ _ => act_sound) hs

theorem docket_eq (h : Performs s ms t) :
    t.docket = Docket.machine.exec s.docket (ms.filterMap Mark.docket?) := by
  induction h with
  | nil => rfl
  | cons a ha _ ih => rw [List.filterMap_append,Machine.exec_append,← act_docket ha,ih]

theorem docket_run (h : Performs s ms t) (hs : Sound s) :
    Docket.machine.Run s.docket (ms.filterMap Mark.docket?) := by
  induction h with
  | nil => exact trivial
  | cons a ha _ ih =>
    rw [List.filterMap_append,Machine.run_append,← act_docket ha]
    exact ⟨allows_docket hs ha,ih (act_sound hs ha)⟩

/-- What holds of all that acts with marks of a kind emit, holds of the new trace. -/
theorem effects_of {I : State → Prop} {C : Mark → Prop} {Q : Effect → Prop}
    (hact : ∀ s a, I s → s.Allows a → (∀ m ∈ a.marks, C m) →
      I (s.act a) ∧ ∀ fx ∈ s.emits a, Q fx)
    (h : Performs s ms t) (hC : ∀ m ∈ ms, C m) (hs : I s) :
    ∃ effects, t.trace = s.trace ++ effects ∧ ∀ fx ∈ effects, Q fx := by
  induction h with
  | nil s => exact ⟨[],(List.append_nil _).symm,fun _ h => by simp at h⟩
  | cons a ha _ ih =>
    rw [List.forall_mem_append] at hC
    obtain ⟨hI,hQ⟩ := hact _ a hs ha hC.1
    obtain ⟨effects,htrace,hall⟩ := ih hC.2 hI
    rw [act_trace,List.append_assoc] at htrace
    exact ⟨_,htrace,List.forall_mem_append.mpr ⟨hQ,hall⟩⟩

end Performs

section Tasks
variable (s : State) (port : Port) (now : ℕ) (throws : Bool)

@[simp] theorem electNext_lastSeen : (s.electNext now).lastSeen = s.lastSeen := by
  rw [electNext_eq]
  rfl

@[simp] theorem loseCore_lastSeen (reason : String) (reelect : Bool) :
    (s.loseCore reason reelect now).lastSeen = s.lastSeen := by
  rw [loseCore_eq]
  split
  · rfl
  · cases reelect <;> simp [lost]

theorem disconnectPort_lastSeen (h : port ∈ s.ports) (reason : String) :
    (s.disconnectPort port reason now).lastSeen = Function.update s.lastSeen port none := by
  rw [disconnectPort_eq s port now reason h]
  unfold electedLeft hostLeft
  split <;> split <;> simp [dropped]

theorem disconnectPort_performs (h : port ∈ s.ports) (reason : String) :
    Performs s [.docket (.disconnect port)] (s.disconnectPort port reason now) := by
  rw [disconnectPort_eq s port now reason h]
  have hseen : Performs s [] { s with lastSeen := Function.update s.lastSeen port none } :=
    s.performs_aside rfl
  have hleave := hseen.after (.single (.leave port) h)
  have hdrop : Performs s [.docket (.disconnect port)] (s.dropped port reason) := by
    refine hleave.quiet (performs_emit _ (fun fx hfx => ?_))
    unfold releaseNotice at hfx
    split at hfx
    · split at hfx
      · obtain ⟨tab,_,rfl⟩ := List.mem_map.mp hfx
        exact ⟨rfl,fun _ h => by simp at h⟩
      · simp at hfx
    · simp at hfx
  have hhost : ∀ t : State, Performs t [] (t.hostLeft port now) := by
    intro t
    unfold hostLeft
    split
    · exact t.loseCore_performs now _ true
    · exact .nil t
  have helected : ∀ t : State, Performs t [] (t.electedLeft port now) := by
    intro t
    unfold electedLeft
    split
    · exact Performs.after (.single .abandon trivial) (electNext_performs _ now)
    · exact .nil t
  refine ((hdrop.quiet (hhost _)).quiet (helected _)).quiet (performs_emit _ ?_)
  simp [Effect.isNotice]

theorem disconnectPort_ports (h : port ∈ s.ports) (reason : String) :
    (s.disconnectPort port reason now).ports = s.ports.erase port :=
  congrArg Docket.ports (s.disconnectPort_performs port now h reason).docket_eq

/-- The loop of the heartbeat from any point on: `rest` is what it has yet to visit. -/
theorem reapLoop_performs {rest : List Port} (hn : rest.Nodup) (hr : ∀ p ∈ rest, p ∈ s.ports) :
    Performs s ((rest.filter (s.isStale now)).map (fun p => .docket (.disconnect p)))
      (rest.foldl (fun s p =>
        if s.isStale now p then s.disconnectPort p "heartbeat timeout" now else s) s) := by
  induction rest generalizing s with
  | nil => exact .nil s
  | cons p rest ih =>
    obtain ⟨hp,hn⟩ := List.nodup_cons.mp hn
    rw [List.forall_mem_cons] at hr
    rw [List.foldl_cons]
    by_cases hst : s.isStale now p
    · have hports := s.disconnectPort_ports p now hr.1 "heartbeat timeout"
      have hstale : ∀ q ∈ rest,
          (s.disconnectPort p "heartbeat timeout" now).isStale now q = s.isStale now q := by
        intro q hq
        unfold isStale
        rw [disconnectPort_lastSeen s p now hr.1,Function.update_of_ne (by rintro rfl; exact hp hq)]
      have hin : ∀ q ∈ rest, q ∈ (s.disconnectPort p "heartbeat timeout" now).ports := by
        intro q hq
        rw [hports]
        exact (List.mem_erase_of_ne (by rintro rfl; exact hp hq)).mpr (hr.2 q hq)
      have h := ih _ hn hin
      rw [List.filter_congr hstale] at h
      rw [if_pos hst,List.filter_cons_of_pos hst]
      exact (s.disconnectPort_performs p now hr.1 _).trans h
    · rw [if_neg hst,List.filter_cons_of_neg hst]
      exact ih s hn hr.2

theorem reap_performs (hs : Sound s) : Performs s
    ((s.ports.filter (s.isStale now)).map (fun p => .docket (.disconnect p))) (s.reap now) :=
  s.reapLoop_performs now hs.nodup (fun _ hp => hp)

theorem electionTimeout_performs : Performs s [] (s.electionTimeout now) := by
  unfold electionTimeout
  cases s.electionInFlight with
  | none => exact .nil s
  | some election =>
    simp only
    split
    · have ha := (s.performs_log "election: tab did not attachCore within 15000ms").quiet
        (.single .abandon trivial)
      split
      · rw [ite_self]
        exact ha.quiet (electHost_performs _ now _)
      · exact ha
    · exact .nil s

theorem onconnect_performs :
    Performs s [.docket (.connect s.nextPort)] (s.onconnect now throws) := by
  have hjoin : Performs s [.docket (.connect s.nextPort)] (s.act (.join s.nextPort)) :=
    .single (.join s.nextPort) rfl
  have hseen : Performs s [.docket (.connect s.nextPort)] { s with
      nextPort := s.nextPort + 1
      ports := s.ports ++ [s.nextPort]
      lastSeen := Function.update s.lastSeen s.nextPort (some now) } :=
    hjoin.quiet (performs_aside _ rfl)
  have hpost := hseen.quiet (performs_post _ s.nextPort (n := .metaInfo s.loadedInfo
    s.pendingUpdateVersion) (by simp))
  unfold onconnect
  simp only
  split
  · exact hpost.quiet (verifyCoreLive_performs _ _ now throws _)
  · split
    · exact hpost.quiet (electHost_performs _ now _)
    · exact hpost

theorem applyUpdate_performs (requestId : ℤ) (version : Option String) :
    Performs s [.serve port requestId] (s.applyUpdate port requestId version throws) := by
  unfold applyUpdate
  split
  · exact s.performs_reply port requestId (by simp) (by simp)
  · have ha : Performs s [] { s with updateInProgress := true } := s.performs_aside rfl
    have hn := ha.quiet (performs_notifyAll _
      (n := .applyingUpdate (s.pendingUpdateVersion.getD (version.getD ""))) (by simp))
    simp only
    split
    · split
      · exact (hn.quiet (performs_log _ _)).after (performs_reply _ port requestId (by simp) (by simp))
      · refine (hn.quiet (performs_emit _ ?_)).after (performs_reply _ port requestId (by simp) (by simp))
        simp [Effect.isNotice]
    · exact hn.after (performs_reply _ port requestId (by simp) (by simp))

theorem checkSession_ne_disconnected (sid : SidArg) {err : String}
    (h : s.arbiter.checkSession port sid = some err) : err ≠ "core disconnected" := by
  unfold Arbiter.checkSession at h
  rintro rfl
  split at h
  · simp at h
  · simp only at h
    split at h
    · have h := congrArg (Option.map (fun text : String => text.toList.head?)) h
      simp at h
      rcases h with h | ⟨h,_⟩ <;> exact absurd h (by decide)
    · split at h
      · simp at h
      · simp at h

theorem call_performs (h : port ∈ s.ports) (requestId : ℤ) (call : CoreCall) :
    Performs s (s.marks (.message port ⟨requestId,.core call⟩ now throws))
      (match if call.name.isStateful then s.arbiter.checkSession port call.sid else none with
        | some err => s.reply port requestId (.error err)
        | none => s.forwardToCore port requestId call now throws) := by
  cases hcheck : if call.name.isStateful then s.arbiter.checkSession port call.sid else none with
  | some err =>
    have hst : call.name.isStateful = true := by
      by_contra hst
      simp [hst] at hcheck
    rw [if_pos hst] at hcheck
    have hno : ¬ s.Forwards port call := by
      rintro ⟨_,hnone⟩
      simp [hnone hst] at hcheck
    simp only [marks,if_neg hno]
    refine s.performs_reply port requestId (fun herr => ?_) (by simp)
    exact absurd (Except.error.inj herr) (s.checkSession_ne_disconnected port call.sid hcheck)
  | none =>
    have hiff : s.Forwards port call ↔ s.corePort.isSome := by
      refine ⟨fun hf => hf.1,fun hc => ⟨hc,fun hst => ?_⟩⟩
      rwa [if_pos hst] at hcheck
    simp only [marks,hiff]
    exact s.forwardToCore_performs port now throws h requestId call

theorem serve_performs (h : port ∈ s.ports) (msg : Message) :
    Performs s (s.marks (.message port msg now throws)) (s.serve port msg now throws) := by
  obtain ⟨requestId,request⟩ := msg
  cases request with
  | ping => exact s.performs_reply port requestId (by simp) (by simp)
  | disconnect =>
    refine (s.performs_reply port requestId (by simp) (by simp)).trans (disconnectPort_performs _ port now ?_ _)
    rw [reply_eq]
    exact h
  | teardownCore =>
    unfold serve
    simp only
    split
    · exact (s.loseCore_performs now _ false).after (performs_reply _ port requestId (by simp) (by simp))
    · exact s.performs_reply port requestId (by simp) (by simp)
  | acquireSession abortToken =>
    exact .single (.arbitrate (.acquire (abortToken.getD "") port requestId)) ⟨rfl,h⟩
  | releaseSession sid =>
    exact (Performs.single (.arbitrate (.release sid.toNumber port)) ⟨rfl,h⟩).trans
      (performs_reply _ port requestId (by simp) (by simp))
  | cancelAcquire abortToken =>
    exact (Performs.single (.arbitrate (.cancel (abortToken.getD "undefined"))) ⟨rfl,trivial⟩).trans
      (performs_reply _ port requestId (by simp) (by simp))
  | currentMeta => exact s.performs_reply port requestId (by simp) (by simp)
  | updateAvailable version =>
    unfold serve
    simp only
    split
    · exact s.performs_reply port requestId (by simp) (by simp)
    · have hset : Performs s [] { s with pendingUpdateVersion := some (version.getD "") } :=
        s.performs_aside rfl
      exact (hset.quiet (performs_notifyAll _ (n := .updateAvailable (version.getD ""))
        (by simp))).after (performs_reply _ port requestId (by simp) (by simp))
  | applyUpdate version => exact s.applyUpdate_performs port throws requestId version
  | attachCore transferred =>
    cases transferred with
    | true => exact (s.attachCore_performs port h).trans (performs_reply _ port requestId (by simp) (by simp))
    | false => exact s.performs_reply port requestId (by simp) (by simp)
  | core call => exact s.call_performs port now throws h requestId call

theorem marks_seen (lastSeen : Port → Option ℕ) (msg : Message) :
    { s with lastSeen := lastSeen }.marks (.message port msg now throws) =
      s.marks (.message port msg now throws) := by
  obtain ⟨requestId,request⟩ := msg
  cases request with
  | attachCore transferred => cases transferred <;> rfl
  | _ => rfl

theorem handleRequest_performs (h : port ∈ s.ports) (msg : Message) :
    Performs s (s.marks (.message port msg now throws)) (s.handleRequest port msg now throws) := by
  rw [← marks_seen s port now throws (Function.update s.lastSeen port (some now)) msg]
  have hseen : Performs s [] { s with lastSeen := Function.update s.lastSeen port (some now) } :=
    s.performs_aside rfl
  exact hseen.after (serve_performs { s with lastSeen := Function.update s.lastSeen port (some now) }
    port now throws h msg)

end Tasks

section Microtasks
variable (s : State)

/-- Errors of rejected acquire promises. -/
def PoliteRecord : Record → Prop
  | .rejected _ error => error ≠ "core disconnected"
  | _ => True

theorem settleAll_performs {records : List Record} (h : ∀ r ∈ records, PoliteRecord r) :
    Performs s (records.map .settle) (records.foldl settle s) := by
  induction records generalizing s with
  | nil => exact .nil s
  | cons r rest ih =>
    rw [List.forall_mem_cons] at h
    refine (Performs.single (s := s) (.settle r) ?_).trans (ih _ h.2)
    cases r with
    | rejected w error => exact h.1
    | granted | ended => trivial

/-- Microtasks only post the replies of the records they settle. -/
theorem runMicrotasks_eq (n : ℕ) : s.runMicrotasks n =
    s.emit ((s.arbiter.history.drop n).flatMap (fun r => s.emits (.settle r))) := by
  have hfold : ∀ (rs : List Record) (fx : List Effect), rs.foldl settle (s.emit fx) =
      s.emit (fx ++ rs.flatMap (fun r => s.emits (.settle r))) := by
    intro rs
    induction rs with
    | nil => simp
    | cons r rs ih =>
      intro fx
      have hsettle : (s.emit fx).settle r = s.emit (fx ++ s.emits (.settle r)) := by
        rw [← emit_emit]
        exact (s.emit fx).act_settle r
      rw [List.foldl_cons,hsettle,ih,List.flatMap_cons,List.append_assoc]
  have h := hfold (s.arbiter.history.drop n) []
  rwa [emit_nil,List.nil_append] at h

@[simp] theorem runMicrotasks_corePort (n : ℕ) : (s.runMicrotasks n).corePort = s.corePort := by
  rw [runMicrotasks_eq]
  rfl

@[simp] theorem runMicrotasks_electionInFlight (n : ℕ) :
    (s.runMicrotasks n).electionInFlight = s.electionInFlight := by
  rw [runMicrotasks_eq]
  rfl

theorem runMicrotasks_performs (hs : Sound s) (n : ℕ) :
    Performs s ((s.arbiter.history.drop n).map .settle) (s.runMicrotasks n) := by
  apply s.settleAll_performs
  intro r hr
  cases r with
  | rejected w error => exact hs.fair.orderly.polite w error (List.mem_of_mem_drop hr)
  | granted | ended => trivial

end Microtasks

section Next
variable {s : State} {e : Event}

theorem task_performs (hs : Sound s) (he : Enabled s e) : Performs s (s.marks e) (s.task e) := by
  cases e with
  | connect now throws => exact s.onconnect_performs now throws
  | message port msg now throws => exact s.handleRequest_performs port now throws he msg
  | coreMessage core msg now =>
    have hopen : core ∈ s.corePort.toList := hs.open_eq ▸ he
    exact s.onCoreMessage_performs now (by cases h : s.corePort <;> simp [h] at hopen ⊢) msg
  | pingTimeout pingId now => exact s.finishPing_performs now pingId (by simp)
  | heartbeat now later => exact (s.reap_performs now hs).quiet (electionTimeout_performs _ later)

/-- The acquire promises a step settles. -/
def settled (s : State) (e : Event) : List Record :=
  (s.task e).arbiter.history.drop s.arbiter.history.length

/-- A step of the router performs acts with the marks of its event, and settles. -/
theorem next_performs (hs : Sound s) (he : Enabled s e) :
    Performs s (s.marks e ++ (s.settled e).map .settle) (s.next e) :=
  have htask := task_performs hs he
  htask.trans (runMicrotasks_performs _ (htask.sound hs) _)

theorem forall_marks {C : Mark → Prop} (hC : ∀ m ∈ s.marks e, C m) (hsettle : ∀ r, C (.settle r)) :
    ∀ m ∈ s.marks e ++ (s.settled e).map .settle, C m := by
  refine List.forall_mem_append.mpr ⟨hC,fun m hm => ?_⟩
  obtain ⟨r,_,rfl⟩ := List.mem_map.mp hm
  exact hsettle r

theorem settled_docket (records : List Record) :
    (records.map Mark.settle).filterMap Mark.docket? = [] := by
  rw [List.filterMap_map]
  exact List.filterMap_eq_nil_iff.mpr (fun _ _ => rfl)

theorem next_sound (hs : Sound s) (he : Enabled s e) : Sound (s.next e) :=
  (next_performs hs he).sound hs

theorem reachable_sound (h : machine.Reachable .initial s) : Sound s :=
  h.invariant (I := Sound) (fun _ _ hs he => next_sound hs he) sound_initial

/-- What a step adds to the trace. -/
def effects (s : State) (e : Event) : List Effect := (s.next e).trace.drop s.trace.length

theorem effects_of_acts {I : State → Prop} {C : Mark → Prop} {Q : Effect → Prop}
    (hact : ∀ s a, I s → s.Allows a → (∀ m ∈ a.marks, C m) →
      I (s.act a) ∧ ∀ fx ∈ s.emits a, Q fx)
    (hs : Sound s) (he : Enabled s e) (hC : ∀ m ∈ s.marks e, C m) (hsettle : ∀ r, C (.settle r))
    (hI : I s) :
    (s.next e).trace = s.trace ++ s.effects e ∧ ∀ fx ∈ s.effects e, Q fx := by
  obtain ⟨effects,htrace,hall⟩ := (next_performs hs he).effects_of hact (forall_marks hC hsettle) hI
  have heq : s.effects e = effects := by rw [State.effects,htrace,List.drop_left]
  rw [heq]
  exact ⟨htrace,hall⟩

theorem next_trace (hs : Sound s) (he : Enabled s e) :
    (s.next e).trace = s.trace ++ s.effects e := by
  have hact : ∀ (s : State) (a : Act), True → s.Allows a → (∀ m ∈ a.marks, True) →
      True ∧ ∀ fx ∈ s.emits a, True := by
    intro s a _ _ _
    exact ⟨trivial,fun _ _ => trivial⟩
  have hboth := effects_of_acts (I := fun _ => True) (C := fun _ => True) (Q := fun _ => True)
    hact hs he (fun _ _ => trivial) (fun _ => trivial) trivial
  exact hboth.1

/-- The docket goes along its own machine. -/
theorem next_docket (hs : Sound s) (he : Enabled s e) :
    (s.next e).docket = Docket.machine.exec s.docket (s.docketEvents e) ∧
      Docket.machine.Run s.docket (s.docketEvents e) := by
  have h := next_performs hs he
  have hmarks : (s.marks e ++ (s.settled e).map Mark.settle).filterMap Mark.docket? =
      s.docketEvents e := by
    rw [List.filterMap_append,settled_docket,List.append_nil,marks_docket]
  rw [← hmarks]
  exact ⟨h.docket_eq,h.docket_run hs⟩

/-- An invariant of the acts is one of the router. -/
theorem reachable_invariant {I : State → Prop}
    (hact : ∀ s a, Sound s → I s → s.Allows a → I (s.act a))
    (h : machine.Reachable .initial s) (hI : I .initial) : I s := by
  have hboth : Sound s ∧ I s := by
    refine h.invariant (I := fun s => Sound s ∧ I s) (fun s e hs he => ?_) ⟨sound_initial,hI⟩
    refine (next_performs hs.1 he).invariant (I := fun s => Sound s ∧ I s) (fun s a hs ha => ?_) hs
    exact ⟨act_sound hs.1 ha,hact s a hs.1 hs.2 ha⟩
  exact hboth.2

end Next

end State
end Rullama.Router
