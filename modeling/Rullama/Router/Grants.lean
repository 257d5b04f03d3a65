import Rullama.Router.Tokens

/-! # How a grant reaches its tab

Who is granted a session by a docket event, how the holder changes over a step, and that
the replies with session ids are those of the grants, posted last and in order.
-/
namespace Rullama.Router
open Transition

namespace Docket

/-- Whom an event hands the session to, by port and requestId. -/
def successor (d : Docket) : DocketEvent → Option (Port × ℤ)
  | .acquire _ port requestId => if d.arbiter.active = none then some (port,requestId) else none
  | .release sid port =>
    match d.arbiter.active,d.arbiter.queue with
    | some a,w :: _ => if some a.sid = sid ∧ a.port = port then some (w.port,w.requestId) else none
    | _,_ => none
  | .disconnect port =>
    match d.arbiter.active,d.arbiter.queue with
    | some a,w :: _ => if a.port = port then some (w.port,w.requestId) else none
    | _,_ => none
  | _ => none

theorem clear_wakeNext_granted {s : Arbiter} {a : ActiveSession} {w : Waiter} {sid : ℕ}
    (h : .granted w sid ∈ (s.clear a).wakeNext.history) :
    .granted w sid ∈ s.history ∨ s.queue.head? = some w := by
  cases hq : s.queue with
  | nil =>
    simp only [Arbiter.wakeNext,Arbiter.clear,hq,List.mem_append,List.mem_singleton,
      reduceCtorEq,or_false] at h
    exact .inl h
  | cons v rest =>
    simp only [Arbiter.wakeNext,Arbiter.clear,Arbiter.grant,hq,List.mem_append,
      List.mem_singleton,reduceCtorEq,or_false] at h
    apply h.imp_right
    intro h
    obtain ⟨rfl,_⟩ := Record.granted.inj h
    rfl

/-- A grant in the history is an old one or goes to the successor. -/
theorem next_granted {d : Docket} {e : DocketEvent} {w : Waiter} {sid : ℕ}
    (h : .granted w sid ∈ (d.next e).arbiter.history) :
    .granted w sid ∈ d.arbiter.history ∨ d.successor e = some (w.port,w.requestId) := by
  cases e with
  | connect port => exact .inl h
  | acquire abortToken port requestId =>
    unfold next Arbiter.acquireSession at h
    cases ha : d.arbiter.active with
    | none =>
      simp only [ha,Arbiter.grant,List.mem_append,List.mem_singleton] at h
      apply h.imp_right
      intro h
      obtain ⟨rfl,_⟩ := Record.granted.inj h
      simp [successor,ha]
    | some a =>
      simp only [ha] at h
      exact .inl h
  | release sid' port =>
    simp only [next,Arbiter.releaseSession] at h
    split at h
    · exact .inl h
    · next a ha =>
      split at h
      · exact .inl h
      · next hmatch =>
        apply (clear_wakeNext_granted h).imp_right
        intro hw
        obtain ⟨rest,hq⟩ := List.head?_eq_some_iff.mp hw
        simp only [not_or,ne_eq,not_not] at hmatch
        simp only [successor,ha,hq,if_pos hmatch]
  | cancel abortToken =>
    simp only [next,Arbiter.cancelAcquire] at h
    split at h
    · exact .inl h
    · exact .inl (by simpa using h)
  | disconnect port =>
    simp only [next,Arbiter.disconnect] at h
    have hpurge : ∀ queue, .granted w sid ∉ (Arbiter.purge port queue).2 := by
      intro queue hmem
      rw [Arbiter.purge_records,List.mem_reverse] at hmem
      obtain ⟨_,_,hw⟩ := List.mem_map.mp hmem
      simp at hw
    rw [List.mem_append] at h
    have h := h.resolve_right (hpurge _)
    split at h
    · next a ha =>
      split at h
      · next hport =>
        apply (clear_wakeNext_granted h).imp_right
        intro hw
        obtain ⟨rest,hq⟩ := List.head?_eq_some_iff.mp hw
        simp only [successor,ha,hq,if_pos hport]
      · exact .inl h
    · exact .inl h

theorem exec_granted {d : Docket} {es : List DocketEvent} {w : Waiter} {sid : ℕ}
    (h : .granted w sid ∈ (machine.exec d es).arbiter.history) :
    .granted w sid ∈ d.arbiter.history ∨
      ∃ q ∈ machine.trail d es, q.1.successor q.2 = some (w.port,w.requestId) := by
  induction es generalizing d with
  | nil => exact .inl h
  | cons e es ih =>
    rcases ih h with h | ⟨q,hq,hsucc⟩
    · rcases next_granted h with h | h
      · exact .inl h
      · exact .inr ⟨(d,e),List.mem_cons_self,h⟩
    · exact .inr ⟨q,List.mem_cons_of_mem _ hq,hsucc⟩

/-- Who waits or waited came in by an acquire of its own port and requestId. -/
theorem exec_waiters {d : Docket} {es : List DocketEvent} {w : Waiter}
    (h : w ∈ (machine.exec d es).arbiter.waiters) :
    w ∈ d.arbiter.waiters ∨ ∃ abortToken, .acquire abortToken w.port w.requestId ∈ es := by
  induction es generalizing d with
  | nil => exact .inl h
  | cons e es ih =>
    rcases ih h with h | ⟨token,h⟩
    · rcases List.mem_append.mp ((next_waiters d e).mem_iff.mp h) with h | h
      · cases e with
        | acquire token port requestId =>
          obtain rfl := List.mem_singleton.mp h
          exact .inr ⟨token,List.mem_cons_self⟩
        | connect | release | cancel | disconnect => simp [DocketEvent.newWaiters] at h
      · exact .inl h
    · exact .inr ⟨token,List.mem_cons_of_mem _ h⟩

end Docket

namespace Lease

/-- The holder after some records held before them, with nothing but rejections between, or
its grant is the last of them. -/
theorem exec_holder {l : Lease} {rs : List Record} (hr : machine.Run l rs) {a : ActiveSession}
    (h : (machine.exec l rs).holder = some a) :
    (l.holder = some a ∧ ∀ r ∈ rs, ∃ w error, r = .rejected w error) ∨
      ∃ pre w post, rs = pre ++ .granted w a.sid :: post ∧ w.port = a.port ∧
        ∀ r ∈ post, ∃ w error, r = .rejected w error := by
  induction rs using List.reverseRecOn with
  | nil => exact .inl ⟨h,fun _ h => by simp at h⟩
  | append_singleton rs r ih =>
    have hrun := ((machine.run_append).mp hr).1
    rw [Machine.exec_append] at h
    cases r with
    | granted w sid =>
      obtain rfl := Option.some.inj h
      exact .inr ⟨rs,w,[],rfl,rfl,fun _ h => by simp at h⟩
    | ended sid => simp [machine,next] at h
    | rejected w error =>
      rcases ih hrun h with ⟨hl,hrs⟩ | ⟨pre,v,post,rfl,hport,hpost⟩
      · refine .inl ⟨hl,List.forall_mem_append.mpr ⟨hrs,?_⟩⟩
        exact List.forall_mem_singleton.mpr ⟨w,error,rfl⟩
      · refine .inr ⟨pre,v,post ++ [.rejected w error],?_,hport,?_⟩
        · rw [List.append_assoc,List.cons_append]
        · refine List.forall_mem_append.mpr ⟨hpost,?_⟩
          exact List.forall_mem_singleton.mpr ⟨w,error,rfl⟩

/-- The holder's session was granted to its port. -/
theorem run_holder_granted {rs : List Record} (hr : machine.Run .initial rs) {a : ActiveSession}
    (h : (machine.exec .initial rs).holder = some a) :
    ∃ w, .granted w a.sid ∈ rs ∧ w.port = a.port := by
  rcases exec_holder hr h with ⟨h,_⟩ | ⟨pre,w,post,rfl,hport,_⟩
  · simp [initial] at h
  · exact ⟨w,by simp,hport⟩

/-- No granted id is above the last one. -/
theorem run_granted_le {l : Lease} {rs : List Record} (hr : machine.Run l rs) :
    l.lastSid ≤ (machine.exec l rs).lastSid ∧
      ∀ sid ∈ rs.filterMap Record.granted?, sid ≤ (machine.exec l rs).lastSid := by
  induction rs generalizing l with
  | nil => exact ⟨Nat.le.refl,fun _ h => by simp at h⟩
  | cons r rs ih =>
    obtain ⟨he,hr⟩ := hr
    obtain ⟨hlast,hle⟩ := ih hr
    cases r with
    | granted w sid =>
      refine ⟨Nat.le_trans (Nat.le_of_lt he.2.1) hlast,fun n hn => ?_⟩
      rcases List.mem_cons.mp hn with rfl | hn
      · exact hlast
      · exact hle n hn
    | rejected w error => exact ⟨hlast,hle⟩
    | ended sid => exact ⟨hlast,hle⟩

/-- The session held is the one granted last. -/
theorem run_holder_last {rs : List Record} (hr : machine.Run .initial rs) {a : ActiveSession}
    (h : (machine.exec .initial rs).holder = some a) :
    a.sid = (machine.exec .initial rs).lastSid := by
  refine hr.invariant (I := fun l => ∀ a, l.holder = some a → a.sid = l.lastSid) ?_ ?_ a h
  · intro l r hl _ a ha
    cases r with
    | granted w sid =>
      obtain rfl := Option.some.inj ha
      rfl
    | rejected w error => exact hl a ha
    | ended sid => simp [machine,next] at ha
  · simp [initial]

end Lease

/-- The session id an effect brings to a tab. -/
def Effect.grant? (fx : Effect) : Option ℕ :=
  match fx.toTab? with
  | some (_,.reply _ (.ok (.sid n))) => some n
  | _ => none

theorem Effect.grant?_eq_some {fx : Effect} {n : ℕ} :
    fx.grant? = some n ↔ ∃ port requestId, fx.toTab? = some (port,.reply requestId (.ok (.sid n))) := by
  unfold Effect.grant?
  split
  · next port requestId m h => simp [h,eq_comm]
  · next hne =>
    refine ⟨fun h => by simp at h,?_⟩
    rintro ⟨port,requestId,h⟩
    exact absurd h (hne port requestId n)

namespace State

/-- What every grant to a connected port is followed by. -/
structure Told (s : State) : Prop where
  active : ∀ a, s.arbiter.active = some a → a.port ∈ s.ports →
    ∃ w, .granted w a.sid ∈ s.arbiter.history ∧ w.port = a.port ∧
      .post a.port (.reply w.requestId (.ok (.sid a.sid))) ∈ s.trace
  sorted : (s.trace.filterMap Effect.grant?).Sublist (s.arbiter.history.filterMap Record.granted?)
  source : ∀ fx ∈ s.trace, ∀ port requestId n,
    fx.toTab? = some (port,.reply requestId (.ok (.sid n))) →
      ∃ w, .granted w n ∈ s.arbiter.history ∧ w.port = port ∧ w.requestId = requestId
  known : ∀ w ∈ s.arbiter.waiters, w.port < s.nextPort

theorem told_initial : Told .initial where
  active _ h := by simp [initial,Arbiter.initial] at h
  sorted := .slnil
  source _ h := by simp [initial] at h
  known _ h := by simp [initial,Arbiter.initial,Arbiter.waiters] at h

section Acts
variable {s : State} {a : Act}

/-- Where a reply comes from: the handler itself, a settled acquire promise, or an entry of
`pendingChild`. -/
theorem emits_reply (ha : s.Allows a) {fx : Effect} {port : Port} {requestId : ℤ}
    {outcome : Except String Result} (h : fx ∈ s.emits a)
    (hfx : fx.toTab? = some (port,.reply requestId outcome)) :
    a = .reply port requestId outcome ∨
      (∃ w sid, a = .settle (.granted w sid) ∧ outcome = .ok (.sid sid) ∧
        w.port = port ∧ w.requestId = requestId) ∨
      (∃ w error, a = .settle (.rejected w error) ∧ outcome = .error error) ∨
      ∃ entry ∈ s.pendingChild, entry.2.serves port requestId ∧ ∀ sid, outcome ≠ .ok (.sid sid) := by
  have hentry : ∀ entry ∈ s.pendingChild, entry.2.port = port →
      entry.2.originalRequestId = requestId → (∀ sid, outcome ≠ .ok (.sid sid)) →
      ∃ entry ∈ s.pendingChild, entry.2.serves port requestId ∧
        ∀ sid, outcome ≠ .ok (.sid sid) := by
    intro entry hentry hport hrequest hsid
    exact ⟨entry,hentry,by simp [PendingChild.serves,hport,hrequest],hsid⟩
  cases a with
  | tell effects =>
    have hnotice := (ha fx h).1
    cases fx with
    | post p msg => cases msg <;> simp [Effect.isNotice,Effect.toTab?] at hnotice hfx
    | _ => simp [Effect.isNotice,Effect.toTab?] at hnotice hfx
  | reply p r o =>
    obtain ⟨_,rfl⟩ := (s.mem_posted p).mp h
    simp only [Effect.toTab?,Option.some.injEq,Prod.mk.injEq,ToTab.reply.injEq] at hfx
    obtain ⟨rfl,rfl,rfl⟩ := hfx
    exact .inl rfl
  | settle r =>
    cases r with
    | granted w sid =>
      obtain ⟨_,rfl⟩ := (s.mem_posted w.port).mp h
      simp only [Effect.toTab?,Option.some.injEq,Prod.mk.injEq,ToTab.reply.injEq] at hfx
      exact .inr (.inl ⟨w,sid,rfl,hfx.2.2.symm,hfx.1,hfx.2.1⟩)
    | rejected w error =>
      obtain ⟨_,rfl⟩ := (s.mem_posted w.port).mp h
      simp only [Effect.toTab?,Option.some.injEq,Prod.mk.injEq,ToTab.reply.injEq] at hfx
      exact .inr (.inr (.inl ⟨w,error,rfl,hfx.2.2.symm⟩))
    | ended sid => simp [emits] at h
  | elect tab now =>
    simp only [emits] at h
    split at h
    · simp at h
    · obtain ⟨_,rfl⟩ := (s.mem_posted tab).mp h
      simp [Effect.toTab?] at hfx
  | lose reason =>
    simp only [emits,List.mem_append] at h
    rcases h with ((h | h) | h) | h
    · obtain ⟨_,_,rfl⟩ := s.mem_broadcast.mp h
      simp [Effect.toTab?] at hfx
    · obtain ⟨_,_,rfl⟩ := List.mem_map.mp h
      simp [Effect.toTab?] at hfx
    · obtain ⟨entry,hmem,h⟩ := List.mem_flatMap.mp h
      obtain ⟨_,rfl⟩ := s.mem_rejected.mp h
      simp only [Effect.toTab?,Option.some.injEq,Prod.mk.injEq,ToTab.reply.injEq] at hfx
      exact .inr (.inr (.inr (hentry entry hmem hfx.1 hfx.2.1 (by simp [← hfx.2.2]))))
    · split at h
      · obtain ⟨_,_,rfl⟩ := s.mem_broadcast.mp h
        simp [Effect.toTab?] at hfx
      · simp at h
  | forward p r call kept =>
    obtain ⟨_,_,rfl⟩ := List.mem_map.mp h
    simp [Effect.toTab?] at hfx
  | relay childReqId o =>
    obtain ⟨p,hp,h⟩ := List.mem_flatMap.mp h
    obtain ⟨_,rfl⟩ := s.mem_answered.mp h
    simp only [Effect.toTab?,Option.some.injEq,Prod.mk.injEq,ToTab.reply.injEq] at hfx
    obtain ⟨pre,post,hsplit,_⟩ := List.lookup_eq_some_iff.mp (Option.mem_toList.mp hp)
    have hmem : (childReqId,p) ∈ s.pendingChild := by simp [hsplit]
    refine .inr (.inr (.inr (hentry _ hmem hfx.1 hfx.2.1 ?_)))
    rw [← hfx.2.2]
    cases o <;> simp [Except.map]
  | attach | stray =>
    obtain rfl := List.mem_singleton.mp h
    simp [Effect.toTab?] at hfx
  | aside | join | leave | arbitrate | abandon => simp [emits] at h

/-- Only settling an acquire promise brings a session id to a tab. -/
theorem act_ungranted (ha : s.Allows a) (hm : ∀ m ∈ a.marks, ∀ r, m ≠ Mark.settle r) :
    ∀ fx ∈ s.emits a, fx.grant? = none := by
  intro fx hfx
  by_contra hne
  obtain ⟨n,hn⟩ := Option.ne_none_iff_exists'.mp hne
  obtain ⟨port,requestId,h⟩ := Effect.grant?_eq_some.mp hn
  rcases emits_reply ha hfx h with rfl | ⟨w,sid,rfl,_⟩ | ⟨w,error,rfl,_⟩ | ⟨_,_,_,hsid⟩
  · exact ha.2 n rfl
  · exact hm _ (List.mem_singleton.mpr rfl) _ rfl
  · exact hm _ (List.mem_singleton.mpr rfl) _ rfl
  · exact hsid n rfl

/-- No act takes a port number back. -/
theorem act_nextPort (ha : s.Allows a) {n : ℕ} (hn : n ≤ s.nextPort) : n ≤ (s.act a).nextPort := by
  cases a with
  | join port =>
    obtain rfl : port = s.nextPort := ha
    exact Nat.le_succ_of_le hn
  | tell | aside | leave | arbitrate | abandon | attach | stray | lose => exact hn
  | reply => rwa [act_reply]
  | settle => rwa [act_settle]
  | elect => rwa [act_elect]
  | forward => rwa [(s.forward_frame _ _ _ _).nextPort]
  | relay => rwa [(s.relay_frame _ _).nextPort]

end Acts

section Task
variable {s : State} {e : Event}

theorem marks_unsettled (s : State) (e : Event) : ∀ m ∈ s.marks e, ∀ r, m ≠ Mark.settle r := by
  rintro m hm r rfl
  cases e with
  | message port msg now throws =>
    obtain ⟨requestId,request⟩ := msg
    cases request with
    | attachCore transferred => cases transferred <;> simp [marks] at hm
    | core call =>
      simp only [marks] at hm
      split at hm <;> simp at hm
    | _ => simp [marks] at hm
  | _ => simp [marks] at hm

/-- A step's trace: what the task says, which brings no session id, and the replies to the
promises it settles. -/
theorem next_trace_settled (hs : Sound s) (he : Enabled s e) :
    ∃ effects, (∀ fx ∈ effects, fx.grant? = none) ∧ (s.next e).trace =
      s.trace ++ effects ++ (s.settled e).flatMap (fun r => (s.task e).emits (.settle r)) := by
  obtain ⟨effects,htrace,hall⟩ := (task_performs hs he).effects_of (I := fun _ => True)
    (C := fun m => ∀ r, m ≠ Mark.settle r) (Q := fun fx => fx.grant? = none)
    (fun _ _ _ ha hm => ⟨trivial,act_ungranted ha hm⟩) (s.marks_unsettled e) trivial
  refine ⟨effects,hall,?_⟩
  rw [next,runMicrotasks_eq,emit_trace,htrace]
  rfl

theorem next_ports_eq (s : State) (e : Event) : (s.next e).ports = (s.task e).ports := by
  unfold next
  rw [runMicrotasks_eq]
  rfl

theorem next_nextPort (hs : Sound s) (he : Enabled s e) : s.nextPort ≤ (s.next e).nextPort := by
  have hp := next_performs hs he
  refine hp.invariant (I := fun t => s.nextPort ≤ t.nextPort) ?_ Nat.le.refl
  intro t a hn ha
  exact act_nextPort ha hn

/-- A port that a step finds connected was so before, or is the new one. -/
theorem next_ports_cases (hs : Sound s) (he : Enabled s e) {port : Port}
    (h : port ∈ (s.next e).ports) : port ∈ s.ports ∨ port = s.nextPort := by
  have hports : (s.next e).ports = (Docket.machine.exec s.docket (s.docketEvents e)).ports :=
    congrArg Docket.ports (next_docket hs he).1
  rw [hports] at h
  by_cases hconnect : ∃ p, .connect p ∈ s.docketEvents e
  · cases e with
    | connect now throws => exact (List.mem_append.mp h).imp_right List.mem_singleton.mp
    | message p msg now throws =>
      obtain ⟨requestId,request⟩ := msg
      obtain ⟨q,hq⟩ := hconnect
      cases request <;> simp [docketEvents] at hq
    | coreMessage | pingTimeout | heartbeat => simp [docketEvents] at hconnect
  · rw [not_exists] at hconnect
    exact .inl ((Docket.exec_ports_sublist hconnect).subset h)

/-- An acquire comes in by its own message. -/
theorem docketEvents_acquire {abortToken : String} {port : Port} {requestId : ℤ}
    (h : .acquire abortToken port requestId ∈ s.docketEvents e) :
    ∃ token now throws, e = .message port ⟨requestId,.acquireSession token⟩ now throws := by
  cases e with
  | message p msg now throws =>
    obtain ⟨r,request⟩ := msg
    cases request with
    | acquireSession token =>
      obtain ⟨_,rfl,rfl⟩ := DocketEvent.acquire.inj (List.mem_singleton.mp h)
      exact ⟨token,now,throws,rfl⟩
    | _ => simp [docketEvents] at h
  | _ => simp [docketEvents] at h

/-- Who waits or waited after a step did before, or came in by this message. -/
theorem next_waiters_cases (hs : Sound s) (he : Enabled s e) {w : Waiter}
    (h : w ∈ (s.next e).arbiter.waiters) : w ∈ s.arbiter.waiters ∨
      ∃ token now throws, e = .message w.port ⟨w.requestId,.acquireSession token⟩ now throws := by
  have harbiter : (s.next e).arbiter =
      (Docket.machine.exec s.docket (s.docketEvents e)).arbiter :=
    congrArg Docket.arbiter (next_docket hs he).1
  rw [harbiter] at h
  apply (Docket.exec_waiters h).imp_right
  rintro ⟨abortToken,h⟩
  exact docketEvents_acquire h

/-- The session held after a step was held before, or is granted by it under a new id. -/
theorem next_active (hs : Sound s) (he : Enabled s e) {a : ActiveSession}
    (h : (s.next e).arbiter.active = some a) :
    s.arbiter.active = some a ∨
      s.arbiter.nextSid < a.sid ∧ ∃ w, .granted w a.sid ∈ s.settled e ∧ w.port = a.port := by
  have horderly := (next_sound hs he).fair.orderly
  change (s.next e).arbiter.Orderly at horderly
  have hrun := horderly.lawful
  have hholder := horderly.holder
  rw [next_history hs he,Machine.run_append] at hrun
  rw [next_history hs he,Machine.exec_append,h] at hholder
  have hold := hs.fair.orderly
  rcases Lease.exec_holder hrun.2 hholder with ⟨hl,_⟩ | ⟨pre,w,post,hsettled,hport,_⟩
  · exact .inl (hold.holder.symm.trans hl)
  · have hmem : .granted w a.sid ∈ s.settled e := by simp [hsettled]
    refine .inr ⟨?_,w,hmem,hport⟩
    have hlast : (Lease.machine.exec .initial s.arbiter.history).lastSid = s.arbiter.nextSid :=
      hold.lastSid
    rw [← hlast]
    exact (Lease.run_sids_sorted hrun.2).2 _ (List.mem_filterMap.mpr ⟨_,hmem,rfl⟩)

theorem settle_grants (s : State) (records : List Record) :
    ((records.flatMap (fun r => s.emits (.settle r))).filterMap Effect.grant?).Sublist
      (records.filterMap Record.granted?) := by
  induction records with
  | nil => exact .slnil
  | cons r records ih =>
    rw [List.flatMap_cons,List.filterMap_append,← List.singleton_append,List.filterMap_append]
    refine List.Sublist.append ?_ ih
    cases r with
    | granted w sid =>
      simp only [emits,posted]
      split
      · exact .refl _
      · exact List.nil_sublist _
    | rejected w error =>
      simp only [emits,posted]
      split
      · exact .refl _
      · exact List.nil_sublist _
    | ended sid => exact .slnil

theorem next_told (hs : Sound s) (he : Enabled s e) (h : Told s) : Told (s.next e) := by
  obtain ⟨effects,hquiet,htrace⟩ := next_trace_settled hs he
  have hhistory := next_history hs he
  refine ⟨fun a ha hport => ?_,?_,fun fx hfx port requestId n hn => ?_,fun w hw => ?_⟩
  · rw [hhistory,htrace]
    rcases next_active hs he ha with hold | ⟨_,w,hw,hwport⟩
    · have hne : a.port ≠ s.nextPort := by
        obtain ⟨w,hw,hwport⟩ := Lease.run_holder_granted hs.fair.orderly.lawful
          (hs.fair.orderly.holder.trans hold)
        have hmem : w ∈ s.arbiter.waiters :=
          List.mem_append_right _ (List.mem_filterMap.mpr ⟨_,hw,rfl⟩)
        exact Nat.ne_of_lt (hwport ▸ h.known w hmem)
      have hwas := (next_ports_cases hs he hport).resolve_right hne
      obtain ⟨w,hw,hwport,hpost⟩ := h.active a hold hwas
      exact ⟨w,List.mem_append_left _ hw,hwport,
        List.mem_append_left _ (List.mem_append_left _ hpost)⟩
    · refine ⟨w,List.mem_append_right _ hw,hwport,List.mem_append_right _ ?_⟩
      refine List.mem_flatMap.mpr ⟨_,hw,(mem_posted _ _).mpr ⟨?_,by rw [hwport]⟩⟩
      rwa [hwport,← next_ports_eq]
  · rw [hhistory,htrace,List.filterMap_append,List.filterMap_append,List.filterMap_append,
      List.filterMap_eq_nil_iff.mpr hquiet,List.append_nil]
    exact h.sorted.append (settle_grants _ _)
  · rw [hhistory]
    rw [htrace,List.mem_append,List.mem_append] at hfx
    rcases hfx with (hfx | hfx) | hfx
    · obtain ⟨w,hw,hwport⟩ := h.source fx hfx port requestId n hn
      exact ⟨w,List.mem_append_left _ hw,hwport⟩
    · have hsome := Effect.grant?_eq_some.mpr ⟨port,requestId,hn⟩
      rw [hquiet fx hfx] at hsome
      simp at hsome
    · obtain ⟨r,hr,hfx⟩ := List.mem_flatMap.mp hfx
      cases r with
      | granted w sid =>
        obtain ⟨_,rfl⟩ := (mem_posted _ _).mp hfx
        simp only [Effect.toTab?,Option.some.injEq,Prod.mk.injEq,ToTab.reply.injEq,
          Except.ok.injEq,Result.sid.injEq] at hn
        obtain ⟨hwport,hwrequest,rfl⟩ := hn
        exact ⟨w,List.mem_append_right _ hr,hwport,hwrequest⟩
      | rejected w error =>
        obtain ⟨_,rfl⟩ := (mem_posted _ _).mp hfx
        simp [Effect.toTab?] at hn
      | ended sid => simp [emits] at hfx
  · have hmono := next_nextPort hs he
    rcases next_waiters_cases hs he hw with hw | ⟨token,now,throws,rfl⟩
    · exact Nat.lt_of_lt_of_le (h.known w hw) hmono
    · exact Nat.lt_of_lt_of_le (hs.fresh _ he) hmono

/-- The request is not one for the core, and no reply to it but a session id or an error
was posted. -/
structure AcquireOnly (port : Port) (requestId : ℤ) (s : State) : Prop where
  pending : ∀ entry ∈ s.pendingChild, ¬ entry.2.serves port requestId
  replies : ∀ fx ∈ s.trace, ∀ result, fx.toTab? = some (port,.reply requestId (.ok result)) →
    ∃ sid, result = .sid sid

/-- The mark serves or forwards another request. -/
def Mark.Spares (port : Port) (requestId : ℤ) (m : Mark) : Prop :=
  m ≠ .serve port requestId ∧ ∀ call kept, m ≠ .forward port requestId call kept

theorem act_acquireOnly {port : Port} {requestId : ℤ} (h : AcquireOnly port requestId s) {a : Act}
    (ha : s.Allows a) (hm : ∀ m ∈ a.marks, Mark.Spares port requestId m) :
    AcquireOnly port requestId (s.act a) := by
  refine ⟨?_,fun fx hfx result hresult => ?_⟩
  · cases a with
    | tell | aside | join | arbitrate | abandon | attach | stray => exact h.pending
    | reply => rw [act_reply]; exact h.pending
    | settle => rw [act_settle]; exact h.pending
    | elect => rw [act_elect]; exact h.pending
    | leave p => exact fun entry hentry => h.pending entry (List.mem_filter.mp hentry).1
    | lose reason => exact fun entry hentry => absurd hentry List.not_mem_nil
    | forward p r call kept =>
      have hne : ¬ (p = port ∧ r = requestId) := by
        rintro ⟨rfl,rfl⟩
        exact (hm _ (List.mem_singleton.mpr rfl)).2 call kept rfl
      have hregistered : ∀ core, ∀ entry ∈ (s.registered core p r call kept).pendingChild,
          ¬ entry.2.serves port requestId := by
        intro core
        refine List.forall_mem_append.mpr ⟨h.pending,List.forall_mem_singleton.mpr ?_⟩
        simpa [PendingChild.serves] using hne
      simp only [act]
      cases s.corePort with
      | none => exact h.pending
      | some core =>
        cases kept with
        | true => exact hregistered core
        | false => exact fun entry hentry => hregistered core entry (List.mem_filter.mp hentry).1
    | relay childReqId outcome =>
      simp only [act]
      split
      · rw [answer_eq]
        exact fun entry hentry => h.pending entry (List.mem_filter.mp hentry).1
      · exact h.pending
  · rw [act_trace,List.mem_append] at hfx
    rcases hfx with hfx | hfx
    · exact h.replies fx hfx result hresult
    · rcases emits_reply ha hfx hresult with rfl | ⟨_,sid,_,hsid,_⟩ | ⟨_,_,_,herror⟩ |
        ⟨entry,hentry,hserves,_⟩
      · exact absurd rfl (hm _ (List.mem_singleton.mpr rfl)).1
      · exact ⟨sid,Except.ok.inj hsid⟩
      · simp at herror
      · exact absurd hserves (h.pending entry hentry)

theorem marks_spare {port : Port} {requestId : ℤ} (hmsg : ∀ msg now throws,
    e = .message port msg now throws → msg.requestId = requestId →
      ∃ token, msg.request = .acquireSession token) :
    ∀ m ∈ s.marks e, Mark.Spares port requestId m := by
  cases e with
  | message p msg now throws =>
    obtain ⟨r,request⟩ := msg
    by_cases hid : p = port ∧ r = requestId
    · obtain ⟨rfl,rfl⟩ := hid
      obtain ⟨token,rfl⟩ := hmsg _ now throws rfl rfl
      refine List.forall_mem_singleton.mpr ⟨by simp,by simp⟩
    · intro m hm
      refine ⟨?_,?_⟩
      · rintro rfl
        cases request with
        | attachCore transferred => cases transferred <;> simp_all [marks]
        | core call =>
          simp only [marks] at hm
          split at hm <;> simp_all
        | _ => simp_all [marks]
      · rintro call kept rfl
        obtain ⟨_,_,heq,_⟩ := marks_forward hm
        simp only [Event.message.injEq,Message.mk.injEq] at heq
        exact hid ⟨heq.1,heq.2.1.1⟩
  | connect now throws => exact List.forall_mem_singleton.mpr ⟨by simp,by simp⟩
  | coreMessage | pingTimeout => exact fun m hm => absurd hm List.not_mem_nil
  | heartbeat now later =>
    intro m hm
    obtain ⟨_,_,rfl⟩ := List.mem_map.mp hm
    exact ⟨by simp,by simp⟩

theorem next_acquireOnly (hs : Sound s) (he : Enabled s e) {port : Port} {requestId : ℤ}
    (hmsg : ∀ msg now throws, e = .message port msg now throws → msg.requestId = requestId →
      ∃ token, msg.request = .acquireSession token) (h : AcquireOnly port requestId s) :
    AcquireOnly port requestId (s.next e) := by
  have hsettle : ∀ r, Mark.Spares port requestId (.settle r) := fun _ => ⟨by simp,by simp⟩
  refine (next_performs hs he).invariant_of (C := Mark.Spares port requestId) ?_
    (forall_marks (marks_spare hmsg) hsettle) h
  intro t a hI ha hm
  exact act_acquireOnly hI ha hm

theorem granted_le (hs : Sound s) {w : Waiter} {sid : ℕ} (h : .granted w sid ∈ s.arbiter.history) :
    sid ≤ s.arbiter.nextSid := by
  have hold := hs.fair.orderly
  change s.arbiter.Orderly at hold
  rw [← hold.lastSid]
  exact (Lease.run_granted_le hold.lawful).2 _ (List.mem_filterMap.mpr ⟨_,h,rfl⟩)

theorem active_sid_eq (hs : Sound s) {a : ActiveSession} (h : s.arbiter.active = some a) :
    a.sid = s.arbiter.nextSid := by
  have hold := hs.fair.orderly
  change s.arbiter.Orderly at hold
  rw [← hold.lastSid]
  exact Lease.run_holder_last hold.lawful (hold.holder.trans h)

/-- Session ids come to the tabs in increasing order. -/
theorem grants_sorted (hs : Sound s) (h : Told s) :
    (s.trace.filterMap Effect.grant?).Pairwise (· < ·) :=
  (Lease.run_sids_sorted hs.fair.orderly.lawful).1.sublist h.sorted

/-- A session that its holder releases is held no more. -/
theorem next_released (hs : Sound s) {port : Port} {requestId : ℤ} {sid now : ℕ} {throws : Bool}
    (he : Enabled s (.message port ⟨requestId,.releaseSession (.number sid)⟩ now throws))
    (h : s.arbiter.active = some ⟨sid,port⟩) :
    (s.next (.message port ⟨requestId,.releaseSession (.number sid)⟩ now throws)).arbiter.active ≠
      some ⟨sid,port⟩ := by
  have harbiter := congrArg Docket.arbiter (next_docket hs he).1
  intro hact
  have hsid : sid = s.arbiter.nextSid := active_sid_eq hs h
  rw [show (s.next _).arbiter.active = _ from congrArg Arbiter.active harbiter] at hact
  simp only [docketEvents,Machine.exec_cons,Machine.exec_nil,Docket.machine_next,Docket.next,docket,
    Arbiter.releaseSession,h,SidArg.toNumber,ne_eq,not_true_eq_false,or_self,if_false] at hact
  cases hq : s.arbiter.queue with
  | nil => simp [Arbiter.wakeNext,Arbiter.clear,hq] at hact
  | cons w rest =>
    simp only [Arbiter.wakeNext,Arbiter.clear,hq,Arbiter.grant,Option.some.injEq,
      ActiveSession.mk.injEq] at hact
    omega

end Task
end State
end Rullama.Router
