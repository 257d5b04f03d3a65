import Mathlib.Data.List.Induction
import Rullama.Router.Tasks

/-! # Session arbitration over whole runs

Exclusion, fresh session ids, work conservation, first come first served and single
settlement, read off the history of the arbiter; and who is let through to the core.
-/
namespace Rullama.Router
open Transition

namespace Lease

/-- In a run every granted session has ended or is the holder's. -/
theorem run_ended {rs : List Record} (hr : machine.Run .initial rs) {sid : ℕ}
    (hsid : sid ∈ rs.filterMap Record.granted?) :
    .ended sid ∈ rs ∨ ∃ port, (machine.exec .initial rs).holder = some ⟨sid,port⟩ := by
  induction rs using List.reverseRecOn with
  | nil => simp at hsid
  | append_singleton rs r ih =>
    obtain ⟨hr,hen,_⟩ := (machine.run_append).mp hr
    rw [Machine.exec_append]
    have hold : sid ∈ rs.filterMap Record.granted? → .ended sid ∈ rs ++ [r] ∨
        ∃ port, (machine.exec .initial rs).holder = some ⟨sid,port⟩ := by
      intro h
      exact (ih hr h).imp_left (List.mem_append_left _)
    rw [List.filterMap_append,List.mem_append] at hsid
    cases r with
    | granted w n =>
      rcases hsid with h | h
      · rcases hold h with h | ⟨port,h⟩
        · exact .inl h
        · exact absurd (h.symm.trans hen.1) (by simp)
      · obtain rfl : sid = n := by simpa [Record.granted?] using h
        exact .inr ⟨w.port,rfl⟩
    | rejected w error => exact hold (by simpa [Record.granted?] using hsid)
    | ended n =>
      rcases hold (by simpa [Record.granted?] using hsid) with h | ⟨port,h⟩
      · exact .inl h
      · obtain ⟨q,hq⟩ := hen
        obtain ⟨rfl,_⟩ := ActiveSession.mk.inj (Option.some.inj (h.symm.trans hq))
        exact .inl (by simp)

end Lease

namespace Docket

/-- Why a record is a rejection: the waiter was cancelled, or its port disconnected. -/
def Excuses (e : DocketEvent) : Record → Prop
  | .rejected w error =>
    error = "aborted" ∧ e = .cancel w.abortToken ∨
      error = "port disconnected" ∧ e = .disconnect w.port
  | _ => True

theorem wakeNext_history (s : Arbiter) (e : DocketEvent) :
    ∃ rs, s.wakeNext.history = s.history ++ rs ∧ ∀ r ∈ rs, Excuses e r := by
  unfold Arbiter.wakeNext
  split
  · exact ⟨[],by simp⟩
  · exact ⟨[],by simp⟩
  · next w rest _ _ => exact ⟨[.granted w (s.nextSid + 1)],rfl,by simp [Excuses]⟩

theorem clear_wakeNext_history (s : Arbiter) (a : ActiveSession) (e : DocketEvent) :
    ∃ rs, (s.clear a).wakeNext.history = s.history ++ rs ∧ ∀ r ∈ rs, Excuses e r := by
  obtain ⟨rs,hrs,hall⟩ := wakeNext_history (s.clear a) e
  refine ⟨.ended a.sid :: rs,?_,List.forall_mem_cons.mpr ⟨trivial,hall⟩⟩
  rw [hrs]
  exact (List.append_cons s.history _ rs).symm

theorem next_history (d : Docket) (e : DocketEvent) :
    ∃ rs, (d.next e).arbiter.history = d.arbiter.history ++ rs ∧ ∀ r ∈ rs, Excuses e r := by
  cases e with
  | connect port => exact ⟨[],by simp [next]⟩
  | acquire abortToken port requestId =>
    unfold next Arbiter.acquireSession
    cases d.arbiter.active with
    | none => exact ⟨_,rfl,by simp [Excuses]⟩
    | some a => exact ⟨[],by simp⟩
  | release sid port =>
    simp only [next,Arbiter.releaseSession]
    split
    · exact ⟨[],by simp⟩
    · split
      · exact ⟨[],by simp⟩
      · exact clear_wakeNext_history _ _ _
  | cancel abortToken =>
    simp only [next,Arbiter.cancelAcquire]
    cases hf : d.arbiter.queue.find? (fun w => w.abortToken == abortToken) with
    | none => exact ⟨[],by simp⟩
    | some w =>
      have htoken : w.abortToken = abortToken := by simpa using List.find?_some hf
      refine ⟨_,rfl,?_⟩
      simp [Excuses,htoken]
  | disconnect port =>
    have hpurge : ∀ queue, ∀ r ∈ (Arbiter.purge port queue).2, Excuses (.disconnect port) r := by
      intro queue r hr
      rw [Arbiter.purge_records,List.mem_reverse] at hr
      obtain ⟨w,hw,rfl⟩ := List.mem_map.mp hr
      have hport : w.port = port := by simpa using (List.mem_filter.mp hw).2
      exact .inr ⟨rfl,by rw [hport]⟩
    unfold next Arbiter.disconnect
    simp only
    split
    · split
      · obtain ⟨rs,hrs,hall⟩ := clear_wakeNext_history d.arbiter _ (.disconnect port)
        exact ⟨_,by rw [hrs,List.append_assoc],List.forall_mem_append.mpr ⟨hall,hpurge _⟩⟩
      · exact ⟨_,rfl,hpurge _⟩
    · exact ⟨_,rfl,hpurge _⟩

theorem exec_history (d : Docket) (es : List DocketEvent) :
    ∃ rs, (machine.exec d es).arbiter.history = d.arbiter.history ++ rs ∧
      ∀ r ∈ rs, ∃ e ∈ es, Excuses e r := by
  induction es generalizing d with
  | nil => exact ⟨[],by simp⟩
  | cons e es ih =>
    obtain ⟨rs,hrs,hall⟩ := next_history d e
    obtain ⟨qs,hqs,hrest⟩ := ih (d.next e)
    refine ⟨rs ++ qs,?_,List.forall_mem_append.mpr ⟨fun r hr => ?_,fun r hr => ?_⟩⟩
    · rw [Machine.exec_cons,machine_next,hqs,hrs,List.append_assoc]
    · exact ⟨e,List.mem_cons_self,hall r hr⟩
    · obtain ⟨e',he',hex⟩ := hrest r hr
      exact ⟨e',List.mem_cons_of_mem _ he',hex⟩

theorem exec_ports_sublist {d : Docket} {l : List DocketEvent}
    (hes : ∀ port, .connect port ∉ l) : (machine.exec d l).ports.Sublist d.ports := by
  induction l generalizing d with
  | nil => exact .refl _
  | cons e es ih =>
    have h := ih (d := d.next e) (fun port h => hes port (List.mem_cons_of_mem _ h))
    cases e with
    | connect port => exact absurd List.mem_cons_self (hes port)
    | disconnect port => exact h.trans List.erase_sublist
    | acquire | release | cancel => exact h

theorem exec_disconnected {d : Docket} (hn : d.ports.Nodup) {es : List DocketEvent}
    (hes : ∀ port, .connect port ∉ es) {port : Port} (h : .disconnect port ∈ es) :
    port ∉ (machine.exec d es).ports := by
  obtain ⟨pre,post,rfl⟩ := List.append_of_mem h
  rw [Machine.exec_append,Machine.exec_cons]
  have hpre := exec_ports_sublist (d := d) (l := pre) (fun p hp => hes p (by simp [hp]))
  have hpost := exec_ports_sublist (d := (machine.exec d pre).next (.disconnect port))
    (l := post) (fun p hp => hes p (by simp [hp]))
  exact fun hp => ((hn.sublist hpre).mem_erase_iff.mp (hpost.subset hp)).1 rfl

end Docket

namespace State

/-- The arbiter's record of a run: its history is one of the lease machine, every
granted session but the active one has ended, ids and promises are used once, a
session is granted only after all older promises were settled, and nobody waits while no
session is open. -/
structure Arbitrated (s : State) : Prop where
  lawful : Lease.machine.Run .initial s.arbiter.history
  exclusive : ∀ sid ∈ s.arbiter.history.filterMap Record.granted?,
    .ended sid ∈ s.arbiter.history ∨ ∃ port, s.arbiter.active = some ⟨sid,port⟩
  alone : ∀ pre w sid post, s.arbiter.history = pre ++ .granted w sid :: post →
    ∀ n ∈ pre.filterMap Record.granted?, .ended n ∈ pre
  fresh : (s.arbiter.history.filterMap Record.granted?).Nodup
  busy : s.arbiter.queue ≠ [] → s.arbiter.active.isSome
  inTurn : ∀ pre w sid post, s.arbiter.history = pre ++ .granted w sid :: post →
    ∀ k < w.promise, k ∈ pre.filterMap Record.promise?
  once : (s.arbiter.history.filterMap Record.promise?).Nodup

theorem Sound.arbitrated {s : State} (hs : Sound s) : Arbitrated s := by
  have hlaw := hs.fair.orderly.lawful
  have hsplit : ∀ pre w sid post, s.arbiter.history = pre ++ .granted w sid :: post →
      Lease.machine.Run .initial pre ∧
        Lease.machine.enabled (Lease.machine.exec .initial pre) (.granted w sid) := by
    intro pre w sid post h
    have hlaw := hs.fair.orderly.lawful
    rw [show s.docket.arbiter.history = _ from h] at hlaw
    obtain ⟨hpre,hen,_⟩ := (Lease.machine.run_append).mp hlaw
    exact ⟨hpre,hen⟩
  refine ⟨hlaw,fun sid hsid => ?_,fun pre w sid post h n hn => ?_,?_,hs.fair.busy,
    fun pre w sid post h k hk => ?_,?_⟩
  · refine (Lease.run_ended hlaw hsid).imp_right (fun ⟨port,hp⟩ => ⟨port,?_⟩)
    exact hs.fair.orderly.holder.symm.trans hp
  · obtain ⟨hpre,hen⟩ := hsplit pre w sid post h
    apply (Lease.run_ended hpre hn).resolve_right
    rintro ⟨port,hp⟩
    exact absurd (hp.symm.trans hen.1) (by simp)
  · exact (Lease.run_sids_sorted hlaw).1.imp Nat.ne_of_lt
  · have hk := (hsplit pre w sid post h).2.2.2.2 k hk
    rwa [Lease.exec_settled] at hk
  · have h := Lease.run_settled_nodup hlaw .nil
    rwa [Lease.exec_settled] at h

/-- Whoever is rejected in this step was cancelled or is disconnected by it. -/
def RejectsLeavers (s : State) (e : Event) : Prop :=
  ∀ w error, .rejected w error ∈ (s.next e).arbiter.history.drop s.arbiter.history.length →
    (error = "aborted" ∧ ∃ port requestId token now throws,
      e = .message port ⟨requestId,.cancelAcquire token⟩ now throws ∧
        token.getD "undefined" = w.abortToken) ∨
    (error = "port disconnected" ∧ w.port ∉ (s.next e).ports)

/-- Stateful RPCs forwarded in this step carry the active session's id and come from its
port. -/
def ForwardsHolder (s : State) (e : Event) : Prop :=
  ∀ id core port requestId call posted,
    .forward id core port requestId call posted ∈ s.effects e → call.name.isStateful = true →
      ∃ sid, call.sid.toNumber = some sid ∧ s.arbiter.active = some ⟨sid,port⟩

theorem rejectsLeavers {s : State} {e : Event} (hs : Sound s) (he : Enabled s e) :
    s.RejectsLeavers e := by
  intro w error hw
  obtain ⟨hdocket,-⟩ := next_docket hs he
  obtain ⟨rs,hrs,hall⟩ := Docket.exec_history s.docket (s.docketEvents e)
  have hhistory : (s.next e).arbiter.history = s.arbiter.history ++ rs :=
    (congrArg (fun d => d.arbiter.history) hdocket).trans hrs
  have hports : (s.next e).ports = (Docket.machine.exec s.docket (s.docketEvents e)).ports :=
    congrArg Docket.ports hdocket
  rw [hhistory,List.drop_left] at hw
  obtain ⟨x,hx,hexcuse⟩ := hall _ hw
  rcases hexcuse with ⟨rfl,rfl⟩ | ⟨rfl,rfl⟩
  · refine .inl ⟨rfl,?_⟩
    cases e with
    | message port msg now throws =>
      obtain ⟨requestId,request⟩ := msg
      cases request with
      | cancelAcquire token =>
        refine ⟨port,requestId,token,now,throws,rfl,?_⟩
        have hx : w.abortToken = token.getD "undefined" := by simpa [docketEvents] using hx
        exact hx.symm
      | _ => simp [docketEvents] at hx
    | _ => simp [docketEvents] at hx
  · refine .inr ⟨rfl,?_⟩
    rw [hports]
    refine Docket.exec_disconnected hs.nodup (fun port hconnect => ?_) hx
    cases e with
    | connect now throws => simp [docketEvents] at hx
    | message port msg now throws =>
      obtain ⟨requestId,request⟩ := msg
      cases request <;> simp [docketEvents] at hconnect
    | _ => simp [docketEvents] at hconnect

/-- Only the message of an RPC forwards it, and only past the checks of the router. -/
theorem forwarded {s : State} {e : Event} (hs : Sound s) (he : Enabled s e) {id : ℕ} {core : Core}
    {port : Port} {requestId : ℤ} {call : CoreCall} {posted : Bool}
    (h : .forward id core port requestId call posted ∈ s.effects e) :
    ∃ now throws, e = .message port ⟨requestId,.core call⟩ now throws ∧
      s.Forwards port call ∧ posted = !throws := by
  have hact : ∀ (t : State) (a : Act), True → t.Allows a →
      (∀ m ∈ a.marks, m ∈ s.marks e ∨ ∃ r, m = .settle r) → True ∧ ∀ fx ∈ t.emits a, ∀ id core port requestId call posted,
        fx = Effect.forward id core port requestId call posted →
          Mark.forward port requestId call posted ∈ s.marks e := by
    rintro t a - ha hm
    refine ⟨trivial,fun fx hfx id core port requestId call posted heq => ?_⟩
    obtain ⟨rfl,-⟩ := emits_forward ha (heq ▸ hfx)
    exact (hm _ List.mem_cons_self).resolve_right (by simp)
  have hmarks := (effects_of_acts (I := fun _ => True) hact hs he (fun m hm => .inl hm)
    (fun r => .inr ⟨r,rfl⟩) trivial).2
  have hmark := hmarks _ h id core port requestId call posted rfl
  exact marks_forward hmark

theorem forwardsHolder {s : State} {e : Event} (hs : Sound s) (he : Enabled s e) :
    s.ForwardsHolder e := by
  intro id core port requestId call posted hfx hst
  obtain ⟨now,throws,rfl,hf,-⟩ := forwarded hs he hfx
  exact Arbiter.checkSession_eq_none.mp (hf.2 hst)

end State

/-- Every run of the router arbitrates its sessions, rejects only waiters that were
cancelled or disconnected, and forwards stateful RPCs only for the holder. -/
theorem run_arbitrated {es : List Event} (hr : machine.Run .initial es) :
    (machine.exec .initial es).Arbitrated ∧
      ∀ p ∈ machine.trail .initial es, (p.1.next p.2).Arbitrated ∧
        p.1.RejectsLeavers p.2 ∧ p.1.ForwardsHolder p.2 := by
  refine ⟨(State.reachable_sound ⟨es,hr,rfl⟩).arbitrated,fun p hp => ?_⟩
  obtain ⟨hs,he⟩ := hr.mem_trail (I := State.Sound) (fun _ _ hs he => State.next_sound hs he)
    State.sound_initial hp
  exact ⟨(State.next_sound hs he).arbitrated,State.rejectsLeavers hs he,
    State.forwardsHolder hs he⟩

/-- Three tabs queue up; one waiter is cancelled, one tab leaves, and the holder calls the
core and releases. -/
def queueRun : List Event :=
  [.connect 0 false,.connect 1 false,.connect 2 false,
    .message 0 ⟨1,.attachCore true⟩ 3 false,
    .message 0 ⟨2,.acquireSession (some "a")⟩ 4 false,
    .message 1 ⟨1,.acquireSession (some "b")⟩ 5 false,
    .message 2 ⟨1,.acquireSession (some "c")⟩ 6 false,
    .message 1 ⟨2,.acquireSession (some "d")⟩ 7 false,
    .message 0 ⟨3,.core ⟨.stateful .step,.number 2,"{}"⟩⟩ 8 false,
    .message 1 ⟨-1,.cancelAcquire (some "b")⟩ 9 false,
    .message 2 ⟨-1,.disconnect⟩ 10 false,
    .message 0 ⟨4,.releaseSession (.number 2)⟩ 11 false]

theorem queueRun_arbitrated : (machine.exec .initial queueRun).Arbitrated ∧
    ∀ p ∈ machine.trail .initial queueRun, (p.1.next p.2).Arbitrated ∧
      p.1.RejectsLeavers p.2 ∧ p.1.ForwardsHolder p.2 :=
  run_arbitrated (by decide)

end Rullama.Router
