import Rullama.Router.Tasks

/-! # Session liveness

Whether the holder of the session and every waiter is a connected port. `disconnectPort`
wakes the next waiter before it purges the queue, so a port that both holds the session
and is next in line is granted a session as it leaves.
-/
namespace Rullama.Router
open Transition

namespace Docket

/-- The holder of the session and all waiters are connected. -/
structure Live (d : Docket) : Prop where
  holder : ∀ a, d.arbiter.active = some a → a.port ∈ d.ports
  waiters : ∀ w ∈ d.arbiter.queue, w.port ∈ d.ports

/-- A disconnecting holder is not itself the next in line. -/
def PassesOn (d : Docket) : DocketEvent → Prop
  | .disconnect port =>
    match d.arbiter.active, d.arbiter.queue with
    | some a, w :: _ => a.port = port → w.port ≠ port
    | _, _ => True
  | _ => True

theorem passesOn_disconnect_iff {d : Docket} {port : Port} : d.PassesOn (.disconnect port) ↔
    ∀ a ∈ d.arbiter.active, ∀ w ∈ d.arbiter.queue.head?, a.port = port → w.port ≠ port := by
  unfold PassesOn
  cases d.arbiter.active <;> cases d.arbiter.queue <;> simp

instance (d : Docket) : ∀ e, Decidable (d.PassesOn e)
  | .disconnect _ => decidable_of_iff _ passesOn_disconnect_iff.symm
  | .connect _ | .acquire _ _ _ | .release _ _ | .cancel _ => .isTrue trivial

/-- The session is held by a port that is not connected. -/
def Dead (d : Docket) : Prop := ∃ a, d.arbiter.active = some a ∧ a.port ∉ d.ports

section Step
variable {d : Docket}

theorem Dead.not_live (h : Dead d) : ¬ Live d := by
  obtain ⟨a,ha,hp⟩ := h
  exact fun hl => hp (hl.holder a ha)

theorem wakeNext_live {ports : List Port} {s : Arbiter} (ha : s.active = none)
    (hq : ∀ w ∈ s.queue, w.port ∈ ports) : Live ⟨ports,s.wakeNext⟩ := by
  unfold Arbiter.wakeNext
  rw [ha]
  cases hs : s.queue with
  | nil => exact ⟨fun a h => by simp [ha] at h,fun w hw => by simp [hs] at hw⟩
  | cons w rest =>
    rw [hs,List.forall_mem_cons] at hq
    refine ⟨fun a h => ?_,hq.2⟩
    obtain rfl := Option.some.inj h
    exact hq.1

theorem acquire_live (h : Live d) {port : Port} (hp : port ∈ d.ports) (abortToken : String)
    (requestId : ℤ) : Live (d.next (.acquire abortToken port requestId)) := by
  unfold next Arbiter.acquireSession
  cases ha : d.arbiter.active with
  | none =>
    refine ⟨fun a h => ?_,h.waiters⟩
    obtain rfl := Option.some.inj h
    exact hp
  | some a =>
    refine ⟨fun b hb => h.holder b (ha.trans hb),?_⟩
    refine List.forall_mem_append.mpr ⟨h.waiters,?_⟩
    simpa using hp

theorem release_live (h : Live d) (sid : Option ℕ) (port : Port) :
    Live (d.next (.release sid port)) := by
  unfold next Arbiter.releaseSession
  cases ha : d.arbiter.active with
  | none => exact h
  | some a =>
    simp only
    split
    · exact h
    · exact wakeNext_live rfl h.waiters

theorem cancel_live (h : Live d) (abortToken : String) : Live (d.next (.cancel abortToken)) := by
  cases hf : d.arbiter.queue.find? (fun w => w.abortToken == abortToken) with
  | none =>
    simp only [next,Arbiter.cancelAcquire,hf]
    exact h
  | some w =>
    simp only [next,Arbiter.cancelAcquire,hf]
    exact ⟨h.holder,fun v hv => h.waiters v (List.mem_of_mem_eraseP hv)⟩

theorem disconnect_live_iff (hn : d.ports.Nodup) (h : Live d) (port : Port) :
    Live (d.next (.disconnect port)) ↔ d.PassesOn (.disconnect port) := by
  have hrest : ∀ (s : Arbiter) (w : Waiter), w ∈ (Arbiter.purge port s.queue).1 →
      (∀ v ∈ s.queue, v.port ∈ d.ports) → w.port ∈ d.ports.erase port := by
    intro s w hw hs
    rw [Arbiter.purge_queue,List.mem_filter] at hw
    exact hn.mem_erase_iff.mpr ⟨by simpa using hw.2,hs w hw.1⟩
  unfold next Arbiter.disconnect PassesOn
  cases ha : d.arbiter.active with
  | none =>
    refine iff_of_true ⟨fun a h => ?_,fun w hw => hrest _ w hw h.waiters⟩ trivial
    simp [ha] at h
  | some a =>
    by_cases hport : a.port = port
    · simp only [hport,↓reduceIte]
      cases hq : d.arbiter.queue with
      | nil =>
        simp only [Arbiter.wakeNext,Arbiter.clear,hq]
        exact iff_of_true ⟨fun b hb => by simp at hb,fun w hw => by simp at hw⟩ trivial
      | cons w rest =>
        have hwaiters := h.waiters
        rw [hq,List.forall_mem_cons] at hwaiters
        simp only [Arbiter.wakeNext,Arbiter.clear,Arbiter.grant,hq]
        constructor
        · intro hl _
          exact (hn.mem_erase_iff.mp (hl.holder _ rfl)).1
        · intro hpass
          refine ⟨fun b hb => ?_,fun v hv => ?_⟩
          · obtain rfl := Option.some.inj hb
            exact hn.mem_erase_iff.mpr ⟨hpass hport,hwaiters.1⟩
          · exact hrest { d.arbiter with queue := rest } v hv hwaiters.2
    · simp only [hport,↓reduceIte]
      refine iff_of_true ⟨fun b hb => ?_,fun w hw => hrest _ w hw h.waiters⟩ ?_
      · obtain rfl := Option.some.inj (ha.symm.trans hb)
        exact hn.mem_erase_iff.mpr ⟨hport,h.holder a ha⟩
      · split
        · next b w rest hb _ =>
          obtain rfl := Option.some.inj hb
          exact fun hp => absurd hp hport
        · trivial

theorem next_live_iff (hn : d.ports.Nodup) (h : Live d) {e : DocketEvent} (he : d.Enabled e) :
    Live (d.next e) ↔ d.PassesOn e := by
  cases e with
  | connect port =>
    refine iff_of_true ⟨fun a ha => ?_,fun w hw => ?_⟩ trivial
    · exact List.mem_append_left _ (h.holder a ha)
    · exact List.mem_append_left _ (h.waiters w hw)
  | acquire abortToken port requestId =>
    exact iff_of_true (acquire_live h he abortToken requestId) trivial
  | release sid port => exact iff_of_true (release_live h sid port) trivial
  | cancel abortToken => exact iff_of_true (cancel_live h abortToken) trivial
  | disconnect port => exact disconnect_live_iff hn h port

/-- The port that left with the session keeps it: no later disconnect is its own. -/
theorem disconnect_dead (h : Dead d) {port : Port} (hp : port ∈ d.ports) :
    Dead (d.next (.disconnect port)) := by
  obtain ⟨a,ha,hout⟩ := h
  have hne : a.port ≠ port := fun heq => hout (heq ▸ hp)
  refine ⟨a,?_,fun hin => hout (List.mem_of_mem_erase hin)⟩
  unfold next Arbiter.disconnect
  simp only [ha,hne,↓reduceIte]

theorem dead_of_not_passesOn (hn : d.ports.Nodup) {port : Port}
    (h : ¬ d.PassesOn (.disconnect port)) : Dead (d.next (.disconnect port)) := by
  simp only [PassesOn] at h
  split at h
  · next a w rest ha hq =>
    obtain ⟨hport,hself⟩ := Classical.not_imp.mp h
    refine ⟨⟨d.arbiter.nextSid + 1,w.port⟩,?_,fun hin => ?_⟩
    · unfold next Arbiter.disconnect
      simp only [ha,hport,↓reduceIte,Arbiter.wakeNext,Arbiter.clear,Arbiter.grant,hq]
    · exact hself (fun heq => (hn.mem_erase_iff.mp hin).1 heq)
  · exact absurd trivial h

end Step

section Disconnects
variable {d : Docket} {ports : List Port}

theorem disconnects_dead (h : Dead d) (hr : machine.Run d (ports.map .disconnect)) :
    Dead (machine.exec d (ports.map .disconnect)) := by
  induction ports generalizing d with
  | nil => exact h
  | cons port ports ih => exact ih (disconnect_dead h hr.1) hr.2

/-- Over several disconnects in one task, too, liveness is lost exactly when one of them
hands the session to its own port. -/
theorem disconnects_live_iff (hn : d.ports.Nodup) (h : Live d)
    (hr : machine.Run d (ports.map .disconnect)) :
    Live (machine.exec d (ports.map .disconnect)) ↔
      ∀ q ∈ machine.trail d (ports.map .disconnect), q.1.PassesOn q.2 := by
  induction ports generalizing d with
  | nil => simpa using h
  | cons port ports ih =>
    rw [List.map_cons,Machine.exec_cons,Machine.trail_cons,List.forall_mem_cons]
    by_cases hpass : d.PassesOn (.disconnect port)
    · have hlive := (next_live_iff hn h (e := .disconnect port) hr.1).mpr hpass
      rw [machine_next,ih (hn.erase port) hlive hr.2]
      exact (and_iff_right hpass).symm
    · refine iff_of_false ?_ (fun hall => hpass hall.1)
      exact (disconnects_dead (dead_of_not_passesOn hn hpass) hr.2).not_live

end Disconnects
end Docket

namespace State

/-- No step of the docket within this task hands the session to the port that leaves. -/
def PassesOn (s : State) (e : Event) : Prop :=
  ∀ q ∈ Docket.machine.trail s.docket (s.docketEvents e), q.1.PassesOn q.2

theorem next_live_iff {s : State} {e : Event} (hs : Sound s) (h : s.docket.Live)
    (he : Enabled s e) : (s.next e).docket.Live ↔ s.PassesOn e := by
  obtain ⟨hdocket,hrun⟩ := next_docket hs he
  rw [hdocket]
  unfold PassesOn
  have hsingle : ∀ x, s.docketEvents e = [x] →
      ((Docket.machine.exec s.docket (s.docketEvents e)).Live ↔
        ∀ q ∈ Docket.machine.trail s.docket (s.docketEvents e), q.1.PassesOn q.2) := by
    intro x hx
    rw [hx] at hrun ⊢
    simpa using Docket.next_live_iff hs.nodup h hrun.1
  have hnone : s.docketEvents e = [] →
      ((Docket.machine.exec s.docket (s.docketEvents e)).Live ↔
        ∀ q ∈ Docket.machine.trail s.docket (s.docketEvents e), q.1.PassesOn q.2) := by
    intro hx
    rw [hx]
    simpa using h
  cases e with
  | connect now throws => exact hsingle _ rfl
  | message port msg now throws =>
    obtain ⟨requestId,request⟩ := msg
    cases request with
    | disconnect | acquireSession | releaseSession | cancelAcquire => exact hsingle _ rfl
    | ping | teardownCore | currentMeta | updateAvailable | applyUpdate | attachCore | core =>
      exact hnone rfl
  | coreMessage core msg now => exact hnone rfl
  | pingTimeout pingId now => exact hnone rfl
  | heartbeat now later => exact Docket.disconnects_live_iff hs.nodup h hrun

end State

instance (s : State) (e : Event) : Decidable (s.PassesOn e) :=
  inferInstanceAs (Decidable (∀ q ∈ _,_))

/-- A run of the router keeps the holder and all waiters connected exactly when no port
that disconnects with the session is itself the next in line. -/
theorem run_live_iff {es : List Event} (hr : machine.Run .initial es) :
    (∀ p ∈ machine.trail .initial es, (p.1.next p.2).docket.Live) ↔
      ∀ p ∈ machine.trail .initial es, p.1.PassesOn p.2 := by
  refine hr.forall_good_iff (I := State.Sound) (G := fun s => s.docket.Live)
    (fun s e hs he => State.next_sound hs he)
    (fun s e hs hg he => State.next_live_iff hs hg he) State.sound_initial ?_
  exact ⟨fun a ha => by simp [State.docket,State.initial,Arbiter.initial] at ha,
    fun w hw => by simp [State.docket,State.initial,Arbiter.initial] at hw⟩

/-- Two tabs; the first holds the session when the second queues up and then leaves. -/
def handOverRun : List Event :=
  [.connect 0 false,.connect 0 false,
    .message 0 ⟨1,.acquireSession (some "a")⟩ 1 false,
    .message 1 ⟨1,.acquireSession (some "b")⟩ 2 false,
    .message 0 ⟨-1,.disconnect⟩ 3 false]

theorem handOverRun_live : machine.Run .initial handOverRun ∧
    ∀ p ∈ machine.trail .initial handOverRun, (p.1.next p.2).docket.Live :=
  ⟨by decide,(run_live_iff (by decide)).mpr (by decide)⟩

/-- As before, with a second acquire of the first tab ahead of the other tab's. -/
def selfWakeRun : List Event :=
  [.connect 0 false,.connect 0 false,
    .message 0 ⟨1,.acquireSession (some "a")⟩ 1 false,
    .message 0 ⟨2,.acquireSession (some "b")⟩ 2 false,
    .message 1 ⟨1,.acquireSession (some "c")⟩ 3 false,
    .message 0 ⟨-1,.disconnect⟩ 4 false]

/-- The tab that left holds the session, the connected one waits for it. -/
theorem selfWakeRun_dead : ¬ ∀ s, machine.Reachable .initial s → s.docket.Live := by
  intro h
  have hlive := h (machine.exec .initial selfWakeRun) ⟨selfWakeRun,by decide,rfl⟩
  exact absurd (hlive.holder ⟨3,0⟩ (by decide)) (by decide)

end Rullama.Router
