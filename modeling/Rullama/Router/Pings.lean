import Rullama.Router.Replies
import Rullama.Router.Timeline

/-! # Liveness pings

A ping remembers the core it was sent to; the continuation of a failed ping loses
whatever core is attached when it runs.
-/
namespace Rullama.Router
open Transition

namespace State
variable {s : State} {e : Event}

/-- The ping that a step settles as failed: on its timeout, on an error reply, or at once
when it cannot be posted. -/
def failedPing (s : State) : Event → Option PingWaiter
  | .pingTimeout pingId _ => s.pingsAwaitingPong.lookup pingId
  | .coreMessage _ (.reply pingId (.error _)) _ => s.pingsAwaitingPong.lookup pingId
  | .connect _ true => s.corePort.map (fun core => ⟨core,s.nextPort⟩)
  | _ => none

/-- A failed ping closes no core but the pinged one and ends no RPC but those forwarded to
it. -/
def PingHarmless (s : State) (e : Event) : Prop :=
  ∀ w, s.failedPing e = some w →
    (∀ core, .closeCore core ∈ s.effects e → core = w.core) ∧
      ∀ fx ∈ s.effects e, ∀ id port requestId, fx.Ends id port requestId →
        s.ForwardedTo id w.core port requestId

/-- When a ping fails, the attached core, if any, is the pinged one. -/
def PingCurrent (s : State) (e : Event) : Prop :=
  match s.failedPing e with
  | some w => s.corePort = none ∨ s.corePort = some w.core
  | none => True

instance (s : State) (e : Event) : Decidable (s.PingCurrent e) := by
  unfold PingCurrent
  split <;> infer_instance

theorem failedPing_marks {w : PingWaiter} (h : s.failedPing e = some w) :
    ∀ m ∈ s.marks e, m ≠ .attach ∧
      ∀ port requestId call kept, m ≠ .forward port requestId call kept := by
  cases e with
  | connect | coreMessage | pingTimeout => simp [marks]
  | message | heartbeat => simp [failedPing] at h

theorem emits_closeCore {a : Act} (ha : s.Allows a) (hm : .attach ∉ a.marks) {core : Core}
    (h : .closeCore core ∈ s.emits a) : s.corePort = some core := by
  cases a with
  | tell effects => exact absurd (ha _ h).1 (by simp [Effect.isNotice])
  | lose reason =>
    simp only [emits,List.mem_append,List.mem_flatMap] at h
    rcases h with ((h | h) | ⟨_,_,h⟩) | h
    · simp at h
    · simpa using h
    · simp at h
    · split at h <;> simp at h
  | settle r => cases r <;> simp [emits] at h
  | elect tab now =>
    simp only [emits] at h
    split at h <;> simp at h
  | stray => exact absurd List.mem_cons_self hm
  | aside | reply | join | leave | arbitrate | abandon | attach | forward | relay =>
    simp [emits] at h

theorem act_corePort {a : Act} (hm : .attach ∉ a.marks) :
    (s.act a).corePort = none ∨ (s.act a).corePort = s.corePort := by
  cases a with
  | tell | aside | join | leave | arbitrate | abandon => exact .inr rfl
  | reply => exact .inr (by rw [act_reply]; rfl)
  | settle => exact .inr (by rw [act_settle]; rfl)
  | elect => exact .inr (by rw [act_elect]; rfl)
  | attach | stray => exact absurd List.mem_cons_self hm
  | lose => exact .inl rfl
  | forward port requestId call kept => exact .inr (s.forward_frame port requestId call kept).corePort
  | relay childReqId outcome => exact .inr (s.relay_frame childReqId outcome).corePort

/-- A step that attaches nothing closes only the attached core. -/
theorem effects_closeCore (hs : Sound s) (he : Enabled s e) (hm : .attach ∉ s.marks e) {core : Core}
    (h : .closeCore core ∈ s.effects e) : s.corePort = some core := by
  have hact : ∀ (t : State) (a : Act), (t.corePort = none ∨ t.corePort = s.corePort) →
      t.Allows a → (∀ m ∈ a.marks, m ≠ Mark.attach) →
      ((t.act a).corePort = none ∨ (t.act a).corePort = s.corePort) ∧
        ∀ fx ∈ t.emits a, ∀ core, fx = .closeCore core → s.corePort = some core := by
    intro t a hI ha hm
    have hm : Mark.attach ∉ a.marks := fun h => hm _ h rfl
    refine ⟨?_,?_⟩
    · rcases act_corePort hm (s := t) with h | h
      · exact .inl h
      · exact hI.imp (h.trans ·) (h.trans ·)
    · rintro fx hfx core rfl
      have hc := emits_closeCore ha hm hfx
      exact (hI.resolve_left (by simp [hc])).symm.trans hc
  have hC : ∀ m ∈ s.marks e, m ≠ Mark.attach := by
    rintro m hmem rfl
    exact hm hmem
  exact (effects_of_acts hact hs he hC (by simp) (.inr rfl)).2 _ h core rfl

theorem pingSettled_corePort (t : State) (p : PingWaiter) (now : ℕ) :
    (t.pingSettled p false now).corePort = none := by
  unfold pingSettled
  simp only [Bool.false_eq_true,↓reduceIte]
  split
  · rw [electHost_corePort]
    exact loseCore_corePort _ _ _ _
  · exact loseCore_corePort _ _ _ _

theorem finishPing_corePort (t : State) {pingId : ℕ} {p : PingWaiter}
    (h : t.pingsAwaitingPong.lookup pingId = some p) (now : ℕ) :
    (t.finishPing pingId false now).corePort = none := by
  unfold finishPing
  rw [h]
  exact pingSettled_corePort _ p now

theorem verifyCoreLive_failed (t : State) (core : Core) (tab : Port) (now : ℕ) :
    (t.verifyCoreLive core tab now true).corePort = none := by
  have hlook : (t.pingsAwaitingPong ++ [(t.nextPingId,PingWaiter.mk core tab)]).lookup
      t.nextPingId ≠ none := by
    simp [List.lookup_append]
  obtain ⟨p,hp⟩ := Option.ne_none_iff_exists'.mp hlook
  exact finishPing_corePort _ hp now

/-- After a failed ping no core is attached. -/
theorem next_failedPing {w : PingWaiter} (h : s.failedPing e = some w) :
    (s.next e).corePort = none := by
  unfold next
  rw [runMicrotasks_corePort]
  cases e with
  | pingTimeout pingId now => exact finishPing_corePort s h now
  | coreMessage core msg now =>
    cases msg with
    | reply pingId outcome =>
      cases outcome with
      | ok result => simp [failedPing] at h
      | error error =>
        simp only [failedPing] at h
        simp only [task,onCoreMessage,h,Option.isSome_some,↓reduceIte]
        exact finishPing_corePort s h now
    | log | modelLoaded | modelFreed | notify => simp [failedPing] at h
  | connect now throws =>
    cases throws with
    | false => simp [failedPing] at h
    | true =>
      obtain ⟨core,hc,-⟩ := Option.map_eq_some_iff.mp h
      simp only [task,onconnect,post_eq,emit_corePort,hc]
      exact verifyCoreLive_failed _ core s.nextPort now
  | message | heartbeat => simp [failedPing] at h

theorem next_pingHarmless_iff (hs : Sound s) (hl : Ledger s) (ht : Timeline s) (he : Enabled s e) :
    s.PingHarmless e ↔ s.PingCurrent e := by
  unfold PingCurrent
  cases hw : s.failedPing e with
  | none => exact iff_of_true (fun w h => by simp [hw] at h) trivial
  | some w =>
    have hmarks := failedPing_marks hw
    have hattach : .attach ∉ s.marks e := fun h => (hmarks _ h).1 rfl
    constructor
    · intro h
      cases hc : s.corePort with
      | none => exact .inl rfl
      | some c =>
        obtain ⟨hrun,hexec⟩ := next_coreline hs ht he
        rw [hc] at hrun hexec
        have hclosed := Coreline.closed_of_exec hrun (by
          rw [hexec,next_failedPing hw]
          simp)
        rw [(h w hw).1 c hclosed]
        exact .inr rfl
    · intro hcur v hv
      obtain rfl := Option.some.inj (hw.symm.trans hv)
      refine ⟨fun core hclose => ?_,fun fx hfx id port requestId hends => ?_⟩
      · have hc := effects_closeCore hs he hattach hclose
        exact Option.some.inj ((hc.symm.trans (hcur.resolve_left (by simp [hc]))))
      · have hmem := effects_ends hs he (fun m hm => (hmarks m hm).2) hfx hends
        obtain ⟨_,_,core,hc,hf⟩ := hl.pending id port requestId hmem
        obtain rfl := Option.some.inj ((hc.symm.trans (hcur.resolve_left (by simp [hc]))))
        exact hf

end State

/-- Over a run every failed ping is harmless exactly when each finds the core it was sent
to attached, or none. -/
theorem run_pingHarmless_iff {es : List Event} (hr : machine.Run .initial es) :
    (∀ p ∈ machine.trail .initial es, p.1.PingHarmless p.2) ↔
      ∀ p ∈ machine.trail .initial es, p.1.PingCurrent p.2 := by
  apply forall₂_congr
  intro p hp
  obtain ⟨hreach,he⟩ := hr.reachable_of_mem hp
  exact State.next_pingHarmless_iff (State.reachable_sound hreach) (State.reachable_ledger hreach)
    (State.reachable_timeline hreach) he

/-- A second tab pings a core that never answers. -/
def deadCoreRun : List Event :=
  [.connect 0 false,.message 0 ⟨1,.attachCore true⟩ 1 false,.connect 2 false,
    .message 1 ⟨1,.core ⟨.stateless "position",.undefined,"{}"⟩⟩ 3 false,
    .pingTimeout 1000000000 802]

theorem deadCoreRun_harmless : machine.Run .initial deadCoreRun ∧
    ∀ p ∈ machine.trail .initial deadCoreRun, p.1.PingHarmless p.2 :=
  ⟨by decide,(run_pingHarmless_iff (by decide)).mpr (by decide)⟩

/-- The host leaves while the second tab's ping is under way, and the second tab attaches
a core of its own before the ping times out. -/
def stalePingRun : List Event :=
  [.connect 0 false,.message 0 ⟨1,.attachCore true⟩ 1 false,.connect 2 false,
    .message 0 ⟨-1,.disconnect⟩ 3 false,.message 1 ⟨1,.attachCore true⟩ 300 false,
    .pingTimeout 1000000000 802]

/-- The ping was sent to the first core and closes the second. -/
theorem stalePingRun_harmful :
    ¬ ∀ es, machine.Run .initial es → ∀ p ∈ machine.trail .initial es, p.1.PingHarmless p.2 := by
  intro h
  have hlast : (machine.exec .initial (stalePingRun.take 5),.pingTimeout 1000000000 802) ∈
      machine.trail .initial stalePingRun :=
    .tail _ (.tail _ (.tail _ (.tail _ (.tail _ (.head _)))))
  have hcore := (h stalePingRun (by decide) _ hlast ⟨0,1⟩ (by decide)).1 1 (by decide)
  exact absurd hcore (by decide)

end Rullama.Router
