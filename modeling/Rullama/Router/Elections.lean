import Mathlib.Data.List.Nodup
import Rullama.Router.Replies

/-! # Elections that time out

The heartbeat gives up on an elected tab that attaches no core and elects the first tab
of `PORTS`, which may be the same one again.
-/
namespace Rullama.Router
open Transition

namespace Docket

theorem exec_disconnects_ports (d : Docket) (ports : List Port) :
    (machine.exec d (ports.map .disconnect)).ports = d.ports.diff ports := by
  induction ports generalizing d with
  | nil => rfl
  | cons port ports ih =>
    rw [List.map_cons,Machine.exec_cons,ih,List.diff_cons]
    rfl

end Docket

namespace State
variable {s : State} {e : Event}

/-- No election runs while a core is attached. -/
def Electing (s : State) : Prop := s.electionInFlight.isSome → s.corePort = none

theorem act_electing {a : Act} (h : Electing s) : Electing (s.act a) := by
  cases a with
  | tell | aside | join | leave | arbitrate | stray => exact h
  | reply =>
    rw [act_reply]
    exact h
  | settle =>
    rw [act_settle]
    exact h
  | elect tab now =>
    rw [act_elect]
    intro hel
    by_cases hset : s.Settled
    · exact h (by simpa [hset] using hel)
    · exact Option.not_isSome_iff_eq_none.mp (not_or.mp hset).1
  | abandon | attach => exact fun hel => by simp [act] at hel
  | lose => exact fun _ => rfl
  | forward port requestId call kept =>
    have hframe := s.forward_frame port requestId call kept
    unfold Electing
    rwa [hframe.electionInFlight,hframe.corePort]
  | relay childReqId outcome =>
    have hframe := s.relay_frame childReqId outcome
    unfold Electing
    rwa [hframe.electionInFlight,hframe.corePort]

theorem reachable_electing (h : machine.Reachable .initial s) : Electing s := by
  refine reachable_invariant (I := Electing) ?_ h ?_
  · intro s a _ hel _
    exact act_electing hel
  · intro hel
    simp [initial] at hel

/-- The tabs that the reaper of a heartbeat leaves connected. -/
def survivors (s : State) (now : ℕ) : List Port := s.ports.filter (fun port => !s.isStale now port)

theorem reap_ports (hs : Sound s) (now : ℕ) : (s.reap now).ports = s.survivors now := by
  have h := congrArg Docket.ports (s.reap_performs now hs).docket_eq
  have hevents : ((s.ports.filter (s.isStale now)).map
      (fun p => Mark.docket (.disconnect p))).filterMap Mark.docket? =
        (s.ports.filter (s.isStale now)).map .disconnect := s.marks_docket (.heartbeat now now)
  rw [hevents,Docket.exec_disconnects_ports] at h
  apply h.trans
  change s.ports.diff _ = _
  rw [hs.nodup.sdiff_eq_filter]
  apply List.filter_congr
  intro port hport
  simp [hport]

/-- The tab that a heartbeat gives up on. -/
def timedOut (s : State) : Event → Option Port
  | .heartbeat now later =>
    match (s.reap now).electionInFlight with
    | some election =>
      if later - election.startedAt > ELECTION_TIMEOUT_MS then some election.tab else none
    | none => none
  | _ => none

/-- With another tab connected, the next election is not for the tab given up on. -/
def MovesOn (s : State) (e : Event) : Prop :=
  ∀ stuck, s.timedOut e = some stuck → 2 ≤ (s.next e).ports.length →
    ∃ election, (s.next e).electionInFlight = some election ∧ election.tab ≠ stuck

/-- With another tab connected, the tab given up on is not the first of those connected. -/
def StuckNotFirst (s : State) (e : Event) : Prop :=
  match e,s.timedOut e with
  | .heartbeat now _,some stuck => 2 ≤ (s.survivors now).length →
      (s.survivors now).head? ≠ some stuck
  | _,_ => True

theorem stuckNotFirst_heartbeat_iff {s : State} {now later : ℕ} :
    s.StuckNotFirst (.heartbeat now later) ↔ ∀ stuck ∈ s.timedOut (.heartbeat now later),
      2 ≤ (s.survivors now).length → (s.survivors now).head? ≠ some stuck := by
  unfold StuckNotFirst
  cases s.timedOut (.heartbeat now later) <;> simp

instance (s : State) : ∀ e, Decidable (s.StuckNotFirst e)
  | .heartbeat _ _ => decidable_of_iff _ stuckNotFirst_heartbeat_iff.symm
  | .connect _ _ | .message _ _ _ _ | .coreMessage _ _ _ | .pingTimeout _ _ => .isTrue trivial

theorem electionTimeout_eq (t : State) {election : Election} (later : ℕ)
    (h : t.electionInFlight = some election) (hel : Electing t)
    (hlate : later - election.startedAt > ELECTION_TIMEOUT_MS) :
    (t.electionTimeout later).electionInFlight =
      t.ports.head?.map (fun next => ⟨next,later⟩) := by
  have hc : t.corePort = none := hel (by simp [h])
  unfold electionTimeout
  rw [h]
  simp only [if_pos hlate,nextElectableTab,log_eq,emit_ports]
  cases hp : t.ports.head? with
  | none => rfl
  | some next =>
    simp only [ite_self,electHost_eq]
    simp [Settled,hc]

theorem next_movesOn_iff (hs : Sound s) (hel : Electing s) (he : Enabled s e) :
    s.MovesOn e ↔ s.StuckNotFirst e := by
  cases e with
  | heartbeat now later =>
    cases htimed : s.timedOut (.heartbeat now later) with
    | none => simp [MovesOn,StuckNotFirst,htimed]
    | some stuck =>
      obtain ⟨election,helection,hlate,rfl⟩ : ∃ election,
          (s.reap now).electionInFlight = some election ∧
            later - election.startedAt > ELECTION_TIMEOUT_MS ∧ election.tab = stuck := by
        simp only [timedOut] at htimed
        split at htimed
        · next election h =>
          split at htimed
          · next hlate => exact ⟨election,h,hlate,Option.some.inj htimed⟩
          · simp at htimed
        · simp at htimed
      have hports : (s.next (.heartbeat now later)).ports = s.survivors now := by
        have htimeout := (s.reap now).electionTimeout_performs later
        have hsound := htimeout.sound ((s.reap_performs now hs).sound hs)
        rw [← s.reap_ports hs now]
        have hnext := htimeout.trans (runMicrotasks_performs _ hsound s.arbiter.history.length)
        have h := congrArg Docket.ports hnext.docket_eq
        rwa [List.nil_append,settled_docket] at h
      have hreap : Electing (s.reap now) :=
        (s.reap_performs now hs).invariant (fun _ _ h _ => act_electing h) hel
      have hnext : (s.next (.heartbeat now later)).electionInFlight =
          (s.survivors now).head?.map (fun next => ⟨next,later⟩) := by
        rw [← s.reap_ports hs now,← electionTimeout_eq _ later helection hreap hlate]
        exact runMicrotasks_electionInFlight _ _
      simp only [MovesOn,StuckNotFirst,htimed,hports,hnext,Option.some.injEq,forall_eq']
      apply imp_congr_right
      intro htwo
      cases hsurvivors : s.survivors now with
      | nil => simp [hsurvivors] at htwo
      | cons next rest => simp
  | connect | message | coreMessage | pingTimeout =>
    exact iff_of_true (fun _ h => by simp [timedOut] at h) trivial

end State

/-- Over a run every election that times out moves on exactly when the tab given up on is
never the first of several connected ones. -/
theorem run_movesOn_iff {es : List Event} (hr : machine.Run .initial es) :
    (∀ p ∈ machine.trail .initial es, p.1.MovesOn p.2) ↔
      ∀ p ∈ machine.trail .initial es, p.1.StuckNotFirst p.2 := by
  apply forall₂_congr
  intro p hp
  obtain ⟨hreach,he⟩ := hr.reachable_of_mem hp
  exact State.next_movesOn_iff (State.reachable_sound hreach) (State.reachable_electing hreach) he

/-- The second of two tabs is elected, since it asked for the core, and never attaches one. -/
def lateTabRun : List Event :=
  [.connect 0 false,.message 0 ⟨1,.attachCore true⟩ 1 false,.connect 2 false,
    .message 0 ⟨-1,.teardownCore⟩ 3 false,
    .message 1 ⟨1,.core ⟨.stateless "position",.undefined,"{}"⟩⟩ 4 false,
    .heartbeat 16000 16000]

theorem lateTabRun_movesOn : machine.Run .initial lateTabRun ∧
    ∀ p ∈ machine.trail .initial lateTabRun, p.1.MovesOn p.2 :=
  ⟨by decide,(run_movesOn_iff (by decide)).mpr (by decide)⟩

/-- The host is lost to a failed ping and elected again; it still holds the worker of the
lost core and attaches none. -/
def formerHostRun : List Event :=
  [.connect 0 false,.message 0 ⟨1,.attachCore true⟩ 1 false,.connect 2 false,
    .pingTimeout 1000000000 802,.heartbeat 16000 16000]

/-- With another tab connected, the former host is elected once more. -/
theorem formerHostRun_stuck :
    ¬ ∀ es, machine.Run .initial es → ∀ p ∈ machine.trail .initial es, p.1.MovesOn p.2 := by
  intro h
  have hlast : (machine.exec .initial (formerHostRun.take 4),.heartbeat 16000 16000) ∈
      machine.trail .initial formerHostRun :=
    .tail _ (.tail _ (.tail _ (.tail _ (.head _))))
  obtain ⟨election,hnext,hne⟩ := h formerHostRun (by decide) _ hlast 0 (by decide) (by decide)
  have htab : (machine.exec .initial formerHostRun).electionInFlight = some ⟨0,16000⟩ := by decide
  obtain rfl := Option.some.inj (htab.symm.trans hnext)
  exact hne rfl

end Rullama.Router
