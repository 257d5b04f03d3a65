import Rullama.Router.Tasks

/-! # The core's timeline in the trace

A monitor follows the attached core through the trace alone and says when each effect
may come: RPCs go to the attached core, `core disconnected` is told only while no core
is attached, and `coreReady` only while one is.
-/
namespace Rullama.Router
open Transition

namespace Coreline

def Enabled (core : Option Core) : Effect → Prop
  | .startCore _ _ => core = none
  | .forward _ c _ _ _ _ => core = some c
  | .reject _ _ _ => core = none
  | .post _ (.reply _ outcome) => outcome = .error "core disconnected" → core = none
  | .post _ (.notify .coreReady) => core.isSome
  | _ => True

def next (core : Option Core) : Effect → Option Core
  | .startCore c _ => some c
  | .closeCore c => if core = some c then none else core
  | _ => core

def machine : Machine (Option Core) Effect where
  enabled := Enabled
  next := next

/-- Effects that move no core. -/
def Still : Effect → Prop
  | .startCore _ _ | .closeCore _ => False
  | _ => True

theorem still {k : Option Core} {l : List Effect} (h : ∀ fx ∈ l, Still fx ∧ Enabled k fx) :
    machine.Run k l ∧ machine.exec k l = k := by
  induction l with
  | nil => exact ⟨trivial,rfl⟩
  | cons fx effects ih =>
    rw [List.forall_mem_cons] at h
    have hnext : machine.next k fx = k := by
      obtain ⟨⟨hstill,_⟩,_⟩ := h
      cases fx <;> first | rfl | exact absurd hstill id
    obtain ⟨hrun,hexec⟩ := ih h.2
    exact ⟨⟨h.1.2,by rwa [hnext]⟩,by rw [Machine.exec_cons,hnext,hexec]⟩

/-- A core that is no longer the attached one was closed. -/
theorem closed_of_exec {c : Core} {effects : List Effect} (hr : machine.Run (some c) effects)
    (h : machine.exec (some c) effects ≠ some c) : .closeCore c ∈ effects := by
  induction effects with
  | nil => exact absurd rfl h
  | cons fx effects ih =>
    obtain ⟨he,hr⟩ := hr
    by_cases hclose : fx = .closeCore c
    · rw [hclose]
      exact List.mem_cons_self
    · have hnext : machine.next (some c) fx = some c := by
        cases fx with
        | startCore d host => exact absurd he (by simp [machine,Enabled])
        | closeCore d =>
          have hne : c ≠ d := fun heq => hclose (by rw [heq])
          simp [machine,next,hne]
        | _ => rfl
      rw [hnext] at hr
      rw [Machine.exec_cons,hnext] at h
      exact List.mem_cons_of_mem _ (ih hr h)

/-- Where none was attached before and one is after, a core was started. -/
theorem started_of_exec {effects : List Effect} (h : (machine.exec none effects).isSome) :
    ∃ pre c host post, effects = pre ++ .startCore c host :: post := by
  induction effects with
  | nil => simp at h
  | cons fx effects ih =>
    cases fx with
    | startCore c host => exact ⟨[],c,host,effects,rfl⟩
    | _ =>
      obtain ⟨pre,c,host,post,hsplit⟩ := ih h
      exact ⟨_ :: pre,c,host,post,by rw [hsplit]; rfl⟩

end Coreline

namespace State

/-- The trace is the timeline of the attached core, whose number is below the next. -/
structure Timeline (s : State) : Prop where
  run : Coreline.machine.Run none s.trace
  exec : Coreline.machine.exec none s.trace = s.corePort
  below : ∀ core, s.corePort = some core → core < s.nextCore

theorem timeline_initial : Timeline .initial := ⟨trivial,rfl,fun _ h => by simp [initial] at h⟩

section Acts
variable {s : State}

theorem lose_coreline (s : State) (reason : String) :
    Coreline.machine.Run s.corePort (s.emits (.lose reason)) ∧
      Coreline.machine.exec s.corePort (s.emits (.lose reason)) = none := by
  have hlog := Coreline.still (k := s.corePort)
    (l := s.broadcast (.log [s!"core: lost ({reason})"])) (fun fx hfx => by
      obtain ⟨_,_,rfl⟩ := s.mem_broadcast.mp hfx
      exact ⟨trivial,trivial⟩)
  have hclose : Coreline.machine.Run s.corePort (s.corePort.toList.map Effect.closeCore) ∧
      Coreline.machine.exec s.corePort (s.corePort.toList.map Effect.closeCore) = none := by
    cases s.corePort with
    | none => exact ⟨trivial,rfl⟩
    | some core => exact ⟨⟨trivial,trivial⟩,if_pos rfl⟩
  have hrejects := Coreline.still (k := none) (l := s.pendingChild.flatMap s.rejected)
    (fun fx hfx => by
      obtain ⟨entry,_,hfx⟩ := List.mem_flatMap.mp hfx
      obtain ⟨_,rfl⟩ := s.mem_rejected.mp hfx
      exact ⟨trivial,rfl⟩)
  have hfreed := Coreline.still (k := none)
    (l := if s.loadedInfo.isSome then s.broadcast (.notify .modelFreed) else [])
    (fun fx hfx => by
      split at hfx
      · obtain ⟨_,_,rfl⟩ := s.mem_broadcast.mp hfx
        exact ⟨trivial,trivial⟩
      · simp at hfx)
  simp only [emits,Machine.run_append,Machine.exec_append,hlog.2,hclose.2,hrejects.2,hfreed.2]
  exact ⟨⟨⟨⟨hlog.1,hclose.1⟩,hrejects.1⟩,hfreed.1⟩,trivial⟩

/-- An act extends the timeline by what it emits. -/
theorem act_coreline {a : Act} (h : Timeline s) (ha : s.Allows a) :
    Coreline.machine.Run s.corePort (s.emits a) ∧
      Coreline.machine.exec s.corePort (s.emits a) = (s.act a).corePort := by
  cases a with
  | tell effects =>
    apply Coreline.still
    intro fx hfx
    obtain ⟨hnotice,hready⟩ := ha fx hfx
    cases fx with
    | post port msg =>
      cases msg with
      | reply => simp [Effect.isNotice] at hnotice
      | log => exact ⟨trivial,trivial⟩
      | notify n =>
        cases n with
        | coreReady => exact ⟨trivial,hready port rfl⟩
        | _ => exact ⟨trivial,trivial⟩
    | pingCore | shutdown | closePort => exact ⟨trivial,trivial⟩
    | answer | reject | forward | startCore | closeCore => simp [Effect.isNotice] at hnotice
  | aside | join | leave | arbitrate | abandon => exact ⟨trivial,rfl⟩
  | reply port requestId outcome =>
    rw [act_reply]
    apply Coreline.still
    intro fx hfx
    obtain ⟨_,rfl⟩ := (s.mem_posted port).mp hfx
    exact ⟨trivial,ha.1⟩
  | settle r =>
    rw [act_settle]
    apply Coreline.still
    intro fx hfx
    cases r with
    | granted w sid =>
      obtain ⟨_,rfl⟩ := (s.mem_posted w.port).mp hfx
      exact ⟨trivial,fun h => by simp at h⟩
    | rejected w error =>
      obtain ⟨_,rfl⟩ := (s.mem_posted w.port).mp hfx
      exact ⟨trivial,fun h => absurd (Except.error.inj h) ha⟩
    | ended sid => simp [emits] at hfx
  | elect tab now =>
    rw [act_elect]
    apply Coreline.still
    intro fx hfx
    simp only [emits] at hfx
    split at hfx
    · simp at hfx
    · obtain ⟨_,rfl⟩ := (s.mem_posted tab).mp hfx
      exact ⟨trivial,trivial⟩
  | attach host => exact ⟨⟨ha.1,trivial⟩,rfl⟩
  | stray =>
    refine ⟨⟨trivial,trivial⟩,?_⟩
    have hne : s.corePort ≠ some s.nextCore := fun hc => Nat.lt_irrefl _ (h.below _ hc)
    exact if_neg hne
  | lose reason => exact lose_coreline s reason
  | forward port requestId call kept =>
    rw [(s.forward_frame port requestId call kept).corePort]
    apply Coreline.still
    intro fx hfx
    obtain ⟨core,hc,rfl⟩ := List.mem_map.mp hfx
    exact ⟨trivial,Option.mem_toList.mp hc⟩
  | relay childReqId outcome =>
    rw [(s.relay_frame childReqId outcome).corePort]
    apply Coreline.still
    intro fx hfx
    obtain ⟨p,_,hfx⟩ := List.mem_flatMap.mp hfx
    obtain ⟨_,rfl⟩ := s.mem_answered.mp hfx
    exact ⟨trivial,trivial⟩

theorem act_below {a : Act} (h : Timeline s) {core : Core} (hc : (s.act a).corePort = some core) :
    core < (s.act a).nextCore := by
  cases a with
  | tell | aside | join | leave | arbitrate | abandon => exact h.below core hc
  | reply =>
    rw [act_reply] at hc ⊢
    exact h.below core hc
  | settle =>
    rw [act_settle] at hc ⊢
    exact h.below core hc
  | elect =>
    rw [act_elect] at hc ⊢
    exact h.below core hc
  | attach host =>
    obtain rfl := Option.some.inj hc
    exact Nat.lt_succ_self _
  | stray => exact Nat.lt_succ_of_lt (h.below core hc)
  | lose reason => simp [act,lost] at hc
  | forward port requestId call kept =>
    have hframe := s.forward_frame port requestId call kept
    rw [hframe.corePort] at hc
    exact hframe.nextCore ▸ h.below core hc
  | relay childReqId outcome =>
    have hframe := s.relay_frame childReqId outcome
    rw [hframe.corePort] at hc
    exact hframe.nextCore ▸ h.below core hc

theorem act_timeline {a : Act} (h : Timeline s) (ha : s.Allows a) : Timeline (s.act a) := by
  obtain ⟨hrun,hexec⟩ := act_coreline h ha
  refine ⟨?_,?_,fun core hc => act_below h hc⟩
  · rw [act_trace,Machine.run_append,h.exec]
    exact ⟨h.run,hrun⟩
  · rw [act_trace,Machine.exec_append,h.exec]
    exact hexec

end Acts

theorem reachable_timeline {s : State} (h : machine.Reachable .initial s) : Timeline s :=
  reachable_invariant (I := Timeline) (fun _ _ _ ht ha => act_timeline ht ha) h timeline_initial

theorem next_timeline {s : State} {e : Event} (hs : Sound s) (h : Timeline s) (he : Enabled s e) :
    Timeline (s.next e) :=
  (next_performs hs he).invariant (fun _ _ ht ha => act_timeline ht ha) h

/-- A step extends the timeline by its effects. -/
theorem next_coreline {s : State} {e : Event} (hs : Sound s) (h : Timeline s) (he : Enabled s e) :
    Coreline.machine.Run s.corePort (s.effects e) ∧
      Coreline.machine.exec s.corePort (s.effects e) = (s.next e).corePort := by
  obtain ⟨hrun,hexec,-⟩ := next_timeline hs h he
  rw [next_trace hs he,Machine.run_append,h.exec] at hrun
  rw [next_trace hs he,Machine.exec_append,h.exec] at hexec
  exact ⟨hrun.2,hexec⟩

end State
end Rullama.Router
