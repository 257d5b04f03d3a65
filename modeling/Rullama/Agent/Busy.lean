import Rullama.Agent.Process

/-! # The busy flag and the exit of the process

`is_busy` is one flag for any number of turns. Whoever ends a turn clears it, whatever else
is in progress, and so do `Cancel` and an input in plan mode; a pending request that fails
leaves it set. The flag is right as long as no such event meets the wrong turns.
-/
namespace Rullama.Agent
open Transition

/-- All ends of a turn clear the flag but that of a pending request that fails. -/
def Turn.ClearsFlag (t : Turn) (result : Except String String) : Prop :=
  match t.kind,result with
  | .pending,.error _ => False
  | _,_ => True

instance (t : Turn) (result : Except String String) : Decidable (t.ClearsFlag result) :=
  match t,result with
  | ⟨_,.pending,_,_⟩,.error _ => .isFalse id
  | ⟨_,.pending,_,_⟩,.ok _ | ⟨_,.input,_,_⟩,_ | ⟨_,.queued _,_,_⟩,_ => .isTrue trivial

/-- `Exit`, `/exit`, the parent's `Shutdown` and a `Detach` that asks for it. -/
def ProcessEvent.RequestsExit : ProcessEvent → Prop
  | .exit _ | .parentSignal _ .shutdown => True
  | .slashCommand _ _ blocked (.ok (.action .exit _)) => blocked = false
  | .detach _ exitWhenDone => exitWhenDone = true
  | _ => False

namespace Process

/-- The flag is set exactly while some turn is in progress, `Exit` and `/exit` apart, and
the process can end accordingly. -/
structure Honest (p : Process) : Prop where
  busy : p.agent.isBusy = true → p.agent.turns ≠ []
  running : p.agent.turns ≠ [] → p.agent.isBusy = true ∨ p.exitAsked = true
  stays : p.checkExitCondition = true → p.agent.turns = [] ∨ p.exitAsked = true
  exits : p.exitWhenDone = true → p.agent.turns = [] → p.checkExitCondition = true

/-- No turn is in progress, or `Exit` or `/exit` was received. -/
def Clearable (p : Process) (turns : List Turn) : Prop := turns = [] ∨ p.exitAsked = true

/-- The flag is cleared only when that is right, the last turn in progress clears it, and
the parent's `Shutdown` finds `exit_when_done` set. -/
def KeepsFlag (p : Process) : ProcessEvent → Prop
  | .chat (.cancel _) => p.Clearable p.agent.turns
  | .chat (.turnEnds turn result) => ∀ t ∈ p.agent.turn? turn,
      if t.ClearsFlag result then p.Clearable (p.agent.leave turn).turns
      else (p.agent.leave turn).turns = [] → p.agent.isBusy = false
  | .chat (.turnDies turn) => (p.agent.leave turn).turns = [] → p.agent.isBusy = false
  | .processPlanModeInput _ _ => p.isPlanMode = true → p.Clearable p.agent.turns
  | .parentSignal _ .shutdown => p.exitWhenDone = true
  | _ => True

instance (p : Process) (turns : List Turn) : Decidable (p.Clearable turns) :=
  inferInstanceAs (Decidable (_ ∨ _))

instance (p : Process) : ∀ e, Decidable (p.KeepsFlag e)
  | .chat (.cancel _) => inferInstanceAs (Decidable (p.Clearable _))
  | .chat (.turnEnds turn _) => inferInstanceAs (Decidable (∀ t ∈ p.agent.turn? turn, _))
  | .chat (.turnDies _) | .processPlanModeInput _ _ => inferInstanceAs (Decidable (_ → _))
  | .parentSignal _ .shutdown => inferInstanceAs (Decidable (p.exitWhenDone = true))
  | .chat (.attach _) | .chat (.subscribe _) | .chat (.disconnect _) | .chat (.userInput _ _)
  | .chat (.announce _) | .chat (.syncRequest _) | .chat (.queueMessage _ _) | .chat .startPending
  | .chat (.stream _ _) | .chat .popQueued | .chat (.beginQueued _ _) | .chat (.drainDies _)
  | .detach _ _ | .exit _ | .slashCommand _ _ _ _ | .parentSignal _ .parentExiting
  | .parentSignal _ .detached | .enterPlanMode _ _ _ _ | .exitPlanMode _ _
  | .planModeUserInput _ _ => .isTrue trivial

/-- The flag against the turns in progress. -/
def Marked (busy : Bool) (turns : List Turn) (asked : Bool) : Prop :=
  (busy = true → turns ≠ []) ∧ (turns ≠ [] → busy = true ∨ asked = true)

theorem honest_iff {p : Process} : p.Honest ↔ Marked p.agent.isBusy p.agent.turns p.exitAsked := by
  constructor
  · intro h
    exact ⟨h.busy,h.running⟩
  · intro h
    refine ⟨h.1,h.2,?_,?_⟩
    · intro hcheck
      simp only [checkExitCondition,Bool.and_eq_true,Bool.not_eq_true'] at hcheck
      by_cases hturns : p.agent.turns = []
      · exact .inl hturns
      · rcases h.2 hturns with hbusy | hasked
        · rw [hcheck.2] at hbusy
          cases hbusy
        · exact .inr hasked
    · intro hexit hturns
      have hbusy : p.agent.isBusy = false := by
        rw [← Bool.not_eq_true]
        exact fun hbusy => h.1 hbusy hturns
      simp [checkExitCondition,hexit,hbusy]

theorem marked_false_iff {turns : List Turn} {asked : Bool} :
    Marked false turns asked ↔ turns = [] ∨ asked = true := by
  unfold Marked
  by_cases h : turns = [] <;> simp [h]

/-- A turn more, and the flag set. -/
theorem marked_start (turns : List Turn) (t : Turn) (asked : Bool) :
    Marked true (turns ++ [t]) asked :=
  ⟨fun _ => by simp,fun _ => .inl rfl⟩

/-- A turn less, and the flag left alone. -/
theorem marked_leave_iff {busy asked : Bool} {turns rest : List Turn} {t : Turn}
    (h : Marked busy turns asked) (hp : turns.Perm (t :: rest)) :
    Marked busy rest asked ↔ (rest = [] → busy = false) := by
  have hturns : turns ≠ [] := by
    intro hnil
    rw [hnil] at hp
    exact absurd hp.symm (List.cons_ne_nil t rest ∘ List.Perm.eq_nil)
  have hmarked := h.2 hturns
  constructor
  · intro hrest hnil
    rw [← Bool.not_eq_true]
    exact fun hbusy => hrest.1 hbusy hnil
  · intro hlast
    refine ⟨?_,fun _ => hmarked⟩
    intro hbusy hnil
    rw [hlast hnil] at hbusy
    cases hbusy

end Process

namespace AgentState
variable {s : AgentState}

theorem finish_turns (t : Turn) (result : Except String String) :
    (s.finish t result).turns = s.turns := by
  cases result with
  | ok response =>
    rw [finish_ok_eq,reply_eq]
    rfl
  | error e =>
    unfold finish
    cases t.kind <;> rfl

theorem finish_isBusy (t : Turn) (result : Except String String) :
    (s.finish t result).isBusy = if t.ClearsFlag result then false else s.isBusy := by
  obtain ⟨id,kind,model,history⟩ := t
  cases result with
  | ok response =>
    have hclears : Turn.ClearsFlag ⟨id,kind,model,history⟩ (.ok response) := by
      cases kind <;> trivial
    rw [if_pos hclears,finish_ok_eq,reply_eq]
  | error e => cases kind <;> rfl

theorem queueMessage_flags (content : String) :
    (s.queueMessage content).isBusy = s.isBusy ∧ (s.queueMessage content).turns = s.turns := by
  unfold queueMessage
  split <;> exact ⟨rfl,rfl⟩

theorem popQueued_flags : s.popQueued.isBusy = s.isBusy ∧ s.popQueued.turns = s.turns := by
  unfold popQueued
  split <;> exact ⟨rfl,rfl⟩

end AgentState
namespace Process
variable {p : Process}

/-! ## The conversation's events -/

theorem marked_turnEnds_iff (h : Marked p.agent.isBusy p.agent.turns p.exitAsked) {turn : ℕ}
    (he : p.agent.InProgress turn) (result : Except String String) :
    Marked (p.agent.next (.turnEnds turn result)).isBusy
        (p.agent.next (.turnEnds turn result)).turns p.exitAsked ↔
      p.KeepsFlag (.chat (.turnEnds turn result)) := by
  obtain ⟨t,hfind,-,hp,hnext⟩ := p.agent.next_turnEnds he result
  have hcond : p.KeepsFlag (.chat (.turnEnds turn result)) ↔
      if t.ClearsFlag result then p.Clearable (p.agent.leave turn).turns
      else (p.agent.leave turn).turns = [] → p.agent.isBusy = false := by
    simp [KeepsFlag,hfind]
  rw [hcond,hnext,AgentState.finish_turns,AgentState.finish_isBusy]
  by_cases hclears : t.ClearsFlag result
  · rw [if_pos hclears,if_pos hclears]
    exact marked_false_iff
  · rw [if_neg hclears,if_neg hclears]
    exact marked_leave_iff h hp

theorem marked_chat_iff (h : Marked p.agent.isBusy p.agent.turns p.exitAsked) {e : Event}
    (he : p.agent.Enabled e) :
    Marked (p.agent.next e).isBusy (p.agent.next e).turns p.exitAsked ↔ p.KeepsFlag (.chat e) := by
  cases e with
  | userInput | startPending | beginQueued =>
    exact iff_of_true (marked_start p.agent.turns _ p.exitAsked) trivial
  | cancel viewer => exact marked_false_iff
  | queueMessage viewer content =>
    obtain ⟨hbusy,hturns⟩ := p.agent.queueMessage_flags content
    refine iff_of_true ?_ trivial
    change Marked (p.agent.queueMessage content).isBusy (p.agent.queueMessage content).turns _
    rwa [hbusy,hturns]
  | popQueued =>
    obtain ⟨hbusy,hturns⟩ := p.agent.popQueued_flags
    refine iff_of_true ?_ trivial
    change Marked p.agent.popQueued.isBusy p.agent.popQueued.turns _
    rwa [hbusy,hturns]
  | turnEnds turn result => exact marked_turnEnds_iff h he result
  | turnDies turn =>
    obtain ⟨t,-,-,hp,-⟩ := p.agent.next_turnEnds he (.ok "")
    exact marked_leave_iff h hp
  | attach | subscribe | disconnect | announce | syncRequest | stream | drainDies =>
    exact iff_of_true h trivial

/-! ## The other handlers -/

/-- An input in plan mode leaves the turns alone and clears the flag. -/
theorem processPlanModeInput_flags (hplan : p.isPlanMode = true) (content : String)
    (stream : PlanModeStream) :
    (p.processPlanModeInput content stream).agent.isBusy = false ∧
      (p.processPlanModeInput content stream).agent.turns = p.agent.turns ∧
        (p.processPlanModeInput content stream).exitAsked = p.exitAsked := by
  unfold processPlanModeInput
  simp only [hplan,Bool.not_true,Bool.false_eq_true,↓reduceIte]
  rw [foldl_send_eq]
  refine ⟨rfl,?_,?_⟩
  · split <;> rfl
  · split <;> rfl

theorem processPlanModeInput_marked_iff (h : Marked p.agent.isBusy p.agent.turns p.exitAsked)
    (content : String) (stream : PlanModeStream) :
    Marked (p.processPlanModeInput content stream).agent.isBusy
        (p.processPlanModeInput content stream).agent.turns
        (p.processPlanModeInput content stream).exitAsked ↔
      (p.isPlanMode = true → p.Clearable p.agent.turns) := by
  cases hplan : p.isPlanMode with
  | false =>
    have hsame : p.processPlanModeInput content stream =
        p.send (.error "Plan mode error: Not in plan mode" false) := by
      simp [processPlanModeInput,hplan]
    rw [hsame]
    exact iff_of_true h (by simp)
  | true =>
    obtain ⟨hbusy,hturns,hasked⟩ := processPlanModeInput_flags hplan content stream
    rw [hbusy,hturns,hasked,marked_false_iff]
    simp [Clearable]

theorem slashCommand_marked (h : Marked p.agent.isBusy p.agent.turns p.exitAsked)
    (command : String) (blocked : Bool) (result : Except String CommandResult) :
    Marked (p.slashCommand command blocked result).agent.isBusy
      (p.slashCommand command blocked result).agent.turns
      (p.slashCommand command blocked result).exitAsked := by
  unfold slashCommand
  cases blocked with
  | true => exact h
  | false =>
    rcases result with e | ⟨text⟩ | ⟨lines⟩ | ⟨action,name⟩ | ⟨name,text⟩
    · exact h
    · exact h
    · exact h
    · cases action with
      | exit => exact marked_false_iff.mpr (.inr rfl)
      | _ => exact h
    · exact h

theorem slashCommand_exitWhenDone (viewer : ℕ) (command : String) (blocked : Bool)
    (result : Except String CommandResult)
    (h : (ProcessEvent.slashCommand viewer command blocked result).RequestsExit) :
    (p.slashCommand command blocked result).exitWhenDone = true := by
  rcases result with e | ⟨text⟩ | ⟨lines⟩ | ⟨action,name⟩ | ⟨name,text⟩
  · exact h.elim
  · exact h.elim
  · exact h.elim
  · cases action with
    | exit =>
      have hblocked : blocked = false := h
      rw [hblocked]
      rfl
    | _ => exact h.elim
  · exact h.elim

theorem enterPlanMode_marked (h : Marked p.agent.isBusy p.agent.turns p.exitAsked)
    (focus : Option String) (stored : Except String (Option PlanModeState))
    (systemPrompt : String) :
    Marked (p.enterPlanMode focus stored systemPrompt).agent.isBusy
      (p.enterPlanMode focus stored systemPrompt).agent.turns
      (p.enterPlanMode focus stored systemPrompt).exitAsked := by
  unfold enterPlanMode
  split
  · exact h
  · cases stored <;> exact h

theorem exitPlanMode_marked (h : Marked p.agent.isBusy p.agent.turns p.exitAsked)
    (saved : Except String Unit) :
    Marked (p.exitPlanMode saved).agent.isBusy (p.exitPlanMode saved).agent.turns
      (p.exitPlanMode saved).exitAsked := by
  unfold exitPlanMode
  split
  · exact h
  · cases saved with
    | error e => exact h
    | ok u =>
      dsimp only
      cases p.savedMainContext <;> exact h

/-! ## The step and the run -/

theorem honest_next_iff (h : p.Honest) {e : ProcessEvent} (he : p.Enabled e) :
    ((p.next e).Honest ∧ (e.RequestsExit → (p.next e).exitWhenDone = true)) ↔ p.KeepsFlag e := by
  have hm := honest_iff.mp h
  rw [honest_iff]
  cases e with
  | chat e =>
    rw [← marked_chat_iff hm he]
    exact and_iff_left (fun hrequest => hrequest.elim)
  | detach viewer exitWhenDone => exact iff_of_true ⟨hm,fun hrequest => hrequest⟩ trivial
  | exit viewer => exact iff_of_true ⟨marked_false_iff.mpr (.inr rfl),fun _ => rfl⟩ trivial
  | slashCommand viewer command blocked result =>
    refine iff_of_true ⟨slashCommand_marked hm command blocked result,?_⟩ trivial
    exact slashCommand_exitWhenDone viewer command blocked result
  | parentSignal viewer signal =>
    cases signal with
    | parentExiting => exact iff_of_true ⟨hm,fun hrequest => hrequest.elim⟩ trivial
    | shutdown => exact ⟨fun hp => hp.2 trivial,fun hset => ⟨hm,fun _ => hset⟩⟩
    | detached => exact iff_of_true ⟨hm,fun hrequest => hrequest.elim⟩ trivial
  | enterPlanMode viewer focus stored systemPrompt =>
    exact iff_of_true ⟨enterPlanMode_marked hm focus stored systemPrompt,
      fun hrequest => hrequest.elim⟩ trivial
  | exitPlanMode viewer saved =>
    exact iff_of_true ⟨exitPlanMode_marked hm saved,fun hrequest => hrequest.elim⟩ trivial
  | planModeUserInput viewer content =>
    exact iff_of_true ⟨hm,fun hrequest => hrequest.elim⟩ trivial
  | processPlanModeInput content stream =>
    let q := { p with planInputs := p.planInputs.erase content }
    have hq := processPlanModeInput_marked_iff (p := q) hm content stream
    exact (and_iff_left (fun hrequest => hrequest.elim)).trans hq

end Process

/-- Over a run the flag is honest and every exit request is kept exactly when every step
keeps the flag. -/
theorem run_honest_iff {sessionId model systemPrompt : String} {stored : List (String × String)}
    {es : List ProcessEvent} (hr : process.Run (.new sessionId model systemPrompt stored) es) :
    (∀ p ∈ process.trail (.new sessionId model systemPrompt stored) es,
      (p.1.next p.2).Honest ∧ (p.2.RequestsExit → (p.1.next p.2).exitWhenDone = true)) ↔
      ∀ p ∈ process.trail (.new sessionId model systemPrompt stored) es, p.1.KeepsFlag p.2 := by
  refine hr.forall_iff (G := Process.Honest)
    (P := fun p e => (p.next e).Honest ∧ (e.RequestsExit → (p.next e).exitWhenDone = true))
    (C := Process.KeepsFlag) ?_ ?_ ?_
  · intro p e h he hkeeps
    exact ((Process.honest_next_iff h he).mpr hkeeps).1
  · intro p e h he
    exact Process.honest_next_iff h he
  · refine Process.honest_iff.mpr ⟨?_,?_⟩
    · intro hbusy
      cases hbusy
    · intro hturns
      exact absurd rfl hturns

/-- An input, its reply, and then `Exit`. -/
def quietExitRun : List ProcessEvent :=
  [.chat (.attach 0),.chat (.subscribe 0),.chat (.userInput 0 "Hello."),
    .chat (.announce ⟨0,0,⟨0,"user","Hello."⟩⟩),.chat (.turnEnds 0 (.ok "Hello, what can I do?")),
    .chat (.cancel 0),.exit 0]

theorem quietExitRun_honest : process.Run (.new "main" "gemma" "" []) quietExitRun ∧
    ∀ p ∈ process.trail (.new "main" "gemma" "" []) quietExitRun,
      (p.1.next p.2).Honest ∧ (p.2.RequestsExit → (p.1.next p.2).exitWhenDone = true) :=
  ⟨by decide,(run_honest_iff (by decide)).mpr (by decide)⟩

/-- A pending request fails, with no turn left to clear the flag. -/
def failedPendingRun : List ProcessEvent :=
  [.chat .startPending,.chat (.turnEnds 0 (.error "offline"))]

theorem failedPendingRun_busy :
    ¬ ∀ es, process.Run (.new "main" "gemma" "" [("user","Hello.")]) es →
      ∀ p ∈ process.trail (.new "main" "gemma" "" [("user","Hello.")]) es,
        (p.1.next p.2).Honest ∧ (p.2.RequestsExit → (p.1.next p.2).exitWhenDone = true) := by
  intro h
  have hlast : (process.exec (.new "main" "gemma" "" [("user","Hello.")])
      (failedPendingRun.take 1),.chat (.turnEnds 0 (.error "offline"))) ∈
      process.trail (.new "main" "gemma" "" [("user","Hello.")]) failedPendingRun :=
    .tail _ (.head _)
  have hbusy := (h failedPendingRun (by decide) _ hlast).1.busy (by decide)
  exact absurd hbusy (by decide)

end Rullama.Agent
