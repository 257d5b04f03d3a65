import Rullama.Agents.TaskAgent

/-! # Cleaning up

Each exit of `execute` but those of `?` unregisters the agent, releases its locks, sets a final
status and broadcasts the result of the task.
-/
namespace Rullama.Agents
open Transition.Machine (exec_cons exec_nil forall_trail_cons forall_trail_nil)

inductive Status.Final : Status → Prop
  | completed (summary : String) : Final (.completed summary)
  | failed (error : String) : Final (.failed error)

structure CleanedUp (a : TaskAgent) : Prop where
  registered : a.registered = false
  lock : a.lock = none
  status : a.status.Final
  result : ∃ r, a.results = [r] ∧ r.taskId = a.task.id

/-- A step that leaves `execute` through `?`: registration, the provider or a tool failed. -/
def fails (a : TaskAgent) : Event → Bool
  | .start (.error _) _ => !a.registered
  | .respond (.error _) => true
  | .toolDone (.error _) _ => true
  | _ => false

structure Working (a : TaskAgent) : Prop where
  results : a.results = []
  phase : ∀ result, a.phase ≠ .returned result

/-- Returned with a result. -/
structure Ended (a : TaskAgent) : Prop extends CleanedUp a where
  phase : ∃ result, a.phase = .returned (.ok result)

/-- Left without a result. -/
structure Left (a : TaskAgent) : Prop where
  results : a.results = []
  phase : ∃ e, a.phase = .returned (.error e)

variable {a : TaskAgent}

theorem left_leave (h : a.results = []) (e : String) : Left (a.leave e) := ⟨h,e,rfl⟩

theorem ended_finish (h : a.results = []) {status : Status} (hs : status.Final)
    (success : Bool) (summary : String) (iterations : ℕ) :
    Ended (a.finish status success summary iterations) :=
  ⟨⟨rfl,rfl,hs,_,congrArg (· ++ [_]) h,rfl⟩,_,rfl⟩

theorem ended_failAgent (h : a.results = []) (error : String) : Ended (a.failAgent error) :=
  ended_finish h (.failed error) false error a.iterations

/-! ## Steps -/

theorem start_working (h : a.results = []) {registers : Except String Unit}
    {checkpoint : Option (List String)} (hf : fails a (.start registers checkpoint) = false) :
    Working (a.start registers checkpoint) := by
  unfold TaskAgent.start
  split
  · rename_i hregistered
    simp only [fails,hregistered,Bool.not_false,Bool.true_eq_false] at hf
  · exact ⟨h,nofun⟩

theorem iterate_working (h : a.results = []) (elapsedSecs : ℕ)
    (helpResponse : Option (String × String)) :
    Working (a.iterate elapsedSecs helpResponse) ∨ Ended (a.iterate elapsedSecs helpResponse) := by
  simp only [TaskAgent.iterate]
  split
  · exact .inr (ended_failAgent (by exact h) _)
  · split
    · exact .inr (ended_failAgent (by exact h) _)
    · cases helpResponse with
      | none => exact .inl ⟨h,nofun⟩
      | some p => exact .inl ⟨h,nofun⟩

theorem process_working (h : a.results = []) (response : ChatResponse) :
    Working (a.process response) := by
  simp only [TaskAgent.process]
  split
  · exact ⟨h,nofun⟩
  · exact ⟨h,nofun⟩

theorem respond_working (h : a.results = []) (response : ChatResponse) :
    Working (a.respond (.ok response)) ∨ Ended (a.respond (.ok response)) := by
  simp only [TaskAgent.respond]
  split
  · exact .inr (ended_failAgent (by exact h) _)
  · split
    · exact .inl ⟨h,nofun⟩
    · exact .inl (process_working (by exact h) response)

theorem validate_working (h : a.results = []) (messageText : String) (feedback : Option String) :
    Working (a.validate messageText feedback) ∨ Ended (a.validate messageText feedback) := by
  cases feedback with
  | none => exact .inr (ended_finish h (.completed _) _ _ _)
  | some text =>
    simp only [TaskAgent.validate]
    split
    · exact .inl ⟨h,nofun⟩
    · exact .inr (ended_finish h (.completed _) _ _ _)

theorem nextTool_working (h : a.results = []) (pending : List Tools.ToolUse) :
    Working (a.nextTool pending) := by
  cases pending with
  | nil => exact ⟨h,nofun⟩
  | cons t pending =>
    simp only [TaskAgent.nextTool]
    split
    · exact ⟨h,nofun⟩
    · split
      · exact ⟨h,nofun⟩
      · exact ⟨h,nofun⟩

theorem Working.next (h : Working a) {e : Event} (he : machine.enabled a e)
    (hf : fails a e = false) : Working (machine.next a e) ∨ Ended (machine.next a e) := by
  have hresults := h.results
  have hstep := step_of_enabled he
  generalize machine.next a e = b at hstep ⊢
  cases hstep with
  | start registers checkpoint ha => exact .inl (start_working hresults hf)
  | iterate elapsedSecs helpResponse ha =>
    exact iterate_working hresults elapsedSecs helpResponse
  | respond response ha =>
    cases response with
    | error e => cases hf
    | ok response => exact respond_working hresults response
  | record response ha => exact .inl ⟨hresults,nofun⟩
  | check response error ha =>
    cases error with
    | none => exact .inl (process_working hresults response)
    | some e => exact .inr (ended_failAgent hresults _)
  | validate messageText feedback ha => exact validate_working hresults messageText feedback
  | nextTool pending ha => exact .inl (nextTool_working hresults pending)
  | lock t path lockType pending outcome ha =>
    cases outcome with
    | ok _ => exact .inl ⟨hresults,nofun⟩
    | error e => exact .inl ⟨hresults,nofun⟩
  | toolDone t pending outcome persisted ha =>
    cases outcome with
    | error e => cases hf
    | ok result => exact .inl ⟨hresults,nofun⟩

theorem Working.fail (h : Working a) {e : Event} (he : machine.enabled a e)
    (hf : fails a e = true) : Left (machine.next a e) := by
  have hstep := step_of_enabled he
  generalize machine.next a e = b at hstep ⊢
  cases hstep with
  | start registers checkpoint ha =>
    cases registers with
    | ok _ => cases hf
    | error e =>
      have hregistered : a.registered = false := by simpa [fails] using hf
      simp only [TaskAgent.start,hregistered]
      exact left_leave h.results e
  | respond response ha =>
    cases response with
    | error e => exact left_leave h.results e
    | ok response => cases hf
  | toolDone t pending outcome persisted ha =>
    cases outcome with
    | error e => exact left_leave h.results e
    | ok result => cases hf
  | _ => cases hf

/-! ## Runs -/

/-- A run that has returned is over. -/
theorem run_returned {result : Except String TaskAgentResult} (h : a.phase = .returned result)
    {es : List Event} (hr : machine.Run a es) : es = [] := by
  cases es with
  | nil => rfl
  | cons e es => exact absurd hr.1 (not_enabled_of_returned h e)

theorem Left.not_cleanedUp (h : Left a) : ¬ CleanedUp a := by
  intro hc
  obtain ⟨r,hr,-⟩ := hc.result
  rw [h.results] at hr
  cases hr

theorem Working.run (h : Working a) {es : List Event} (hr : machine.Run a es)
    {result : Except String TaskAgentResult} (hret : (machine.exec a es).phase = .returned result) :
    CleanedUp (machine.exec a es) ↔ ∀ p ∈ machine.trail a es, fails p.1 p.2 = false := by
  induction es generalizing a with
  | nil => exact absurd hret (h.phase result)
  | cons e es ih =>
    obtain ⟨he,hr⟩ := hr
    rw [forall_trail_cons]
    cases hf : fails a e with
    | true =>
      have hleft := h.fail he hf
      obtain ⟨error,herror⟩ := hleft.phase
      cases run_returned herror hr
      rw [exec_cons,exec_nil]
      exact ⟨fun hc => absurd hc hleft.not_cleanedUp,fun hc => Bool.noConfusion hc.1⟩
    | false =>
      rcases h.next he hf with hworking | hended
      · rw [and_iff_right rfl]
        exact ih hworking hr hret
      · obtain ⟨r,hreturned⟩ := hended.phase
        cases run_returned hreturned hr
        rw [exec_cons,exec_nil]
        exact ⟨fun _ => ⟨rfl,forall_trail_nil⟩,fun _ => hended.toCleanedUp⟩

/-- Once `execute` has returned, the agent is cleaned up just where no `?` was taken. -/
theorem cleanedUp_iff (hidle : a.phase = .idle) (hresults : a.results = []) {es : List Event}
    (hr : machine.Run a es) {result : Except String TaskAgentResult}
    (hret : (machine.exec a es).phase = .returned result) :
    CleanedUp (machine.exec a es) ↔ ∀ p ∈ machine.trail a es, fails p.1 p.2 = false :=
  Working.run ⟨hresults,fun result h => by rw [hidle] at h; cases h⟩ hr hret

/-- An agent with its defaults. -/
def worker : TaskAgent := { id := "agent-1",task := ⟨"task-1","Say hello.",0⟩,config := {} }

def spokenRun : List Event :=
  [.start (.ok ()) none,.iterate 0 none,
    .respond (.ok { message := .assistant "Hello.",text := some "Hello.",finishReason := some "stop" }),
    .validate none]

theorem spokenRun_cleanedUp : CleanedUp (machine.exec worker spokenRun) :=
  (cleanedUp_iff (a := worker) rfl rfl (by decide) rfl).mpr (by decide)

/-- The provider fails at its first call. -/
def failedCall : List Event :=
  [.start (.ok ()) none,.iterate 0 none,.respond (.error "overloaded")]

theorem failedCall_left : machine.Run worker failedCall ∧
    (machine.exec worker failedCall).phase = .returned (.error "overloaded") ∧
    (machine.exec worker failedCall).registered = true ∧
    (machine.exec worker failedCall).results = [] ∧
    ¬ CleanedUp (machine.exec worker failedCall) :=
  ⟨by decide,rfl,rfl,rfl,fun h => absurd h.registered (by decide)⟩

end Rullama.Agents
