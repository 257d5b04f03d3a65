import Mathlib.Algebra.GroupWithZero.Nat
import Rullama.Agents.Budgets
import Rullama.Agents.ToolUses

/-! # The limit on iterations

The orchestrator is the other loop around the provider. Both count an iteration before they compare
it with the limit, one with `≥` and one with `>`: the task agent gives up without its last call, and
the orchestrator reports one iteration more than it has made calls.
-/
namespace Rullama.Agents
open Agent (Message)
open Tools (ToolUse ToolResult)
open Transition (Machine)
open Transition.Machine (exec_cons trail_cons)

/-! ## The orchestrator -/

/-- A task is paired with how it ended: `complete`, or `fail` with an error. -/
structure AgentResponse where
  message : String
  isComplete : Bool
  tasks : List (Task × Except String String)
  iterations : ℕ

inductive OrchestratorPhase where
  | idle
  | looping
  | calling
  | tools (toolUse : ToolUse) (pending : List ToolUse)
  | returned (result : Except String AgentResponse)

/-- The agent with the locals of `execute_internal`. -/
structure OrchestratorAgent where
  maxIterations : ℕ := 25
  task : Task
  history : List Message := []
  iterations : ℕ := 0
  phase : OrchestratorPhase := .idle

inductive OrchestratorEvent where
  | start
  | iterate
  | respond (response : Except String ChatResponse)
  | toolDone (outcome : Except String ToolResult)

namespace OrchestratorAgent
variable (o : OrchestratorAgent)

def push (m : Message) : OrchestratorAgent := { o with history := o.history ++ [m] }

/-- The `return`s of the loop. -/
def finish (message : String) (outcome : Except String String) : OrchestratorAgent :=
  { o with phase := .returned (.ok ⟨message,true,[(o.task,outcome)],o.iterations⟩) }

def start : OrchestratorAgent :=
  { o.push (.user o.task.description) with iterations := 0,phase := .looping }

/-- The counter has 32 bits and wraps around. -/
def iterate : OrchestratorAgent :=
  let o := { o with
    iterations := (o.iterations + 1) % 2 ^ 32
    task := { o.task with iterations := o.task.iterations + 1 } }
  if o.maxIterations < o.iterations then
    o.finish "Task failed: exceeded maximum iterations"
      (.error ("Max iterations (" ++ toString o.maxIterations ++ ") reached"))
  else { o with phase := .calling }

/-- What is to be done next of the tool uses. -/
def proceed (pending : List ToolUse) : OrchestratorAgent :=
  match pending with
  | [] => { o with phase := .looping }
  | t :: pending => { o with phase := .tools t pending }

def respond (response : Except String ChatResponse) : OrchestratorAgent :=
  match response with
  | .error e => { o with phase := .returned (.error e) }
  | .ok response =>
    let messageText := response.text.getD "Task completed"
    let uses := toolUses response.message
    if response.finishReason = some "end_turn" ∨ response.finishReason = some "stop" ∨
        uses = [] then o.finish messageText (.ok messageText)
    else (o.push response.message).proceed uses

def toolDone (pending : List ToolUse) (outcome : Except String ToolResult) : OrchestratorAgent :=
  match outcome with
  | .error e => { o with phase := .returned (.error e) }
  | .ok result => (o.push (toolResultMessage result.toolUseId result.content)).proceed pending

def next : OrchestratorEvent → OrchestratorAgent
  | .start => o.start
  | .iterate => o.iterate
  | .respond response => o.respond response
  | .toolDone outcome =>
    match o.phase with
    | .tools _ pending => o.toolDone pending outcome
    | _ => o

/-- The task manager answers for its own tools, and never with an error. -/
def enabled : OrchestratorEvent → Bool
  | .start => match o.phase with
    | .idle => true
    | _ => false
  | .iterate => match o.phase with
    | .looping => true
    | _ => false
  | .respond _ => match o.phase with
    | .calling => true
    | _ => false
  | .toolDone outcome => match o.phase,outcome with
    | .tools _ _,.ok _ => true
    | .tools t _,.error _ => !"task_".toList.isPrefixOf t.name.toList
    | _,_ => false

/-- With this step the agent calls the provider. -/
def calls : OrchestratorEvent → Bool
  | .iterate => match o.iterate.phase with
    | .calling => true
    | _ => false
  | _ => false

end OrchestratorAgent

def orchestrator : Machine OrchestratorAgent OrchestratorEvent :=
  ⟨fun o e => o.enabled e = true,OrchestratorAgent.next⟩

instance (o : OrchestratorAgent) (e : OrchestratorEvent) : Decidable (orchestrator.enabled o e) :=
  inferInstanceAs (Decidable (o.enabled e = true))

/-! ## Counting the calls -/

/-- The calls of a run. -/
def taskAgentCalls (a : TaskAgent) (es : List Event) : ℕ :=
  (machine.trail a es).countP (fun p => p.1.calls p.2)

def orchestratorCalls (o : OrchestratorAgent) (fs : List OrchestratorEvent) : ℕ :=
  (orchestrator.trail o fs).countP (fun p => p.1.calls p.2)

/-- No other limit ends a run. -/
structure OnlyLimit (c : Config) : Prop where
  maxTotalTokens : c.maxTotalTokens = none
  timeoutSecs : c.timeoutSecs = none
  sessionBudget : c.sessionBudget = false

/-- What the phase of an agent says of its iterations, after `k` calls. If there is no other limit,
a failure is that of this one. -/
def Phase.Counted (n k iterations : ℕ) (only : Prop) : Phase → Prop
  | .idle => k = 0
  | .recording _ | .checking _ => ¬ only ∧ iterations = k ∧ k < n
  | .returned (.ok r) => r.success = false → k < n ∧ (only → k + 1 = n ∧ r.iterations = n)
  | .returned (.error _) => True
  | _ => iterations = k ∧ k < n

structure Counted (n k : ℕ) (a : TaskAgent) : Prop where
  limit : a.config.maxIterations = n
  phase : a.phase.Counted n k a.iterations (OnlyLimit a.config)

variable {n k : ℕ} {a : TaskAgent} {only : Prop}

theorem process_phase (response : ChatResponse) (h : a.iterations = k ∧ k < n) :
    (a.process response).phase.Counted n k (a.process response).iterations only := by
  simp only [TaskAgent.process]
  split <;> exact h

theorem start_phase (hn : 1 ≤ n) (registers : Except String Unit)
    (checkpoint : Option (List String)) :
    (a.start registers checkpoint).phase.Counted n 0 (a.start registers checkpoint).iterations
      only := by
  unfold TaskAgent.start
  split
  · exact trivial
  · exact ⟨rfl,hn⟩

/-- The iteration that reaches the limit is reported, but has no call. -/
theorem iterate_cases (hlimit : a.config.maxIterations = n) (elapsedSecs : ℕ)
    (helpResponse : Option (String × String)) :
    let b := a.iterate elapsedSecs helpResponse
    ((OnlyLimit a.config → n ≤ a.iterations + 1) ∧ ∃ summary,
      b.phase = .returned (.ok ⟨a.id,a.task.id,false,summary,a.iterations + 1⟩)) ∨
      a.iterations + 1 < n ∧ b.phase = .calling ∧ b.iterations = a.iterations + 1 := by
  simp only [TaskAgent.iterate]
  split
  · rename_i htime
    refine .inl ⟨fun honly => ?_,_,rfl⟩
    rw [TaskAgent.timedOut,honly.timeoutSecs] at htime
    cases htime
  · split
    · rename_i hmax
      exact .inl ⟨fun _ => hlimit ▸ hmax,_,rfl⟩
    · rename_i hmax
      rw [hlimit] at hmax
      refine .inr ⟨Nat.lt_of_not_le hmax,rfl,?_⟩
      cases helpResponse <;> rfl

theorem iterate_phase (hlimit : a.config.maxIterations = n) (h : a.iterations = k ∧ k < n)
    (elapsedSecs : ℕ) (helpResponse : Option (String × String)) :
    let b := a.iterate elapsedSecs helpResponse
    b.phase.Counted n (k + if a.calls (.iterate elapsedSecs helpResponse) then 1 else 0)
      b.iterations (OnlyLimit a.config) := by
  obtain ⟨rfl,hlt⟩ := h
  dsimp only
  rcases iterate_cases hlimit elapsedSecs helpResponse with ⟨hmax,summary,hb⟩ | ⟨hmax,hb,hiter⟩
  · simp only [TaskAgent.calls,hb]
    intro _
    refine ⟨hlt,fun honly => ?_⟩
    have heq : a.iterations + 1 = n := Nat.le_antisymm hlt (hmax honly)
    exact ⟨heq,heq⟩
  · simp only [TaskAgent.calls,hb,hiter]
    exact ⟨rfl,hmax⟩

theorem respond_phase (h : a.iterations = k ∧ k < n) (response : Except String ChatResponse) :
    (a.respond response).phase.Counted n k (a.respond response).iterations
      (OnlyLimit a.config) := by
  cases response with
  | error e => exact trivial
  | ok response =>
    simp only [TaskAgent.respond]
    split
    · rename_i hover
      refine fun _ => ⟨h.2,fun honly => ?_⟩
      rw [TaskAgent.overTokens,honly.maxTotalTokens] at hover
      cases hover
    · split
      · rename_i hbudget
        refine ⟨fun honly => ?_,h⟩
        rw [honly.sessionBudget] at hbudget
        cases hbudget
      · exact process_phase (a := { a with
          totalTokensUsed := a.totalTokensUsed + response.totalTokens }) response h

theorem check_phase (hnot : ¬ only) (h : a.iterations = k ∧ k < n) (response : ChatResponse)
    (error : Option String) : (a.check response error).phase.Counted n k
      (a.check response error).iterations only := by
  cases error with
  | none => exact process_phase response h
  | some e => exact fun _ => ⟨h.2,fun honly => absurd honly hnot⟩

theorem validate_phase (h : a.iterations = k ∧ k < n) (messageText : String)
    (feedback : Option String) : (a.validate messageText feedback).phase.Counted n k
      (a.validate messageText feedback).iterations only := by
  cases feedback with
  | none => exact nofun
  | some text =>
    simp only [TaskAgent.validate]
    split
    · exact h
    · exact nofun

theorem nextTool_phase (h : a.iterations = k ∧ k < n) (pending : List ToolUse) :
    (a.nextTool pending).phase.Counted n k (a.nextTool pending).iterations only := by
  cases pending with
  | nil => exact h
  | cons t pending =>
    simp only [TaskAgent.nextTool]
    split
    · exact h
    · split
      · exact h
      · exact h

theorem Counted.next_phase (h : Counted n k a) (hn : 1 ≤ n) {e : Event}
    (he : machine.enabled a e) : (machine.next a e).phase.Counted n
      (k + if a.calls e then 1 else 0) (machine.next a e).iterations (OnlyLimit a.config) := by
  have hphase := h.phase
  have hstep := step_of_enabled he
  generalize machine.next a e = b at hstep ⊢
  cases hstep with
  | start registers checkpoint ha =>
    rw [ha] at hphase
    obtain rfl : k = 0 := hphase
    exact start_phase hn registers checkpoint
  | iterate elapsedSecs helpResponse ha =>
    rw [ha] at hphase
    exact iterate_phase h.limit hphase elapsedSecs helpResponse
  | respond response ha =>
    rw [ha] at hphase
    exact respond_phase hphase response
  | record response ha =>
    rw [ha] at hphase
    exact hphase
  | check response error ha =>
    rw [ha] at hphase
    exact check_phase hphase.1 hphase.2 response error
  | validate messageText feedback ha =>
    rw [ha] at hphase
    exact validate_phase hphase messageText feedback
  | nextTool pending ha =>
    rw [ha] at hphase
    exact nextTool_phase hphase pending
  | lock t path lockType pending outcome ha =>
    rw [ha] at hphase
    cases outcome with
    | ok u => exact hphase
    | error e => exact hphase
  | toolDone t pending outcome persisted ha =>
    rw [ha] at hphase
    cases outcome with
    | ok result => exact hphase
    | error e => exact trivial

theorem config_next {e : Event} (he : machine.enabled a e) :
    (machine.next a e).config = a.config := by
  cases e with
  | start registers checkpoint =>
    change (a.start registers checkpoint).config = a.config
    unfold TaskAgent.start
    split <;> rfl
  | _ =>
    have hunused : Unused a := by
      intro hidle
      have he' : a.enabled _ = true := he
      simp only [TaskAgent.enabled,hidle,Bool.false_eq_true] at he'
    exact (advances_next he hunused).config

theorem Counted.next (h : Counted n k a) (hn : 1 ≤ n) {e : Event} (he : machine.enabled a e) :
    Counted n (k + if a.calls e then 1 else 0) (machine.next a e) := by
  have hconfig := config_next he
  refine ⟨?_,?_⟩
  · rw [hconfig,h.limit]
  · rw [hconfig]
    exact h.next_phase hn he

theorem Counted.run (h : Counted n k a) (hn : 1 ≤ n) {es : List Event} (hr : machine.Run a es) :
    Counted n (k + taskAgentCalls a es) (machine.exec a es) ∧
      (machine.exec a es).config = a.config := by
  induction es generalizing a k with
  | nil => exact ⟨h,rfl⟩
  | cons e es ih =>
    obtain ⟨hcounted,hconfig⟩ := ih (h.next hn hr.1) hr.2
    rw [taskAgentCalls,trail_cons,List.countP_cons,exec_cons]
    rw [taskAgentCalls,Nat.add_assoc,Nat.add_comm (ite _ _ _)] at hcounted
    exact ⟨hcounted,hconfig.trans (config_next hr.1)⟩

/-! ## The orchestrator's calls -/

/-- The task has failed. -/
def AgentResponse.failed (r : AgentResponse) : Bool := r.tasks.any (fun t => match t.2 with
  | .ok _ => false
  | .error _ => true)

/-- As above; where the counter would wrap around at the limit nothing is said. -/
def OrchestratorPhase.Counted (n k iterations : ℕ) : OrchestratorPhase → Prop
  | .idle => k = 0
  | .returned (.ok r) => r.failed = true → k = n ∧ r.iterations = n + 1
  | .returned (.error _) => True
  | _ => n + 1 < 2 ^ 32 → iterations = k ∧ k ≤ n

structure OrchestratorCounted (n k : ℕ) (o : OrchestratorAgent) : Prop where
  limit : o.maxIterations = n
  phase : o.phase.Counted n k o.iterations

variable {o : OrchestratorAgent}

theorem OrchestratorCounted.proceed (h : OrchestratorCounted n k o)
    (hphase : n + 1 < 2 ^ 32 → o.iterations = k ∧ k ≤ n) (pending : List ToolUse) :
    OrchestratorCounted n k (o.proceed pending) := by
  cases pending with
  | nil => exact ⟨h.limit,hphase⟩
  | cons t pending => exact ⟨h.limit,hphase⟩

theorem orchestrator_iterate_cases (o : OrchestratorAgent) :
    let iterations := (o.iterations + 1) % 2 ^ 32
    o.iterate.maxIterations = o.maxIterations ∧
      ((o.maxIterations < iterations ∧ ∃ message tasks,
        o.iterate.phase = .returned (.ok ⟨message,true,tasks,iterations⟩)) ∨
        iterations ≤ o.maxIterations ∧ o.iterate.phase = .calling ∧
          o.iterate.iterations = iterations) := by
  simp only [OrchestratorAgent.iterate]
  split
  · rename_i hmax
    exact ⟨rfl,.inl ⟨hmax,_,_,rfl⟩⟩
  · rename_i hmax
    exact ⟨rfl,.inr ⟨Nat.le_of_not_lt hmax,rfl,rfl⟩⟩

/-- The iteration beyond the limit is counted as well. -/
theorem OrchestratorCounted.iterate (h : OrchestratorCounted n k o)
    (hphase : n + 1 < 2 ^ 32 → o.iterations = k ∧ k ≤ n) :
    OrchestratorCounted n (k + if o.calls .iterate then 1 else 0) o.iterate := by
  have hsame (hn : n + 1 < 2 ^ 32) : (o.iterations + 1) % 2 ^ 32 = k + 1 := by
    obtain ⟨hk,hle⟩ := hphase hn
    rw [hk,Nat.mod_eq_of_lt (by omega)]
  obtain ⟨hlimit,hcases⟩ := orchestrator_iterate_cases o
  rw [h.limit] at hlimit hcases
  refine ⟨hlimit,?_⟩
  rcases hcases with ⟨hmax,message,tasks,hdone⟩ | ⟨hmax,hcall,hiter⟩
  · simp only [OrchestratorAgent.calls,hdone]
    intro _
    have hwrap : (o.iterations + 1) % 2 ^ 32 < 2 ^ 32 := Nat.mod_lt _ (by decide)
    have hn : n + 1 < 2 ^ 32 := Nat.lt_of_le_of_lt hmax hwrap
    have hk := hsame hn
    obtain ⟨-,hle⟩ := hphase hn
    rw [hk] at hmax
    have hkn : k = n := Nat.le_antisymm hle (Nat.lt_succ_iff.mp hmax)
    exact ⟨hkn,by rw [hk,hkn]⟩
  · simp only [OrchestratorAgent.calls,hcall,if_true,hiter]
    intro hn
    have hk := hsame hn
    exact ⟨hk,hk ▸ hmax⟩

theorem OrchestratorCounted.respond (h : OrchestratorCounted n k o)
    (hphase : n + 1 < 2 ^ 32 → o.iterations = k ∧ k ≤ n) (response : Except String ChatResponse) :
    OrchestratorCounted n k (o.respond response) := by
  cases response with
  | error e => exact ⟨h.limit,trivial⟩
  | ok response =>
    simp only [OrchestratorAgent.respond]
    split
    · exact ⟨h.limit,nofun⟩
    · exact OrchestratorCounted.proceed (o := o.push response.message) ⟨h.limit,h.phase⟩ hphase _

theorem OrchestratorCounted.next (h : OrchestratorCounted n k o) {e : OrchestratorEvent}
    (he : orchestrator.enabled o e) :
    OrchestratorCounted n (k + if o.calls e then 1 else 0) (orchestrator.next o e) := by
  have he' : o.enabled e = true := he
  have hphase := h.phase
  cases e with
  | start =>
    cases ho : o.phase <;> simp only [OrchestratorAgent.enabled,ho,Bool.false_eq_true] at he'
    obtain rfl : k = 0 := by rwa [ho] at hphase
    exact ⟨h.limit,fun _ => ⟨rfl,Nat.zero_le n⟩⟩
  | iterate =>
    cases ho : o.phase <;> simp only [OrchestratorAgent.enabled,ho,Bool.false_eq_true] at he'
    rw [ho] at hphase
    exact h.iterate hphase
  | respond response =>
    cases ho : o.phase <;> simp only [OrchestratorAgent.enabled,ho,Bool.false_eq_true] at he'
    rw [ho] at hphase
    exact h.respond hphase response
  | toolDone outcome =>
    cases ho : o.phase <;> simp only [OrchestratorAgent.enabled,ho,Bool.false_eq_true] at he'
    rw [ho] at hphase
    simp only [orchestrator,OrchestratorAgent.next,ho]
    cases outcome with
    | ok result =>
      exact OrchestratorCounted.proceed (o := o.push _) ⟨h.limit,h.phase⟩ hphase _
    | error e => exact ⟨h.limit,trivial⟩

theorem OrchestratorCounted.run (h : OrchestratorCounted n k o) {fs : List OrchestratorEvent}
    (hr : orchestrator.Run o fs) :
    OrchestratorCounted n (k + orchestratorCalls o fs) (orchestrator.exec o fs) := by
  induction fs generalizing o k with
  | nil => exact h
  | cons e fs ih =>
    have hrest := ih (h.next hr.1) hr.2
    rw [orchestratorCalls,trail_cons,List.countP_cons,exec_cons]
    rw [orchestratorCalls,Nat.add_assoc,Nat.add_comm (ite _ _ _)] at hrest
    exact hrest

/-! ## What the limit means -/

/-- The run fails at its limit, with as many calls as the limit allows, and reports as many. -/
def AgentKeeps (n : ℕ) (a : TaskAgent) (es : List Event) : Prop :=
  ∃ r, (machine.exec a es).phase = .returned (.ok r) ∧ r.success = false ∧
    taskAgentCalls a es = n ∧ r.iterations = n

def OrchestratorKeeps (n : ℕ) (o : OrchestratorAgent) (fs : List OrchestratorEvent) : Prop :=
  ∃ r, (orchestrator.exec o fs).phase = .returned (.ok r) ∧ r.failed = true ∧
    orchestratorCalls o fs = n ∧ r.iterations = n

/-- Neither of the two keeps its limit in any run. A task agent that fails at its limit has made one
call less, and an orchestrator reports one iteration more. -/
theorem limit_not_kept (hn : 1 ≤ n) (hlimit : a.config.maxIterations = n) (ha : a.phase = .idle)
    {es : List Event} (hes : machine.Run a es) (ho : o.phase = .idle) (hmax : o.maxIterations = n)
    {fs : List OrchestratorEvent} (hfs : orchestrator.Run o fs) :
    (¬ AgentKeeps n a es ∧ (OnlyLimit a.config → ∀ r,
      (machine.exec a es).phase = .returned (.ok r) → r.success = false →
        taskAgentCalls a es + 1 = n ∧ r.iterations = n)) ∧
    (¬ OrchestratorKeeps n o fs ∧ ∀ r, (orchestrator.exec o fs).phase = .returned (.ok r) →
      r.failed = true → orchestratorCalls o fs = n ∧ r.iterations = n + 1) := by
  have hagent : Counted n 0 a := ⟨hlimit,by rw [ha]; rfl⟩
  obtain ⟨hagent,hconfig⟩ := hagent.run hn hes
  have horch : OrchestratorCounted n 0 o := ⟨hmax,by rw [ho]; rfl⟩
  have horch := (horch.run hfs).phase
  have hphase := hagent.phase
  rw [Nat.zero_add,hconfig] at hphase
  rw [Nat.zero_add] at horch
  have hleft : ∀ r, (machine.exec a es).phase = .returned (.ok r) → r.success = false →
      taskAgentCalls a es < n ∧
        (OnlyLimit a.config → taskAgentCalls a es + 1 = n ∧ r.iterations = n) := by
    intro r hr
    rwa [hr] at hphase
  have hright : ∀ r, (orchestrator.exec o fs).phase = .returned (.ok r) → r.failed = true →
      orchestratorCalls o fs = n ∧ r.iterations = n + 1 := by
    intro r hr
    rwa [hr] at horch
  refine ⟨⟨?_,fun honly r hr hfail => (hleft r hr hfail).2 honly⟩,?_,hright⟩
  · rintro ⟨r,hr,hfail,hcalls,-⟩
    have hless := (hleft r hr hfail).1
    omega
  · rintro ⟨r,hr,hfail,-,hiter⟩
    have hmore := (hright r hr hfail).2
    omega

/-- An agent that may iterate twice. -/
def twiceReader : TaskAgent := { reader with config := { maxIterations := 2 } }

def twiceOrchestrator : OrchestratorAgent := { maxIterations := 2,task := reader.task }

def readingRun : List Event :=
  .start (.ok ()) none :: (readRound "call_0" ++ [.iterate 0 none])

/-- The same provider asks for the file in every round. -/
def askingRound : List OrchestratorEvent :=
  [.iterate,
    .respond (.ok { message := ⟨.assistant,.blocks [.toolUse
      ⟨"call_0","read_file",.object [("path",.string "notes.txt")]⟩]⟩ }),
    .toolDone (.ok ⟨"call_0","text",false⟩)]

def askingRun : List OrchestratorEvent := .start :: (askingRound ++ askingRound ++ [.iterate])

theorem twice_not_kept :
    (¬ AgentKeeps 2 twiceReader readingRun ∧ (OnlyLimit twiceReader.config → ∀ r,
      (machine.exec twiceReader readingRun).phase = .returned (.ok r) → r.success = false →
        taskAgentCalls twiceReader readingRun + 1 = 2 ∧ r.iterations = 2)) ∧
    (¬ OrchestratorKeeps 2 twiceOrchestrator askingRun ∧
      ∀ r, (orchestrator.exec twiceOrchestrator askingRun).phase = .returned (.ok r) →
        r.failed = true → orchestratorCalls twiceOrchestrator askingRun = 2 ∧
          r.iterations = 2 + 1) :=
  limit_not_kept (by decide) rfl rfl (by decide) rfl rfl (by decide)

/-- With the limit at two, one executor fails after one call and the other one after two. -/
theorem twice_disagrees :
    machine.Run twiceReader readingRun ∧ orchestrator.Run twiceOrchestrator askingRun ∧
    (machine.exec twiceReader readingRun).phase = .returned (.ok ⟨"agent-1","task-1",false,
      "Agent agent-1 exceeded maximum iterations (2)",2⟩) ∧
    taskAgentCalls twiceReader readingRun = 1 ∧
    (orchestrator.exec twiceOrchestrator askingRun).phase = .returned (.ok
      ⟨"Task failed: exceeded maximum iterations",true,
        [(⟨"task-1","Read the file.",3⟩,.error "Max iterations (2) reached")],3⟩) ∧
    orchestratorCalls twiceOrchestrator askingRun = 2 :=
  ⟨by decide,by decide,by rfl,by decide,by rfl,by decide⟩

end Rullama.Agents
