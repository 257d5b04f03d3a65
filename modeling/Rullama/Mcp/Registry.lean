import Rullama.Tools.Json
import Rullama.Transition.Machine
import Mathlib.Data.List.Count
import Mathlib.Logic.Function.Basic

/-! # The registry of spawned agents

An agent that is spawned runs as a task of its own. The registry maps the ids of agents to
the handles of their tasks; an await takes the handle out of the registry and waits on it.
-/
namespace Rullama.Mcp
open Transition
open Tools (Value)

structure TaskAgentResult where
  agentId : String
  success : Bool
  iterations : ℕ
  summary : String
deriving DecidableEq

/-- What a task that was not cancelled leaves to its handle. -/
inductive JoinResult where
  | completed (result : TaskAgentResult)
  | failed (e : String)
  | panicked (e : String)
deriving DecidableEq

/-- A stopped task is cancelled or, where it had finished, given up. -/
inductive TaskState where
  | running
  | finished (result : JoinResult)
  | stopped
deriving DecidableEq

structure TaskInfo where
  status : String
  description : String
  iterations : ℕ

structure AgentInfo where
  agentId : String
  status : String
  taskDescription : String
  iterations : ℕ

/-- An await that holds the handle of an agent's task. -/
structure Await where
  call : ℕ
  agentId : String
  timeoutSecs : Option ℕ
deriving DecidableEq

inductive AwaitOutcome where
  | notFound
  | timedOut (secs : ℕ)
  | joined (result : JoinResult)
deriving DecidableEq

structure AwaitReply where
  call : ℕ
  agentId : String
  outcome : AwaitOutcome
deriving DecidableEq

structure AgentRegistry where
  /-- the keys of the map -/
  agents : List String := []
  info : String → TaskInfo := fun _ => ⟨"","",0⟩
  task : String → Option TaskState := fun _ => none
  /-- agents whose task is spawned and whose spawn has yet to enter them in the map -/
  spawning : List String := []
  waiting : List Await := []
  replies : List AwaitReply := []

inductive RegistryEvent where
  | spawn (agentId : String) (args : Value) (status : String)
  | register (agentId : String)
  | report (agentId status : String) (iterations : ℕ)
  | finish (agentId : String) (result : JoinResult)
  | list
  | status (args : Value)
  | stop (args : Value)
  | await (call : ℕ) (args : Value)
  | awaitReturns (w : Await) (result : JoinResult)
  | awaitTimesOut (w : Await)

def notFound (agentId : String) : String := "Agent '" ++ agentId ++ "' not found"

/-- What an await answers. -/
def AwaitOutcome.reply (agentId : String) : AwaitOutcome → Except String String
  | .notFound => .error (Mcp.notFound agentId)
  | .timedOut secs => .error ("Timeout waiting for agent '" ++ agentId ++ "' after " ++
      toString secs ++ " seconds")
  | .joined (.completed r) => .ok ("Agent '" ++ r.agentId ++ "' completed\nSuccess: " ++
      toString r.success ++ "\nIterations: " ++ toString r.iterations ++ "\nSummary: " ++ r.summary)
  | .joined (.failed e) => .error ("Agent '" ++ agentId ++ "' execution failed: " ++ e)
  | .joined (.panicked e) => .error ("Agent '" ++ agentId ++ "' panicked: " ++ e)

def AwaitOutcome.isJoined : AwaitOutcome → Bool
  | .joined _ => true
  | _ => false

namespace AgentRegistry
variable (s : AgentRegistry)

def agentInfo (agentId : String) : AgentInfo :=
  let info := s.info agentId
  ⟨agentId,info.status,info.description,info.iterations⟩

def listAgents : List AgentInfo := s.agents.map s.agentInfo

def agentStatus (agentId : String) : Except String AgentInfo :=
  if agentId ∈ s.agents then .ok (s.agentInfo agentId) else .error (notFound agentId)

def listAgentsImpl : String :=
  if s.agents = [] then "No running agents"
  else "Running agents:\n" ++ String.join (s.listAgents.map (fun info =>
    "  - " ++ info.agentId ++ " (" ++ info.status ++ "): " ++ info.taskDescription ++ "\n"))

def getAgentStatusImpl (args : Value) : Except String String :=
  match args.str "agent_id" with
  | none => .error "Missing 'agent_id' parameter"
  | some agentId => (s.agentStatus agentId).map (fun info =>
    "Agent '" ++ agentId ++ "' - Status: " ++ info.status ++ "\nTask: " ++ info.taskDescription ++
      "\nIterations: " ++ toString info.iterations)

/-- The task runs from here on; the spawn has still to enter it in the map. -/
def spawn (agentId : String) (args : Value) (status : String) : AgentRegistry :=
  match args.str "description" with
  | none => s
  | some description =>
    { s with
      info := Function.update s.info agentId ⟨status,description,0⟩
      task := Function.update s.task agentId (some .running)
      spawning := agentId :: s.spawning }

def register (agentId : String) : AgentRegistry :=
  { s with
    spawning := s.spawning.erase agentId
    agents := agentId :: s.agents }

def report (agentId status : String) (iterations : ℕ) : AgentRegistry :=
  { s with info :=
    Function.update s.info agentId ⟨status,(s.info agentId).description,iterations⟩ }

def finish (agentId : String) (result : JoinResult) : AgentRegistry :=
  { s with task := Function.update s.task agentId (some (.finished result)) }

def stopAgent (agentId : String) : AgentRegistry × Except String String :=
  if agentId ∈ s.agents then
    ({ s with
      agents := s.agents.erase agentId
      task := Function.update s.task agentId (some .stopped) },
      .ok ("Stopped agent '" ++ agentId ++ "'"))
  else (s,.error (notFound agentId))

def stopAgentImpl (args : Value) : AgentRegistry × Except String String :=
  match args.str "agent_id" with
  | none => (s,.error "Missing 'agent_id' parameter")
  | some agentId => s.stopAgent agentId

/-- An await takes the entry out of the map, or is answered at once. -/
def awaitAgent (call : ℕ) (agentId : String) (timeoutSecs : Option ℕ) : AgentRegistry :=
  if agentId ∈ s.agents then
    { s with
      agents := s.agents.erase agentId
      waiting := ⟨call,agentId,timeoutSecs⟩ :: s.waiting }
  else { s with replies := ⟨call,agentId,.notFound⟩ :: s.replies }

/-- `args.get("timeout_secs").and_then(|v| v.as_u64())` -/
def timeoutSecs (args : Value) : Option ℕ := (args.get "timeout_secs").bind Value.asU64

def awaitAgentImpl (call : ℕ) (args : Value) : AgentRegistry :=
  match args.str "agent_id" with
  | none => s
  | some agentId => s.awaitAgent call agentId (timeoutSecs args)

/-- The await is over; its handle is dropped. -/
def endAwait (w : Await) (outcome : AwaitOutcome) : AgentRegistry :=
  { s with
    waiting := s.waiting.erase w
    replies := ⟨w.call,w.agentId,outcome⟩ :: s.replies }

def next : RegistryEvent → AgentRegistry
  | .spawn agentId args status => s.spawn agentId args status
  | .register agentId => s.register agentId
  | .report agentId status iterations => s.report agentId status iterations
  | .finish agentId result => s.finish agentId result
  | .list | .status _ => s
  | .stop args => (s.stopAgentImpl args).1
  | .await call args => s.awaitAgentImpl call args
  | .awaitReturns w result => s.endAwait w (.joined result)
  | .awaitTimesOut w => s.endAwait w (.timedOut (w.timeoutSecs.getD 0))

/-- Ids of agents are fresh; a timeout passes only while the task runs. -/
def Enabled : RegistryEvent → Prop
  | .spawn agentId _ _ => s.task agentId = none
  | .register agentId => agentId ∈ s.spawning
  | .report agentId _ _ | .finish agentId _ => s.task agentId = some .running
  | .list | .status _ | .stop _ | .await _ _ => True
  | .awaitReturns w result => w ∈ s.waiting ∧ s.task w.agentId = some (.finished result)
  | .awaitTimesOut w =>
    w ∈ s.waiting ∧ w.timeoutSecs.isSome = true ∧ s.task w.agentId = some .running

end AgentRegistry

def registry : Machine AgentRegistry RegistryEvent where
  enabled := AgentRegistry.Enabled
  next := AgentRegistry.next

/-! ## What callers are promised -/

namespace AgentRegistry
variable (s : AgentRegistry)

/-- The spawn of this agent has returned, and its task runs. -/
def Running (agentId : String) : Prop :=
  s.task agentId = some .running ∧ agentId ∉ s.spawning

/-- The awaits that were given the agent's result. -/
def deliveries (agentId : String) : ℕ :=
  s.replies.countP (fun r => r.agentId = agentId ∧ r.outcome.isJoined = true)

/-- The handles of the agent's task that an await holds or can still take. -/
def kept (agentId : String) : ℕ :=
  s.spawning.count agentId + s.agents.count agentId +
    s.waiting.countP (fun w => w.agentId = agentId)

/-- Running agents are listed, shown and can be stopped, and the result of a finished one has
gone to one await, or can still go to one. -/
structure Served : Prop where
  listed : ∀ agentId, s.Running agentId → s.agentInfo agentId ∈ s.listAgents
  shown : ∀ agentId, s.Running agentId → s.agentStatus agentId = .ok (s.agentInfo agentId)
  stoppable : ∀ agentId, s.Running agentId →
    (s.stopAgent agentId).1.task agentId = some .stopped
  delivered : ∀ agentId result, s.task agentId = some (.finished result) →
    s.deliveries agentId + s.kept agentId = 1
  own : ∀ r ∈ s.replies, ∀ result, r.outcome = .joined result →
    s.task r.agentId = some (.finished result)

/-- An await meets no running agent in the map. -/
def AwaitsFinished : RegistryEvent → Prop
  | .await _ args => ∀ agentId, args.str "agent_id" = some agentId → agentId ∈ s.agents →
      s.task agentId ≠ some .running
  | _ => True

/-- The handle of a task, or its result, is in one place at most, and in none before the
task starts and after it is stopped. -/
def HandleOnce (task : Option TaskState) (deliveries kept : ℕ) : Prop :=
  match task with
  | none | some .stopped => deliveries = 0 ∧ kept = 0
  | some .running => deliveries = 0 ∧ kept ≤ 1
  | some (.finished _) => deliveries + kept ≤ 1

structure Owned : Prop where
  once : ∀ agentId, HandleOnce (s.task agentId) (s.deliveries agentId) (s.kept agentId)
  own : ∀ r ∈ s.replies, ∀ result, r.outcome = .joined result →
    s.task r.agentId = some (.finished result)

/-- Nothing that runs is missing from the map, and no result is lost. -/
structure Complete : Prop where
  registered : ∀ agentId, s.Running agentId → agentId ∈ s.agents
  finished : ∀ agentId result, s.task agentId = some (.finished result) →
    s.deliveries agentId + s.kept agentId = 1

variable {s}

theorem served_iff (h : s.Owned) : s.Served ↔ s.Complete := by
  constructor
  · intro hserved
    refine ⟨?_,hserved.delivered⟩
    intro agentId hrunning
    have hshown := hserved.shown agentId hrunning
    unfold agentStatus at hshown
    by_contra hmem
    rw [if_neg hmem] at hshown
    cases hshown
  · intro hcomplete
    refine ⟨?_,?_,?_,hcomplete.finished,h.own⟩
    · intro agentId hrunning
      exact List.mem_map_of_mem (hcomplete.registered agentId hrunning)
    · intro agentId hrunning
      rw [agentStatus,if_pos (hcomplete.registered agentId hrunning)]
    · intro agentId hrunning
      rw [stopAgent,if_pos (hcomplete.registered agentId hrunning)]
      simp

theorem countP_erase_add {α : Type*} [DecidableEq α] {l : List α} {a : α} (p : α → Bool)
    (h : a ∈ l) : (l.erase a).countP p + (if p a = true then 1 else 0) = l.countP p := by
  rw [(List.perm_cons_erase h).countP_eq p,List.countP_cons]

theorem count_erase_add {α : Type*} [DecidableEq α] {l : List α} {a : α} (b : α) (h : a ∈ l) :
    (l.erase a).count b + (if a = b then 1 else 0) = l.count b := by
  have hcount := countP_erase_add (· == b) h
  simp only [beq_iff_eq] at hcount
  exact hcount

/-! ### Where the handles are after each operation -/

variable {agentId : String} (other : String)

theorem kept_spawned (info : String → TaskInfo) (task : String → Option TaskState) :
    kept { s with info, task, spawning := agentId :: s.spawning } other =
      s.kept other + (if agentId = other then 1 else 0) := by
  simp only [kept,List.count_cons,beq_iff_eq]
  omega

theorem kept_register (h : agentId ∈ s.spawning) :
    (s.register agentId).kept other = s.kept other := by
  have hcount := count_erase_add other h
  simp only [kept,register,List.count_cons,beq_iff_eq]
  omega

theorem kept_stopped (h : agentId ∈ s.agents) (task : String → Option TaskState) :
    kept { s with agents := s.agents.erase agentId, task } other +
      (if agentId = other then 1 else 0) = s.kept other := by
  have hcount := count_erase_add other h
  simp only [kept]
  omega

theorem kept_awaited (h : agentId ∈ s.agents) (call : ℕ) (timeoutSecs : Option ℕ) :
    kept { s with
      agents := s.agents.erase agentId
      waiting := ⟨call,agentId,timeoutSecs⟩ :: s.waiting } other = s.kept other := by
  have hcount := count_erase_add other h
  simp only [kept,List.countP_cons,decide_eq_true_eq]
  omega

theorem kept_endAwait {w : Await} (h : w ∈ s.waiting) (outcome : AwaitOutcome) :
    (s.endAwait w outcome).kept other + (if w.agentId = other then 1 else 0) = s.kept other := by
  have hcount := countP_erase_add (fun w => w.agentId = other) h
  simp only [decide_eq_true_eq] at hcount
  simp only [kept,endAwait]
  omega

theorem deliveries_endAwait (w : Await) (outcome : AwaitOutcome) :
    (s.endAwait w outcome).deliveries other = s.deliveries other +
      (if w.agentId = other ∧ outcome.isJoined = true then 1 else 0) := by
  simp only [deliveries,endAwait,List.countP_cons,decide_eq_true_eq]

theorem Owned.of_task {task : Option TaskState} (h : s.Owned) (htask : s.task agentId = task) :
    HandleOnce task (s.deliveries agentId) (s.kept agentId) := htask ▸ h.once agentId

theorem Owned.own_ne (h : s.Owned) (hne : ∀ result, s.task agentId ≠ some (.finished result))
    {r : AwaitReply} (hr : r ∈ s.replies) {result : JoinResult} (ho : r.outcome = .joined result) :
    r.agentId ≠ agentId := by
  intro he
  exact hne result (he ▸ h.own r hr result ho)

theorem kept_pos (h : agentId ∈ s.agents) : 0 < s.kept agentId := by
  have hcount := List.count_pos_iff.mpr h
  unfold kept
  omega

theorem Owned.spawn (h : s.Owned) (hfresh : s.task agentId = none) (args : Value)
    (status : String) : (s.spawn agentId args status).Owned := by
  unfold AgentRegistry.spawn
  cases args.str "description" with
  | none => exact h
  | some description =>
    obtain ⟨hd,hk⟩ := h.of_task hfresh
    constructor
    · intro other
      rw [kept_spawned]
      by_cases ho : agentId = other
      · subst ho
        simp only [Function.update_self,if_true]
        exact ⟨hd,by omega⟩
      · simp only [Function.update_of_ne (Ne.symm ho),if_neg ho]
        exact h.once other
    · intro r hr result houtcome
      have hnot : ∀ result, s.task agentId ≠ some (.finished result) := by simp [hfresh]
      have hne := h.own_ne hnot hr houtcome
      simpa [Function.update_of_ne hne] using h.own r hr result houtcome

theorem Owned.register (h : s.Owned) (hmem : agentId ∈ s.spawning) :
    (s.register agentId).Owned := by
  constructor
  · intro other
    rw [kept_register other hmem]
    exact h.once other
  · exact h.own

theorem Owned.finish (h : s.Owned) (hrunning : s.task agentId = some .running)
    (result : JoinResult) : (s.finish agentId result).Owned := by
  obtain ⟨hd,hk⟩ := h.of_task hrunning
  constructor
  · intro other
    by_cases ho : agentId = other
    · subst ho
      simp only [AgentRegistry.finish,Function.update_self]
      change s.deliveries agentId + s.kept agentId ≤ 1
      omega
    · simp only [AgentRegistry.finish,Function.update_of_ne (Ne.symm ho)]
      exact h.once other
  · intro r hr result' houtcome
    have hnot : ∀ result, s.task agentId ≠ some (.finished result) := by simp [hrunning]
    have hne := h.own_ne hnot hr houtcome
    simpa [AgentRegistry.finish,Function.update_of_ne hne] using h.own r hr result' houtcome

/-- What is in the map has not been given to an await. -/
theorem Owned.deliveries_of_mem (h : s.Owned) (hmem : agentId ∈ s.agents) :
    s.deliveries agentId = 0 ∧ s.kept agentId = 1 := by
  have hpos := kept_pos hmem
  have honce := h.once agentId
  unfold HandleOnce at honce
  split at honce
  all_goals omega

theorem Owned.stopAgent (h : s.Owned) (agentId : String) : (s.stopAgent agentId).1.Owned := by
  unfold AgentRegistry.stopAgent
  by_cases hmem : agentId ∈ s.agents
  · rw [if_pos hmem]
    obtain ⟨hd,hk⟩ := h.deliveries_of_mem hmem
    constructor
    · intro other
      have hkept := kept_stopped other hmem (Function.update s.task agentId (some .stopped))
      by_cases ho : agentId = other
      · subst ho
        simp only [Function.update_self]
        rw [if_pos rfl] at hkept
        exact ⟨hd,by omega⟩
      · rw [if_neg ho,Nat.add_zero] at hkept
        simp only [Function.update_of_ne (Ne.symm ho)]
        rw [hkept]
        exact h.once other
    · intro r hr result houtcome
      have hne : r.agentId ≠ agentId := by
        rintro rfl
        have hpos : 0 < s.deliveries r.agentId :=
          List.countP_pos_iff.mpr ⟨r,hr,by simp [houtcome,AwaitOutcome.isJoined]⟩
        omega
      simpa [Function.update_of_ne hne] using h.own r hr result houtcome
  · rw [if_neg hmem]
    exact h

theorem Owned.awaitAgent (h : s.Owned) (call : ℕ) (agentId : String) (timeoutSecs : Option ℕ) :
    (s.awaitAgent call agentId timeoutSecs).Owned := by
  unfold AgentRegistry.awaitAgent
  by_cases hmem : agentId ∈ s.agents
  · rw [if_pos hmem]
    constructor
    · intro other
      rw [kept_awaited other hmem]
      exact h.once other
    · exact h.own
  · rw [if_neg hmem]
    constructor
    · intro other
      have hd := deliveries_endAwait (s := s) other ⟨call,agentId,timeoutSecs⟩ .notFound
      simp only [AwaitOutcome.isJoined,Bool.false_eq_true,and_false,if_false,Nat.add_zero] at hd
      exact (congrArg (HandleOnce (s.task other) · (s.kept other)) hd.symm).mp (h.once other)
    · intro r hr result houtcome
      rcases List.mem_cons.mp hr with rfl | hr
      · cases houtcome
      · exact h.own r hr result houtcome

theorem Owned.awaitReturns (h : s.Owned) {w : Await} {result : JoinResult}
    (hw : w ∈ s.waiting) (hfinished : s.task w.agentId = some (.finished result)) :
    (s.endAwait w (.joined result)).Owned := by
  constructor
  · intro other
    have hkept := kept_endAwait other hw (.joined result)
    have hd := deliveries_endAwait (s := s) other w (.joined result)
    by_cases ho : w.agentId = other
    · subst ho
      rw [if_pos rfl] at hkept
      rw [if_pos ⟨rfl,rfl⟩] at hd
      have honce : s.deliveries w.agentId + s.kept w.agentId ≤ 1 := h.of_task hfinished
      have htask : (s.endAwait w (.joined result)).task w.agentId = some (.finished result) :=
        hfinished
      rw [htask]
      change _ + _ ≤ 1
      omega
    · rw [if_neg ho,Nat.add_zero] at hkept
      rw [if_neg (fun hand => ho hand.1),Nat.add_zero] at hd
      rw [hkept,hd]
      exact h.once other
  · intro r hr result' houtcome
    rcases List.mem_cons.mp hr with rfl | hr
    · cases houtcome
      exact hfinished
    · exact h.own r hr result' houtcome

/-- The handle of an await that times out is gone. -/
theorem Owned.awaitTimesOut (h : s.Owned) {w : Await} {secs : ℕ} (hw : w ∈ s.waiting)
    (hrunning : s.task w.agentId = some .running) : (s.endAwait w (.timedOut secs)).Owned := by
  constructor
  · intro other
    have hkept := kept_endAwait other hw (.timedOut secs)
    have hd := deliveries_endAwait (s := s) other w (.timedOut secs)
    rw [if_neg (fun hand => absurd hand.2 (by simp [AwaitOutcome.isJoined])),Nat.add_zero] at hd
    rw [hd]
    by_cases ho : w.agentId = other
    · subst ho
      rw [if_pos rfl] at hkept
      obtain ⟨hzero,hone⟩ := h.of_task hrunning
      have htask : (s.endAwait w (.timedOut secs)).task w.agentId = some .running := hrunning
      rw [htask]
      exact ⟨hzero,by omega⟩
    · rw [if_neg ho,Nat.add_zero] at hkept
      rw [hkept]
      exact h.once other
  · intro r hr result houtcome
    rcases List.mem_cons.mp hr with rfl | hr
    · cases houtcome
    · exact h.own r hr result houtcome

theorem Owned.next {e : RegistryEvent} (h : s.Owned) (he : s.Enabled e) : (s.next e).Owned := by
  cases e with
  | spawn agentId args status => exact h.spawn he args status
  | register agentId => exact h.register he
  | report agentId status iterations => exact ⟨h.once,h.own⟩
  | finish agentId result => exact h.finish he result
  | list => exact h
  | status args => exact h
  | stop args =>
    simp only [AgentRegistry.next,stopAgentImpl]
    cases args.str "agent_id" with
    | none => exact h
    | some agentId => exact h.stopAgent agentId
  | await call args =>
    simp only [AgentRegistry.next,awaitAgentImpl]
    cases args.str "agent_id" with
    | none => exact h
    | some agentId => exact h.awaitAgent call agentId (timeoutSecs args)
  | awaitReturns w result => exact h.awaitReturns he.1 he.2
  | awaitTimesOut w => exact h.awaitTimesOut he.1 he.2.2

/-! ### What keeps the registry complete -/

theorem Owned.new : ({} : AgentRegistry).Owned :=
  ⟨fun _ => ⟨rfl,rfl⟩,fun _ hr => absurd hr List.not_mem_nil⟩

theorem Complete.new : ({} : AgentRegistry).Complete := by
  constructor
  · rintro agentId ⟨htask,_⟩
    cases htask
  · intro agentId result htask
    cases htask

theorem Complete.spawn (h : s.Complete) (args : Value) (status : String) :
    (s.spawn agentId args status).Complete := by
  unfold AgentRegistry.spawn
  cases args.str "description" with
  | none => exact h
  | some description =>
    constructor
    · rintro other ⟨htask,hspawning⟩
      obtain ⟨hne,hspawning⟩ := not_or.mp (fun hor => hspawning (List.mem_cons.mpr hor))
      simp only [Function.update_of_ne hne] at htask
      exact h.registered other ⟨htask,hspawning⟩
    · intro other result htask
      by_cases ho : other = agentId
      · subst ho
        simp at htask
      · simp only [Function.update_of_ne ho] at htask
        rw [kept_spawned,if_neg (Ne.symm ho)]
        exact h.finished other result htask

theorem Complete.register (h : s.Complete) (hmem : agentId ∈ s.spawning) :
    (s.register agentId).Complete := by
  constructor
  · rintro other ⟨htask,hspawning⟩
    by_cases ho : other = agentId
    · exact List.mem_cons.mpr (.inl ho)
    · have hnot : other ∉ s.spawning := fun hs => hspawning ((List.mem_erase_of_ne ho).mpr hs)
      exact .tail _ (h.registered other ⟨htask,hnot⟩)
  · intro other result htask
    rw [kept_register other hmem]
    exact h.finished other result htask

/-- A running agent's handle is somewhere as long as no await has dropped it. -/
theorem Complete.kept_running (h : s.Complete) (hrunning : s.task agentId = some .running) :
    0 < s.kept agentId := by
  by_cases hspawning : agentId ∈ s.spawning
  · have hcount := List.count_pos_iff.mpr hspawning
    unfold kept
    omega
  · exact kept_pos (h.registered agentId ⟨hrunning,hspawning⟩)

theorem Complete.finish (h : s.Complete) (hs : s.Owned) (hrunning : s.task agentId = some .running)
    (result : JoinResult) : (s.finish agentId result).Complete := by
  constructor
  · rintro other ⟨htask,hspawning⟩
    by_cases ho : other = agentId
    · subst ho
      simp [AgentRegistry.finish] at htask
    · simp only [AgentRegistry.finish,Function.update_of_ne ho] at htask
      exact h.registered other ⟨htask,hspawning⟩
  · intro other result' htask
    by_cases ho : other = agentId
    · subst ho
      have hpos := h.kept_running hrunning
      obtain ⟨hd,hk⟩ := hs.of_task hrunning
      change s.deliveries other + s.kept other = 1
      omega
    · simp only [AgentRegistry.finish,Function.update_of_ne ho] at htask
      exact h.finished other result' htask

theorem Complete.stopAgent (h : s.Complete) (agentId : String) :
    (s.stopAgent agentId).1.Complete := by
  unfold AgentRegistry.stopAgent
  by_cases hmem : agentId ∈ s.agents
  · rw [if_pos hmem]
    constructor
    · rintro other ⟨htask,hspawning⟩
      by_cases ho : other = agentId
      · subst ho
        simp at htask
      · simp only [Function.update_of_ne ho] at htask
        exact (List.mem_erase_of_ne ho).mpr (h.registered other ⟨htask,hspawning⟩)
    · intro other result htask
      by_cases ho : other = agentId
      · subst ho
        simp at htask
      · have hkept := kept_stopped other hmem (Function.update s.task agentId (some .stopped))
        rw [if_neg (Ne.symm ho),Nat.add_zero] at hkept
        simp only [Function.update_of_ne ho] at htask
        rw [hkept]
        exact h.finished other result htask
  · rw [if_neg hmem]
    exact h

theorem awaitAgent_complete_iff (h : s.Complete) (hs : s.Owned) (call : ℕ) (agentId : String)
    (timeoutSecs : Option ℕ) : (s.awaitAgent call agentId timeoutSecs).Complete ↔
      (agentId ∈ s.agents → s.task agentId ≠ some .running) := by
  unfold AgentRegistry.awaitAgent
  by_cases hmem : agentId ∈ s.agents
  · rw [if_pos hmem]
    have hcount : s.spawning.count agentId = 0 ∧ s.agents.count agentId = 1 := by
      have hpos := List.count_pos_iff.mpr hmem
      have hk := (hs.deliveries_of_mem hmem).2
      unfold kept at hk
      omega
    constructor
    · intro hcomplete _ hrunning
      have hlost := hcomplete.registered agentId ⟨hrunning,List.count_eq_zero.mp hcount.1⟩
      have hpos := List.count_pos_iff.mpr hlost
      have herase := count_erase_add agentId hmem
      rw [if_pos rfl] at herase
      simp only at hpos
      omega
    · intro hidle
      constructor
      · rintro other ⟨htask,hspawning⟩
        have hne : other ≠ agentId := by
          rintro rfl
          exact hidle hmem htask
        exact (List.mem_erase_of_ne hne).mpr (h.registered other ⟨htask,hspawning⟩)
      · intro other result htask
        rw [kept_awaited other hmem]
        exact h.finished other result htask
  · rw [if_neg hmem]
    refine iff_of_true ⟨h.registered,?_⟩ (fun hm => absurd hm hmem)
    intro other result htask
    have hd := deliveries_endAwait (s := s) other ⟨call,agentId,timeoutSecs⟩ .notFound
    simp only [AwaitOutcome.isJoined,Bool.false_eq_true,and_false,if_false,Nat.add_zero] at hd
    exact (congrArg (· + s.kept other) hd).trans (h.finished other result htask)

theorem Complete.awaitReturns (h : s.Complete) {w : Await} {result : JoinResult}
    (hw : w ∈ s.waiting) : (s.endAwait w (.joined result)).Complete := by
  refine ⟨h.registered,?_⟩
  intro other result' htask
  have hkept := kept_endAwait other hw (.joined result)
  have hd := deliveries_endAwait (s := s) other w (.joined result)
  have hfinished := h.finished other result' htask
  by_cases ho : w.agentId = other
  · rw [if_pos ho] at hkept
    rw [if_pos ⟨ho,rfl⟩] at hd
    omega
  · rw [if_neg ho] at hkept
    rw [if_neg (fun hand => ho hand.1)] at hd
    omega

/-- Where every running agent is in the map no await holds one, so none times out. -/
theorem Complete.not_waiting (h : s.Complete) (hs : s.Owned) {w : Await} (hw : w ∈ s.waiting) :
    s.task w.agentId ≠ some .running := by
  intro hrunning
  have hwaiting : 0 < s.waiting.countP (fun v => v.agentId = w.agentId) :=
    List.countP_pos_iff.mpr ⟨w,hw,by simp⟩
  have hk := (hs.of_task hrunning).2
  unfold kept at hk
  by_cases hspawning : w.agentId ∈ s.spawning
  · have hcount := List.count_pos_iff.mpr hspawning
    omega
  · have hcount := List.count_pos_iff.mpr (h.registered w.agentId ⟨hrunning,hspawning⟩)
    omega

theorem complete_next_iff {e : RegistryEvent} (hs : s.Owned) (h : s.Complete)
    (he : s.Enabled e) : (s.next e).Complete ↔ s.AwaitsFinished e := by
  cases e with
  | spawn agentId args status => exact iff_of_true (h.spawn args status) trivial
  | register agentId => exact iff_of_true (h.register he) trivial
  | report agentId status iterations => exact iff_of_true ⟨h.registered,h.finished⟩ trivial
  | finish agentId result => exact iff_of_true (h.finish hs he result) trivial
  | list => exact iff_of_true h trivial
  | status args => exact iff_of_true h trivial
  | stop args =>
    simp only [AgentRegistry.next,stopAgentImpl,AwaitsFinished,iff_true]
    cases args.str "agent_id" with
    | none => exact h
    | some agentId => exact h.stopAgent agentId
  | await call args =>
    simp only [AgentRegistry.next,awaitAgentImpl,AwaitsFinished]
    cases args.str "agent_id" with
    | none => simpa using h
    | some agentId =>
      simp only [Option.some.injEq,forall_eq']
      exact awaitAgent_complete_iff h hs call agentId (timeoutSecs args)
  | awaitReturns w result => exact iff_of_true (h.awaitReturns he.1) trivial
  | awaitTimesOut w => exact absurd he.2.2 (h.not_waiting hs he.1)

end AgentRegistry

/-- Over a run callers are served exactly when every await of an agent in the map meets one
that has finished. -/
theorem run_served_iff {es : List RegistryEvent} (hr : registry.Run {} es) :
    (∀ p ∈ registry.trail {} es, (p.1.next p.2).Served) ↔
      ∀ p ∈ registry.trail {} es, p.1.AwaitsFinished p.2 := by
  refine hr.forall_iff (G := fun s => s.Owned ∧ s.Complete) (P := fun s e => (s.next e).Served)
    (C := AgentRegistry.AwaitsFinished) ?_ ?_ ⟨.new,.new⟩
  · intro s e h he hc
    exact ⟨h.1.next he,(AgentRegistry.complete_next_iff h.1 h.2 he).mpr hc⟩
  · intro s e h he
    rw [AgentRegistry.served_iff (h.1.next he)]
    exact AgentRegistry.complete_next_iff h.1 h.2 he

def agentArgs (agentId : String) : Value := .object [("agent_id",.string agentId)]

def taskArgs (description : String) : Value := .object [("description",.string description)]

def done : JoinResult := .completed ⟨"agent-1",true,3,"Done."⟩

/-- An agent is awaited after it has finished. -/
def patientRun : List RegistryEvent :=
  [.spawn "agent-1" (taskArgs "Write a test.") "Idle",.register "agent-1",.list,
    .finish "agent-1" done,.await 0 (agentArgs "agent-1"),
    .awaitReturns ⟨0,"agent-1",none⟩ done]

theorem patientRun_served : registry.Run {} patientRun ∧
    ∀ p ∈ registry.trail {} patientRun, (p.1.next p.2).Served := by
  have hrun : registry.Run {} patientRun :=
    ⟨rfl,.head _,trivial,rfl,trivial,⟨.head _,rfl⟩,trivial⟩
  refine ⟨hrun,(run_served_iff hrun).mpr ?_⟩
  simp only [patientRun,Machine.forall_trail_cons]
  refine ⟨?_,?_,?_,?_,?_,?_,Machine.forall_trail_nil⟩
  · trivial
  · trivial
  · trivial
  · trivial
  · rintro agentId hagent _ htask
    cases hagent
    cases htask
  · trivial

/-- While a caller waits, the agent that runs is not listed. -/
def hiddenRun : List RegistryEvent :=
  [.spawn "agent-1" (taskArgs "Write a test.") "Idle",.register "agent-1",
    .await 0 (agentArgs "agent-1")]

theorem hiddenRun_unserved :
    ¬ ∀ es, registry.Run {} es → ∀ p ∈ registry.trail {} es, (p.1.next p.2).Served := by
  intro h
  have hserved := h hiddenRun ⟨rfl,.head _,trivial,trivial⟩ _ (.tail _ (.tail _ (.head _)))
  have hlisted := hserved.listed "agent-1" ⟨rfl,List.not_mem_nil⟩
  cases hlisted

end Rullama.Mcp
