import Mathlib.Data.List.AList
import Rullama.Transition.Machine

/-! # The agent manager

Workers by their ids, and a queue of tasks that is worked off by the workers, or by the orchestrator
while there are none. The communication hub, the task queue and the agents belong to the framework:
how they answer is part of a call. A worker is told from another one by its number.
-/
namespace Rullama.Manager
open Transition

structure Task where
  id : String
  description : String
deriving DecidableEq

abbrev Response := String

/-- Work on one task: the message to the worker, what the agent answers, and the tasks that are
queued in the meantime, each with the place that its priority gives it. -/
structure Attempt where
  sendMessage : Except String Unit
  execute : Except String Response
  arrivals : List (ℕ × Task)

structure AgentManager where
  workers : AList (fun _ : String => ℕ)
  /-- in the order of `dequeue` -/
  taskQueue : List Task
  maxWorkers : ℕ
  /-- the number of the worker that is made next -/
  nextWorker : ℕ

inductive Call where
  | spawnWorker (workerId : String) (registers : Except String Unit)
  | removeWorker (workerId : String)
  | queueTask (task : Task) (place : Option ℕ)
  | processQueue (attempts : List Attempt)

def enqueue (queue : List Task) (arrival : ℕ × Task) : List Task :=
  queue.insertIdx (min arrival.1 queue.length) arrival.2

/-- What a call of `process_queue` did. Completed and arrived tasks are ghosts. -/
structure Processed where
  result : Except String (List Response)
  taskQueue : List Task
  completed : List (Task × Response)
  arrived : List Task

namespace AgentManager
variable (s : AgentManager)

def new (maxWorkers : ℕ) : AgentManager := ⟨∅,[],maxWorkers,0⟩

/-- `register_agent` comes after the insertion. -/
def spawnWorker (workerId : String) (registers : Except String Unit) :
    Except String String × AgentManager :=
  if s.maxWorkers ≤ s.workers.keys.length then
    (.error ("Maximum number of workers (" ++ toString s.maxWorkers ++ ") reached"),s)
  else
    (registers.map (fun _ => workerId),
      { s with workers := s.workers.insert workerId s.nextWorker, nextWorker := s.nextWorker + 1 })

def removeWorker (workerId : String) : AgentManager :=
  { s with workers := s.workers.erase workerId }

/-- A queue that is full has no place. -/
def queueTask (task : Task) (place : Option ℕ) : AgentManager :=
  match place with
  | some place => { s with taskQueue := enqueue s.taskQueue (place,task) }
  | none => s

def delegateToAnyWorker (attempt : Attempt) : Except String Response :=
  if s.workers.keys.isEmpty then .error "No workers available"
  else do
    attempt.sendMessage
    attempt.execute

def workOn (attempt : Attempt) : Except String Response :=
  if s.workers.keys.isEmpty then attempt.execute else s.delegateToAnyWorker attempt

/-- The loop, with the responses so far. None if these are not the attempts that it makes. -/
def processFrom (responses : List Response) (completed : List (Task × Response))
    (arrived : List Task) : List Task → List Attempt → Option Processed
  | [], [] => some ⟨.ok responses,[],completed,arrived⟩
  | task :: queue, attempt :: attempts =>
    let queue := attempt.arrivals.foldl enqueue queue
    let arrived := arrived ++ attempt.arrivals.map (·.2)
    match s.workOn attempt with
    | .error e => if attempts.isEmpty then some ⟨.error e,queue,completed,arrived⟩ else none
    | .ok response =>
      processFrom (responses ++ [response]) (completed ++ [(task,response)]) arrived queue attempts
  | _, _ => none

def processQueue (attempts : List Attempt) : Option Processed :=
  s.processFrom [] [] [] s.taskQueue attempts

/-- The manager after a call. -/
def after : Call → AgentManager
  | .spawnWorker workerId registers => (s.spawnWorker workerId registers).2
  | .removeWorker workerId => s.removeWorker workerId
  | .queueTask task place => s.queueTask task place
  | .processQueue attempts =>
    match s.processQueue attempts with
    | some p => { s with taskQueue := p.taskQueue }
    | none => s

end AgentManager

def manager : Machine AgentManager Call where
  enabled s c :=
    match c with
    | .processQueue attempts => (s.processQueue attempts).isSome = true
    | _ => True
  next := AgentManager.after

/-! ## Atomic calls -/

/-- The responses that the caller gets. -/
def Processed.responses (p : Processed) : List Response :=
  match p.result with
  | .ok responses => responses
  | .error _ => []

/-- Every task is completed or still queued, and the caller gets the responses of those that are
completed. -/
structure Processed.Keeps (p : Processed) (queue : List Task) : Prop where
  tasks : (queue ++ p.arrived).Perm (p.completed.map (·.1) ++ p.taskQueue)
  responses : p.responses = p.completed.map (·.2)

namespace AgentManager
variable (s : AgentManager)

/-- No worker is replaced, and an error leaves all as they were. -/
structure SpawnKeeps (r : Except String String × AgentManager) : Prop where
  unchanged : ∀ e, r.1 = .error e → ∀ id, r.2.workers.lookup id = s.workers.lookup id
  kept : ∀ id worker, s.workers.lookup id = some worker → r.2.workers.lookup id = some worker

def Atomic : Call → Prop
  | .spawnWorker workerId registers => s.SpawnKeeps (s.spawnWorker workerId registers)
  | .processQueue attempts => ∀ p ∈ s.processQueue attempts, p.Keeps s.taskQueue
  | _ => True

/-- A spawn is refused for the number of workers, or its id is new and registered. All attempts
on tasks succeed. -/
def Tolerates : Call → Prop
  | .spawnWorker workerId registers => s.maxWorkers ≤ s.workers.keys.length ∨
      workerId ∉ s.workers ∧ registers.isOk = true
  | .processQueue attempts => ∀ attempt ∈ attempts, (s.workOn attempt).isOk = true
  | _ => True

/-- The workers have numbers that are given out. -/
def Numbered : Prop := ∀ id worker, s.workers.lookup id = some worker → worker < s.nextWorker

variable {s} {workerId : String} {registers : Except String Unit} {queue : List Task}
  {attempts : List Attempt} {p : Processed}

/-! ## Spawning -/

theorem spawnWorker_full (h : s.maxWorkers ≤ s.workers.keys.length) :
    s.spawnWorker workerId registers =
      (.error ("Maximum number of workers (" ++ toString s.maxWorkers ++ ") reached"),s) := by
  rw [spawnWorker,if_pos h]

theorem spawnWorker_inserts (h : ¬ s.maxWorkers ≤ s.workers.keys.length) :
    s.spawnWorker workerId registers = (registers.map (fun _ => workerId),
      { s with
        workers := s.workers.insert workerId s.nextWorker, nextWorker := s.nextWorker + 1 }) := by
  rw [spawnWorker,if_neg h]

theorem spawnKeeps_iff (hs : s.Numbered) : s.SpawnKeeps (s.spawnWorker workerId registers) ↔
    s.Tolerates (.spawnWorker workerId registers) := by
  by_cases hfull : s.maxWorkers ≤ s.workers.keys.length
  · rw [spawnWorker_full hfull]
    exact iff_of_true ⟨fun _ _ _ => rfl,fun _ _ h => h⟩ (.inl hfull)
  · rw [spawnWorker_inserts hfull,Tolerates,or_iff_right hfull]
    constructor
    · intro hkeeps
      have hnew : workerId ∉ s.workers := by
        intro hmem
        obtain ⟨worker,hworker⟩ := Option.isSome_iff_exists.mp (AList.lookup_isSome.mpr hmem)
        have hkept := hkeeps.kept workerId worker hworker
        rw [AList.lookup_insert] at hkept
        have hlt := hs workerId worker hworker
        rw [← Option.some.inj hkept] at hlt
        exact lt_irrefl _ hlt
      refine ⟨hnew,?_⟩
      cases registers with
      | ok _ => rfl
      | error e =>
        have hunchanged := hkeeps.unchanged e rfl workerId
        rw [AList.lookup_insert,AList.lookup_eq_none.mpr hnew] at hunchanged
        cases hunchanged
    · rintro ⟨hnew,hok⟩
      refine ⟨fun e he => ?_,fun id worker hworker => ?_⟩
      · cases registers with
        | ok _ => cases he
        | error e => cases hok
      · have hne : id ≠ workerId := by
          rintro rfl
          rw [AList.lookup_eq_none.mpr hnew] at hworker
          cases hworker
        rw [AList.lookup_insert_ne hne]
        exact hworker

/-! ## Working off the queue -/

theorem perm_enqueue (queue : List Task) (arrival : ℕ × Task) :
    (enqueue queue arrival).Perm (arrival.2 :: queue) :=
  List.perm_insertIdx _ _ (Nat.min_le_right _ _)

theorem perm_arrivals (arrivals : List (ℕ × Task)) (queue : List Task) :
    (arrivals.foldl enqueue queue).Perm (queue ++ arrivals.map (·.2)) := by
  induction arrivals generalizing queue with
  | nil => simp
  | cons arrival arrivals ih =>
    refine (ih (enqueue queue arrival)).trans ?_
    rw [List.map_cons]
    exact ((perm_enqueue queue arrival).append_right _).trans List.perm_middle.symm

/-- What the loop adds to the completed and the arrived tasks, and what it loses. -/
structure Worked (s : AgentManager) (queue : List Task) (attempts : List Attempt)
    (responses : List Response) (completed : List (Task × Response)) (arrived : List Task)
    (p : Processed) (done : List (Task × Response)) (came lost : List Task) : Prop where
  completed : p.completed = completed ++ done
  arrived : p.arrived = arrived ++ came
  tasks : (queue ++ came).Perm (done.map (·.1) ++ (lost ++ p.taskQueue))
  outcome : (∀ attempt ∈ attempts, (s.workOn attempt).isOk = true) ∧ lost = [] ∧
      p.result = .ok (responses ++ done.map (·.2)) ∨
    (¬ ∀ attempt ∈ attempts, (s.workOn attempt).isOk = true) ∧ lost.length = 1 ∧
      ∃ e, p.result = .error e

theorem exists_worked {responses : List Response} {completed : List (Task × Response)}
    {arrived : List Task} (h : s.processFrom responses completed arrived queue attempts = some p) :
    ∃ done came lost, s.Worked queue attempts responses completed arrived p done came lost := by
  induction attempts generalizing responses completed arrived queue with
  | nil =>
    cases queue with
    | nil =>
      cases h
      exact ⟨[],[],[],by simp,by simp,by simp,.inl ⟨by simp,rfl,by simp⟩⟩
    | cons task queue => cases h
  | cons attempt attempts ih =>
    cases queue with
    | nil => cases h
    | cons task queue =>
      have hqueue := perm_arrivals attempt.arrivals queue
      rw [processFrom] at h
      cases hwork : s.workOn attempt with
      | error e =>
        simp only [hwork] at h
        split at h
        · cases h
          refine ⟨[],attempt.arrivals.map (·.2),[task],by simp,rfl,?_,
            .inr ⟨fun hall => ?_,rfl,e,rfl⟩⟩
          · exact hqueue.symm.cons task
          · have hok := hall attempt List.mem_cons_self
            rw [hwork] at hok
            cases hok
        · cases h
      | ok response =>
        simp only [hwork] at h
        obtain ⟨done,came,lost,hworked⟩ := ih h
        refine ⟨(task,response) :: done,attempt.arrivals.map (·.2) ++ came,lost,?_,?_,?_,?_⟩
        · rw [hworked.completed,List.append_assoc]
          rfl
        · rw [hworked.arrived,List.append_assoc]
        · have hcame := hqueue.symm.append_right came
          rw [List.append_assoc] at hcame
          exact (hcame.trans hworked.tasks).cons task
        · have hok : (s.workOn attempt).isOk = true := by rw [hwork]; rfl
          simp only [List.forall_mem_cons,hok,true_and]
          refine hworked.outcome.imp_left (fun hgood => ⟨hgood.1,hgood.2.1,?_⟩)
          rw [hgood.2.2,List.append_assoc]
          rfl

/-- Nothing is lost exactly when no attempt fails. -/
theorem keeps_iff (h : s.processQueue attempts = some p) :
    p.Keeps s.taskQueue ↔ ∀ attempt ∈ attempts, (s.workOn attempt).isOk = true := by
  obtain ⟨done,came,lost,hworked⟩ := exists_worked h
  have hcompleted : p.completed = done := hworked.completed
  have harrived : p.arrived = came := hworked.arrived
  have htasks := hworked.tasks
  rcases hworked.outcome with ⟨hall,rfl,hresult⟩ | ⟨hnot,hlost,e,hresult⟩
  · refine iff_of_true ⟨?_,?_⟩ hall
    · rw [hcompleted,harrived]
      exact htasks
    · rw [Processed.responses,hresult,hcompleted]
      rfl
  · refine iff_of_false (fun hkeeps => ?_) hnot
    have hlen := hkeeps.tasks.length_eq
    have hall := htasks.length_eq
    rw [hcompleted,harrived] at hlen
    simp only [List.length_append] at hlen hall
    omega

/-! ## Runs -/

theorem numbered_new (maxWorkers : ℕ) : (new maxWorkers).Numbered := by
  intro id worker h
  rw [new,AList.lookup_empty] at h
  cases h

theorem Numbered.after (h : s.Numbered) (c : Call) : (s.after c).Numbered := by
  cases c with
  | spawnWorker workerId registers =>
    rw [AgentManager.after]
    by_cases hfull : s.maxWorkers ≤ s.workers.keys.length
    · rw [spawnWorker_full hfull]
      exact h
    · rw [spawnWorker_inserts hfull]
      intro id worker hworker
      by_cases hid : id = workerId
      · rw [hid,AList.lookup_insert] at hworker
        rw [← Option.some.inj hworker]
        exact Nat.lt_succ_self _
      · rw [AList.lookup_insert_ne hid] at hworker
        exact Nat.lt_succ_of_lt (h id worker hworker)
  | removeWorker workerId =>
    intro id worker hworker
    by_cases hid : id = workerId
    · rw [hid,AgentManager.after,removeWorker,AList.lookup_erase] at hworker
      cases hworker
    · rw [AgentManager.after,removeWorker,AList.lookup_erase_ne hid] at hworker
      exact h id worker hworker
  | queueTask task place => cases place <;> exact h
  | processQueue attempts =>
    rw [AgentManager.after]
    split <;> exact h

theorem atomic_iff (hs : s.Numbered) {c : Call} (hc : manager.enabled s c) :
    s.Atomic c ↔ s.Tolerates c := by
  cases c with
  | spawnWorker workerId registers => exact spawnKeeps_iff hs
  | processQueue attempts =>
    obtain ⟨p,hp⟩ := Option.isSome_iff_exists.mp hc
    rw [Tolerates,← keeps_iff hp,Atomic,hp]
    simp only [Option.mem_some_iff,forall_eq']
  | removeWorker workerId => exact Iff.rfl
  | queueTask task place => exact Iff.rfl

/-- In every run from a new manager all calls are atomic exactly when all are tolerated. -/
theorem run_atomic_iff {maxWorkers : ℕ} {calls : List Call}
    (hr : manager.Run (new maxWorkers) calls) :
    (∀ q ∈ manager.trail (new maxWorkers) calls, q.1.Atomic q.2) ↔
      ∀ q ∈ manager.trail (new maxWorkers) calls, q.1.Tolerates q.2 := by
  refine hr.forall_iff (G := Numbered) ?_ ?_ (numbered_new maxWorkers)
  · intro s c hs _ _
    exact hs.after c
  · intro s c hs hc
    exact atomic_iff hs hc

instance (s : AgentManager) : (c : Call) → Decidable (s.Tolerates c)
  | .spawnWorker _ _ => inferInstanceAs (Decidable (_ ∨ _ ∧ _))
  | .processQueue attempts =>
    inferInstanceAs (Decidable (∀ attempt ∈ attempts, (s.workOn attempt).isOk = true))
  | .removeWorker _ | .queueTask _ _ => isTrue trivial

instance (s : AgentManager) : (c : Call) → Decidable (manager.enabled s c)
  | .processQueue attempts => inferInstanceAs (Decidable ((s.processQueue attempts).isSome = true))
  | .spawnWorker _ _ | .removeWorker _ | .queueTask _ _ => isTrue trivial

/-- Two workers, two tasks, and a third one that comes while the first is worked on. -/
def busyDay : List Call :=
  [.spawnWorker "a" (.ok ()),.spawnWorker "b" (.ok ()),.spawnWorker "c" (.ok ()),
    .queueTask ⟨"1","build"⟩ (some 0),.queueTask ⟨"2","test"⟩ (some 1),.removeWorker "a",
    .processQueue [⟨.ok (),.ok "built",[(0,⟨"3","lint"⟩)]⟩,⟨.ok (),.ok "linted",[]⟩,
      ⟨.ok (),.ok "tested",[]⟩]]

theorem busyDay_atomic : manager.Run (new 2) busyDay ∧
    ∀ q ∈ manager.trail (new 2) busyDay, q.1.Atomic q.2 :=
  ⟨by decide,(run_atomic_iff (by decide)).mpr (by decide)⟩

/-- A worker whose id is taken in the hub stays in the map. -/
theorem failures_not_atomic : ¬ ∀ maxWorkers calls, manager.Run (new maxWorkers) calls →
    ∀ q ∈ manager.trail (new maxWorkers) calls, q.1.Atomic q.2 := by
  intro h
  have hrun := h 2 [.spawnWorker "orchestrator" (.error "Agent already registered")]
    ⟨trivial,trivial⟩ _ (.head _)
  have hlookup := hrun.unchanged _ rfl "orchestrator"
  exact absurd hlookup (by decide)

end AgentManager
end Rullama.Manager
