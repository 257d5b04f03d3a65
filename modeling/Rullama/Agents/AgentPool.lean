import Rullama.Transition.Machine
import Mathlib.Data.Finset.Card
import Mathlib.Data.List.Perm.Subperm

/-! # The pool of agents

The map from ids to handles is behind a lock that every call takes for one of its sections and
releases before the next. Ids are fresh, so they are numbered as they are made. Who has passed
the capacity check, who is being inserted, awaited or collected is kept beside the map, and what
each call has returned is a ghost.
-/
namespace Rullama.Agents
open Transition (Machine)

/-- The task of an agent. An aborted one runs on until it next awaits. -/
inductive TaskState (ρ : Type*) where
  | absent
  | running
  | aborted
  | ended (result : ρ)

namespace TaskState
variable {ρ : Type*}

def abort : TaskState ρ → TaskState ρ
  | .running => .aborted
  | state => state

def IsRunning : TaskState ρ → Prop
  | .running => True
  | _ => False

/-- Running, be it with an abort pending. -/
def Live : TaskState ρ → Prop
  | .running | .aborted => True
  | _ => False

def IsFinished : TaskState ρ → Prop
  | .ended _ => True
  | _ => False

instance : (state : TaskState ρ) → Decidable state.IsRunning
  | .running => isTrue trivial
  | .absent | .aborted | .ended _ => isFalse id

instance : (state : TaskState ρ) → Decidable state.Live
  | .running | .aborted => isTrue trivial
  | .absent | .ended _ => isFalse id

instance : (state : TaskState ρ) → Decidable state.IsFinished
  | .ended _ => isTrue trivial
  | .absent | .running | .aborted => isFalse id

variable {state : TaskState ρ}

theorem not_isRunning_abort : ¬ state.abort.IsRunning := by
  cases state <;> exact id

end TaskState

inductive PoolEvent (ρ : Type*) where
  /-- `spawn_agent` checks the size of the pool, -/
  | checkCapacity
  /-- starts the task -/
  | create
  /-- and inserts the handle -/
  | insert (i : ℕ)
  /-- the task returns, panics or is cancelled -/
  | finish (i : ℕ) (result : ρ)
  | stopAgent (i : ℕ)
  /-- `await_completion` takes the handle out of the pool -/
  | takeHandle (i : ℕ)
  /-- and returns what the task does -/
  | joined (i : ℕ)
  /-- `cleanup_completed` lists the finished agents -/
  | listFinished
  /-- and removes those of its list -/
  | collect (ids : List ℕ)
  | shutdown
  /-- `get_status`, `get_task`, `list_active`, `active_count`, `is_running`, `stats` -/
  | query

structure AgentPool (ρ : Type*) where
  maxAgents : ℕ
  nextId : ℕ
  state : ℕ → TaskState ρ
  agents : List ℕ
  admitted : ℕ
  inserting : List ℕ
  awaiting : List ℕ
  cleanups : List (List ℕ)
  delivered : List (ℕ × ρ)

namespace AgentPool
variable {ρ : Type*}

def new (maxAgents : ℕ) : AgentPool ρ where
  maxAgents := maxAgents
  nextId := 0
  state _ := .absent
  agents := []
  admitted := 0
  inserting := []
  awaiting := []
  cleanups := []
  delivered := []

variable (s : AgentPool ρ) (i : ℕ)

def checkCapacity : AgentPool ρ :=
  if s.maxAgents ≤ s.agents.length then s else { s with admitted := s.admitted + 1 }

def create : AgentPool ρ :=
  { s with
    nextId := s.nextId + 1
    state := Function.update s.state s.nextId .running
    admitted := s.admitted - 1
    inserting := s.nextId :: s.inserting }

def insert : AgentPool ρ :=
  { s with agents := i :: s.agents, inserting := s.inserting.erase i }

def finish (result : ρ) : AgentPool ρ :=
  { s with state := Function.update s.state i (.ended result) }

def stopAgent : AgentPool ρ :=
  if i ∈ s.agents then
    { s with agents := s.agents.erase i, state := Function.update s.state i (s.state i).abort }
  else s

def takeHandle : AgentPool ρ :=
  if i ∈ s.agents then { s with agents := s.agents.erase i, awaiting := i :: s.awaiting } else s

def joined : AgentPool ρ :=
  match s.state i with
  | .ended result =>
    { s with awaiting := s.awaiting.erase i, delivered := (i,result) :: s.delivered }
  | _ => s

def listFinished : AgentPool ρ :=
  { s with cleanups := s.agents.filter (fun i => (s.state i).IsFinished) :: s.cleanups }

/-- One agent of the list of `cleanup_completed`, which has finished if it is still there. -/
def collectOne : AgentPool ρ :=
  if i ∈ s.agents then
    match s.state i with
    | .ended result =>
      { s with agents := s.agents.erase i, delivered := (i,result) :: s.delivered }
    | _ => s
  else s

def collect (ids : List ℕ) : AgentPool ρ :=
  ids.foldl collectOne { s with cleanups := s.cleanups.erase ids }

def shutdown : AgentPool ρ := s.agents.foldl stopAgent s

end AgentPool

variable {ρ : Type*}

def agentPool : Machine (AgentPool ρ) (PoolEvent ρ) where
  enabled s
    | .create => 0 < s.admitted
    | .insert i => i ∈ s.inserting
    | .finish i _ => (s.state i).Live
    | .joined i => i ∈ s.awaiting ∧ (s.state i).IsFinished
    | .collect ids => ids ∈ s.cleanups
    | .checkCapacity | .stopAgent _ | .takeHandle _ | .listFinished | .shutdown | .query => True
  next s
    | .checkCapacity => s.checkCapacity
    | .create => s.create
    | .insert i => s.insert i
    | .finish i result => s.finish i result
    | .stopAgent i => s.stopAgent i
    | .takeHandle i => s.takeHandle i
    | .joined i => s.joined i
    | .listFinished => s.listFinished
    | .collect ids => s.collect ids
    | .shutdown => s.shutdown
    | .query => s

instance (s : AgentPool ρ) : (e : PoolEvent ρ) → Decidable (agentPool.enabled s e)
  | .create => inferInstanceAs (Decidable (0 < s.admitted))
  | .insert i => inferInstanceAs (Decidable (i ∈ s.inserting))
  | .finish i _ => inferInstanceAs (Decidable (s.state i).Live)
  | .joined i => inferInstanceAs (Decidable (i ∈ s.awaiting ∧ (s.state i).IsFinished))
  | .collect ids => inferInstanceAs (Decidable (ids ∈ s.cleanups))
  | .checkCapacity | .stopAgent _ | .takeHandle _ | .listFinished | .shutdown | .query =>
    isTrue trivial

namespace AgentPool
variable (s : AgentPool ρ) (i : ℕ)

/-- The agents in the pool or still running. -/
def present : Finset ℕ := (Finset.range s.nextId).filter (fun i => i ∈ s.agents ∨ (s.state i).Live)

/-- Those, and the ones that are being inserted. -/
def Occupied : Prop := i ∈ s.inserting ∨ i ∈ s.agents ∨ (s.state i).Live

instance : Decidable (s.Occupied i) :=
  inferInstanceAs (Decidable (i ∈ s.inserting ∨ i ∈ s.agents ∨ (s.state i).Live))

def occupied : Finset ℕ := (Finset.range s.nextId).filter s.Occupied

end AgentPool

/-- The pool keeps to its size, has every running agent but for one that `spawn_agent` has not
returned yet, and no agent's result has been returned twice. -/
structure Managed (s : AgentPool ρ) : Prop where
  cap : s.present.card ≤ s.maxAgents
  reachable : ∀ i, (s.state i).IsRunning → i ∈ s.agents ∨ i ∈ s.inserting
  once : (s.delivered.map Prod.fst).Nodup
  own : ∀ d ∈ s.delivered, s.state d.1 = .ended d.2

/-- A call that stops agents meets each of them that is running. -/
def Reaches (s : AgentPool ρ) : PoolEvent ρ → Prop
  | .stopAgent i => (s.state i).IsRunning → i ∈ s.agents
  | .shutdown => ∀ i, (s.state i).IsRunning → i ∈ s.agents
  | _ => True

/-- A check that passes leaves room for the agents of all calls that have passed it and for those
that were taken out and still run, only finished agents are taken out, and no call stops an agent
between its start and its insertion. -/
def Undisturbed (s : AgentPool ρ) : PoolEvent ρ → Prop
  | .checkCapacity => s.agents.length < s.maxAgents →
      s.admitted + s.occupied.card < s.maxAgents
  | .takeHandle i => i ∈ s.agents → ¬ (s.state i).IsRunning
  | .stopAgent i => i ∈ s.inserting → ¬ (s.state i).IsRunning
  | .shutdown => ∀ i ∈ s.inserting, ¬ (s.state i).IsRunning
  | _ => True

instance (s : AgentPool ρ) : (e : PoolEvent ρ) → Decidable (Undisturbed s e)
  | .checkCapacity => inferInstanceAs (Decidable (s.agents.length < s.maxAgents →
      s.admitted + s.occupied.card < s.maxAgents))
  | .takeHandle i => inferInstanceAs (Decidable (i ∈ s.agents → ¬ (s.state i).IsRunning))
  | .stopAgent i => inferInstanceAs (Decidable (i ∈ s.inserting → ¬ (s.state i).IsRunning))
  | .shutdown => inferInstanceAs (Decidable (∀ i ∈ s.inserting, ¬ (s.state i).IsRunning))
  | .create | .insert _ | .finish _ _ | .joined _ | .listFinished | .collect _ | .query =>
    isTrue trivial

/-- Every handle that there is, and every result that was returned. -/
def AgentPool.handles (s : AgentPool ρ) : List ℕ :=
  s.inserting ++ (s.agents ++ (s.awaiting ++ s.delivered.map Prod.fst))

structure Held (s : AgentPool ρ) : Prop where
  room : s.admitted + s.occupied.card ≤ s.maxAgents
  reachable : ∀ i, (s.state i).IsRunning → i ∈ s.agents ∨ i ∈ s.inserting
  fresh : ∀ i, s.nextId ≤ i → s.state i = .absent
  handles : s.handles.Nodup
  known : ∀ i ∈ s.handles, i < s.nextId
  own : ∀ d ∈ s.delivered, s.state d.1 = .ended d.2

variable {s t : AgentPool ρ} {e : PoolEvent ρ} {i : ℕ}

@[simp] theorem mem_occupied : i ∈ s.occupied ↔ i < s.nextId ∧ s.Occupied i := by
  rw [AgentPool.occupied,Finset.mem_filter,Finset.mem_range]

theorem present_subset (s : AgentPool ρ) : s.present ⊆ s.occupied :=
  Finset.monotone_filter_right _ (fun _ _ => Or.inr)

theorem Held.managed (h : Held s) : Managed s where
  cap := by
    have hle := Finset.card_le_card (present_subset s)
    have hroom := h.room
    omega
  reachable := h.reachable
  once := by
    have hnodup := h.handles
    rw [AgentPool.handles,← List.append_assoc,← List.append_assoc] at hnodup
    exact hnodup.of_append_right
  own := h.own

theorem Held.reaches (h : Held s) (hu : Undisturbed s e) : Reaches s e := by
  cases e with
  | stopAgent i => exact fun hi => (h.reachable i hi).resolve_right (fun hmem => hu hmem hi)
  | shutdown => exact fun i hi => (h.reachable i hi).resolve_right (fun hmem => hu i hmem hi)
  | _ => trivial

theorem held_new (maxAgents : ℕ) : Held (.new maxAgents : AgentPool ρ) where
  room := Nat.zero_le maxAgents
  reachable i hi := hi.elim
  fresh _ _ := rfl
  handles := List.nodup_nil
  known i hi := by simp [AgentPool.new,AgentPool.handles] at hi
  own d hd := by simp [AgentPool.new] at hd

/-! ## Steps -/

theorem perm_move {l : List ℕ} (hi : i ∈ l) (m : List ℕ) :
    List.Perm (l.erase i ++ i :: m) (l ++ m) := by
  have hmiddle : List.Perm (l.erase i ++ i :: m) (i :: l.erase i ++ m) := List.perm_middle
  exact hmiddle.trans ((List.perm_cons_erase hi).symm.append_right m)

theorem occupied_card_le (hnext : t.nextId = s.nextId)
    (h : ∀ i, t.Occupied i → s.Occupied i) : t.occupied.card ≤ s.occupied.card := by
  refine Finset.card_le_card (fun i hi => ?_)
  rw [mem_occupied] at hi ⊢
  exact ⟨hnext ▸ hi.1,h i hi.2⟩

/-- A step that starts no agent and makes no handle. -/
theorem Held.shrink (h : Held s) (hmax : t.maxAgents = s.maxAgents) (hnext : t.nextId = s.nextId)
    (hadmitted : t.admitted = s.admitted) (hoccupied : ∀ i, t.Occupied i → s.Occupied i)
    (hreachable : ∀ i, (t.state i).IsRunning → i ∈ t.agents ∨ i ∈ t.inserting)
    (hfresh : ∀ i, s.state i = .absent → t.state i = .absent)
    (hhandles : List.Subperm t.handles s.handles)
    (hown : ∀ d ∈ t.delivered, t.state d.1 = .ended d.2) : Held t where
  room := by
    have hle := occupied_card_le hnext hoccupied
    have hroom := h.room
    omega
  reachable := hreachable
  fresh i hi := hfresh i (h.fresh i (hnext ▸ hi))
  handles := by
    obtain ⟨l,hperm,hsub⟩ := hhandles
    exact hperm.nodup (h.handles.sublist hsub)
  known i hi := hnext ▸ h.known i (hhandles.subset hi)
  own := hown

theorem Held.checkCapacity (h : Held s) (hu : Undisturbed s .checkCapacity) :
    Held s.checkCapacity := by
  rw [AgentPool.checkCapacity]
  split
  case isTrue => exact h
  case isFalse hfull =>
    have hlt := hu (not_le.mp hfull)
    refine ⟨?_,h.reachable,h.fresh,h.handles,h.known,h.own⟩
    rw [Nat.add_right_comm]
    exact hlt

theorem occupied_create (s : AgentPool ρ) : s.create.occupied ⊆ insert s.nextId s.occupied := by
  intro i hi
  rw [Finset.mem_insert,mem_occupied]
  obtain ⟨hlt,hi⟩ := mem_occupied.mp hi
  by_cases heq : i = s.nextId
  · exact .inl heq
  · simp only [AgentPool.Occupied,AgentPool.create,Function.update_of_ne heq,List.mem_cons,heq,
      false_or] at hi
    exact .inr ⟨lt_of_le_of_ne (Nat.le_of_lt_succ hlt) heq,hi⟩

theorem Held.create (h : Held s) (he : 0 < s.admitted) : Held s.create where
  room := by
    have hle : s.create.occupied.card ≤ s.occupied.card + 1 :=
      le_trans (Finset.card_le_card (occupied_create s)) (Finset.card_insert_le _ _)
    have hroom := h.room
    have hadmitted : s.create.admitted = s.admitted - 1 := rfl
    have hmax : s.create.maxAgents = s.maxAgents := rfl
    omega
  reachable i hi := by
    by_cases heq : i = s.nextId
    · exact .inr (heq ▸ List.mem_cons_self)
    · simp only [AgentPool.create,Function.update_of_ne heq] at hi
      exact (h.reachable i hi).imp_right (List.mem_cons_of_mem _)
  fresh i hi := by
    have hne : i ≠ s.nextId := Nat.ne_of_gt hi
    simp only [AgentPool.create,Function.update_of_ne hne]
    exact h.fresh i (Nat.le_of_succ_le hi)
  handles := List.nodup_cons.mpr ⟨fun hmem => lt_irrefl _ (h.known _ hmem),h.handles⟩
  known i hi := by
    rcases List.mem_cons.mp hi with rfl | hi
    · exact Nat.lt_succ_self s.nextId
    · exact Nat.lt_succ_of_lt (h.known i hi)
  own d hd := by
    have hmem : d.1 ∈ s.handles := by
      simp only [AgentPool.handles,List.mem_append]
      exact .inr (.inr (.inr (List.mem_map_of_mem hd)))
    have hne : d.1 ≠ s.nextId := Nat.ne_of_lt (h.known _ hmem)
    simp only [AgentPool.create,Function.update_of_ne hne]
    exact h.own d hd

theorem Held.insert (h : Held s) (hi : i ∈ s.inserting) : Held (s.insert i) := by
  refine h.shrink rfl rfl rfl ?_ ?_ (fun _ => id) (perm_move hi _).subperm h.own
  · rintro j (hj | hj | hj)
    · exact .inl (List.mem_of_mem_erase hj)
    · rcases List.mem_cons.mp hj with rfl | hj
      · exact .inl hi
      · exact .inr (.inl hj)
    · exact .inr (.inr hj)
  · intro j hj
    by_cases heq : j = i
    · exact .inl (heq ▸ List.mem_cons_self)
    · rcases h.reachable j hj with hj | hj
      · exact .inl (List.mem_cons_of_mem i hj)
      · exact .inr ((List.mem_erase_of_ne heq).mpr hj)

theorem Held.finish (h : Held s) (hi : (s.state i).Live) (result : ρ) :
    Held (s.finish i result) := by
  have hstate : ∀ j, j ≠ i → (s.finish i result).state j = s.state j :=
    fun j hj => Function.update_of_ne hj _ _
  have hend : (s.finish i result).state i = .ended result := Function.update_self _ _ _
  refine h.shrink rfl rfl rfl ?_ ?_ ?_ (List.Subperm.refl _) ?_
  · rintro j (hj | hj | hj)
    · exact .inl hj
    · exact .inr (.inl hj)
    · by_cases heq : j = i
      · exact .inr (.inr (heq ▸ hi))
      · exact .inr (.inr (hstate j heq ▸ hj))
  · intro j hj
    by_cases heq : j = i
    · rw [heq,hend] at hj
      exact hj.elim
    · exact h.reachable j (hstate j heq ▸ hj)
  · intro j hj
    have hne : j ≠ i := by
      rintro rfl
      rw [hj] at hi
      exact hi
    rw [hstate j hne,hj]
  · intro d hd
    have hne : d.1 ≠ i := by
      intro heq
      rw [← heq,h.own d hd] at hi
      exact hi
    rw [hstate d.1 hne]
    exact h.own d hd

theorem Held.stopAgent (h : Held s) (i : ℕ) : Held (s.stopAgent i) := by
  rw [AgentPool.stopAgent]
  split
  case isFalse => exact h
  case isTrue hi =>
    refine h.shrink rfl rfl rfl ?_ ?_ ?_ ?_ ?_
    · rintro j (hj | hj | hj)
      · exact .inl hj
      · exact .inr (.inl (List.mem_of_mem_erase hj))
      · by_cases heq : j = i
        · exact .inr (.inl (heq ▸ hi))
        · simp only [Function.update_of_ne heq] at hj
          exact .inr (.inr hj)
    · intro j hj
      by_cases heq : j = i
      · subst heq
        simp only [Function.update_self] at hj
        exact (TaskState.not_isRunning_abort hj).elim
      · simp only [Function.update_of_ne heq] at hj
        exact (h.reachable j hj).imp_left (List.mem_erase_of_ne heq).mpr
    · intro j hj
      by_cases heq : j = i
      · subst heq
        simp only [Function.update_self,hj,TaskState.abort]
      · simp only [Function.update_of_ne heq,hj]
    · exact ((List.erase_sublist.append_right _).append_left _).subperm
    · intro d hd
      have hown := h.own d hd
      by_cases heq : d.1 = i
      · simp only [← heq,Function.update_self,hown,TaskState.abort]
      · simp only [Function.update_of_ne heq,hown]

/-- The handle of an agent that does not run is taken out, and is kept or has its result returned. -/
theorem Held.remove (h : Held s) (hi : ¬ (s.state i).IsRunning) {awaiting : List ℕ}
    {delivered : List (ℕ × ρ)}
    (hhandles : List.Perm (s.agents.erase i ++ (awaiting ++ delivered.map Prod.fst))
      (s.agents ++ (s.awaiting ++ s.delivered.map Prod.fst)))
    (hown : ∀ d ∈ delivered, s.state d.1 = .ended d.2) :
    Held { s with
      agents := s.agents.erase i
      awaiting := awaiting
      delivered := delivered } := by
  refine h.shrink rfl rfl rfl ?_ ?_ (fun _ => id) (hhandles.append_left s.inserting).subperm hown
  · rintro j (hj | hj | hj)
    · exact .inl hj
    · exact .inr (.inl (List.mem_of_mem_erase hj))
    · exact .inr (.inr hj)
  · intro j hj
    have hne : j ≠ i := by
      rintro rfl
      exact hi hj
    exact (h.reachable j hj).imp_left (List.mem_erase_of_ne hne).mpr

theorem own_cons {result : ρ} {delivered : List (ℕ × ρ)}
    (hown : ∀ d ∈ delivered, s.state d.1 = .ended d.2) (hend : s.state i = .ended result) :
    ∀ d ∈ (i,result) :: delivered, s.state d.1 = .ended d.2 := by
  intro d hd
  rcases List.mem_cons.mp hd with rfl | hd
  · exact hend
  · exact hown d hd

/-- Only a finished agent is taken out. -/
theorem Held.takeHandle (h : Held s) (hu : Undisturbed s (.takeHandle i)) :
    Held (s.takeHandle i) := by
  rw [AgentPool.takeHandle]
  split
  case isFalse => exact h
  case isTrue hi => exact h.remove (hu hi) (perm_move hi _) h.own

theorem Held.joined (h : Held s) (hi : i ∈ s.awaiting) : Held (s.joined i) := by
  rw [AgentPool.joined]
  split
  case h_2 => exact h
  case h_1 result hend =>
    refine h.shrink rfl rfl rfl (fun _ => id) h.reachable (fun _ => id) ?_ (own_cons h.own hend)
    exact (((perm_move hi _).append_left s.agents).append_left s.inserting).subperm

theorem Held.collectOne (h : Held s) (i : ℕ) : Held (s.collectOne i) := by
  rw [AgentPool.collectOne]
  split
  case isFalse => exact h
  case isTrue hi =>
    split
    case h_2 => exact h
    case h_1 result hend =>
      have hmiddle : List.Perm (s.awaiting ++ i :: s.delivered.map Prod.fst)
          (i :: (s.awaiting ++ s.delivered.map Prod.fst)) := List.perm_middle
      have hmove := (hmiddle.append_left (s.agents.erase i)).trans (perm_move hi _)
      have hnot : ¬ (s.state i).IsRunning := by
        rw [hend]
        exact id
      exact h.remove hnot hmove (own_cons h.own hend)

theorem Held.foldl {f : AgentPool ρ → ℕ → AgentPool ρ} (hf : ∀ {s}, Held s → ∀ i, Held (f s i))
    (h : Held s) (ids : List ℕ) : Held (ids.foldl f s) := by
  induction ids generalizing s with
  | nil => exact h
  | cons i ids ih => exact ih (hf h i)

theorem Held.next (h : Held s) (he : agentPool.enabled s e) (hu : Undisturbed s e) :
    Held (agentPool.next s e) := by
  have hcleanups : ∀ cleanups, Held { s with cleanups := cleanups } :=
    fun _ => ⟨h.room,h.reachable,h.fresh,h.handles,h.known,h.own⟩
  cases e with
  | checkCapacity => exact h.checkCapacity hu
  | create => exact h.create he
  | insert i => exact h.insert he
  | finish i result => exact h.finish he result
  | stopAgent i => exact h.stopAgent i
  | takeHandle i => exact h.takeHandle hu
  | joined i => exact h.joined he.1
  | listFinished => exact hcleanups _
  | collect ids => exact (hcleanups _).foldl Held.collectOne ids
  | shutdown => exact h.foldl Held.stopAgent s.agents
  | query => exact h

/-! ## Runs -/

/-- In every run with whatever cap the pool keeps to its size and every call that stops agents
reaches them, as long as no step comes between the sections of a call where it matters. -/
theorem run_managed {maxAgents : ℕ} {es : List (PoolEvent ρ)}
    (hr : agentPool.Run (.new maxAgents) es)
    (hu : ∀ p ∈ agentPool.trail (.new maxAgents) es, Undisturbed p.1 p.2) :
    Managed (agentPool.exec (.new maxAgents) es) ∧
      ∀ p ∈ agentPool.trail (.new maxAgents) es, Reaches p.1 p.2 := by
  have hstep : ∀ (s : AgentPool ρ) (e : PoolEvent ρ), Held s → agentPool.enabled s e →
      Undisturbed s e → Held (agentPool.next s e) := fun _ _ h he hu => h.next he hu
  refine ⟨(hr.invariant_of hstep (held_new maxAgents) hu).managed,fun p hp => ?_⟩
  exact (hr.mem_trail_of hstep (held_new maxAgents) hu hp).1.reaches (hu p hp)

/-- One agent ends and is awaited, one is cleaned up, one stopped and one shut down. -/
def managedRun : List (PoolEvent String) :=
  [.checkCapacity, .create, .insert 0, .checkCapacity, .create, .insert 1, .checkCapacity,
    .finish 0 "done", .takeHandle 0, .joined 0, .query, .finish 1 "failed", .listFinished,
    .collect [1], .checkCapacity, .create, .insert 2, .stopAgent 2, .finish 2 "cancelled",
    .checkCapacity, .create, .insert 3, .shutdown]

theorem managedRun_managed :
    Managed (agentPool.exec (.new 2) managedRun) ∧
      ∀ p ∈ agentPool.trail (.new 2) managedRun, Reaches p.1 p.2 :=
  run_managed (by decide +kernel) (by decide +kernel)

/-- Both calls see an empty pool with one place. -/
def crowdedRun : List (PoolEvent String) :=
  [.checkCapacity, .checkCapacity, .create, .create, .insert 0, .insert 1]

theorem crowdedRun_exceeds : ¬ ∀ (maxAgents : ℕ) (es : List (PoolEvent String)),
    agentPool.Run (.new maxAgents) es → Managed (agentPool.exec (.new maxAgents) es) ∧
      ∀ p ∈ agentPool.trail (.new maxAgents) es, Reaches p.1 p.2 := by
  intro h
  have hcap := (h 1 crowdedRun (by decide +kernel)).1.cap
  exact absurd hcap (by decide +kernel)

/-- An agent that is being awaited cannot be stopped, and its place is given to another one. -/
def awaitedRun : List (PoolEvent String) :=
  [.checkCapacity, .create, .insert 0, .takeHandle 0, .stopAgent 0, .checkCapacity, .create,
    .insert 1]

example : ((agentPool.exec (.new 1) awaitedRun).present.card,
    (agentPool.exec (.new 1) awaitedRun).agents) = (2,[1]) := by decide +kernel

end Rullama.Agents
