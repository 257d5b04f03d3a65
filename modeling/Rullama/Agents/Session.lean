import Mathlib.Algebra.Order.Floor.Ring
import Mathlib.Data.Rat.Floor
import Mathlib.Logic.Function.Basic
import Rullama.Agents.TaskAgent

/-! # A session of task agents

Task agents that share the file locks and a budget, their steps in any order. The lock manager is
external: it gives a lock on a path string to any number of readers, or to one writer.
-/
namespace Rullama.Agents
open Tools (LockType)
open Transition (Machine)

/-! ## The budget -/

inductive BudgetError where
  | tokensExceeded (used limit : ℕ)
  | costExceeded (usedUsd limitUsd : ℚ)
  | agentsExceeded (spawned limit : ℕ)
deriving DecidableEq

/-- Amounts of money are rationals here. -/
structure SessionBudget where
  maxTotalTokens : Option ℕ := none
  maxTotalCostUsd : Option ℚ := none
  maxAgents : Option ℕ := none
  tokensUsed : ℕ := 0
  costUsedMicrocents : ℕ := 0
  agentsSpawned : ℕ := 0

namespace SessionBudget

variable (b : SessionBudget)

def costUsedUsd : ℚ := b.costUsedMicrocents / 1000000

/-- `none` where spawning is allowed. Nothing calls it. -/
def checkBeforeSpawn : Option BudgetError :=
  let agents := b.maxAgents.bind (fun limit =>
    if limit ≤ b.agentsSpawned then some (.agentsExceeded b.agentsSpawned limit) else none)
  let tokens := b.maxTotalTokens.bind (fun limit =>
    if limit ≤ b.tokensUsed then some (.tokensExceeded b.tokensUsed limit) else none)
  let cost := b.maxTotalCostUsd.bind (fun limitUsd =>
    if limitUsd ≤ b.costUsedUsd then some (.costExceeded b.costUsedUsd limitUsd) else none)
  (agents.or tokens).or cost

/-- The counters have 64 bits and wrap around; the cast to microcents saturates. -/
def recordRun (tokens : ℕ) (costUsd : ℚ) : SessionBudget :=
  { b with
    tokensUsed := (b.tokensUsed + tokens) % 2 ^ 64
    costUsedMicrocents :=
      (b.costUsedMicrocents + min ⌊costUsd * 1000000⌋.toNat (2 ^ 64 - 1)) % 2 ^ 64 }

def incrementAgentCount : SessionBudget :=
  { b with agentsSpawned := (b.agentsSpawned + 1) % 2 ^ 32 }

/-- `none` where the limits are kept. -/
def checkLimits : Option BudgetError :=
  let tokens := b.maxTotalTokens.bind (fun limit =>
    if limit < b.tokensUsed then some (.tokensExceeded b.tokensUsed limit) else none)
  let cost := b.maxTotalCostUsd.bind (fun limitUsd =>
    if limitUsd < b.costUsedUsd then some (.costExceeded b.costUsedUsd limitUsd) else none)
  tokens.or cost

end SessionBudget

/-! ## The session -/

structure Session (ι : Type*) where
  agents : ι → TaskAgent
  budget : SessionBudget

/-- Two locks that the manager gives out at once. -/
def Compatible (l l' : Option (String × LockType)) : Prop :=
  match l,l' with
  | some (path,lockType),some (path',lockType') => path = path' → lockType = .read ∧ lockType' = .read
  | _,_ => True

variable {ι : Type*} [DecidableEq ι]

namespace Session

variable (s : Session ι)

/-- The lock manager and the budget decide what an agent meets; the other answers are free. -/
def answers (i : ι) : Event → Prop
  | .lock (.ok _) =>
    match (s.agents i).phase with
    | .locking _ path lockType _ =>
      ∀ j, j ≠ i → Compatible (some (path,lockType)) (s.agents j).lock
    | _ => True
  | .check error => error.isSome = s.budget.checkLimits.isSome
  | _ => True

/-- Only the start of an agent and the record of its call change the budget: the call is recorded
with a cost of zero. -/
def charged (i : ι) : Event → SessionBudget
  | .start registers _ =>
    match (s.agents i).registered,registers with
    | false,.error _ => s.budget
    | _,_ => if (s.agents i).config.sessionBudget then s.budget.incrementAgentCount else s.budget
  | .record =>
    match (s.agents i).phase with
    | .recording response => s.budget.recordRun response.totalTokens 0
    | _ => s.budget
  | _ => s.budget

end Session

/-- An event is a step of one agent. -/
def sessions : Machine (Session ι) (ι × Event) where
  enabled s e := machine.enabled (s.agents e.1) e.2 ∧ s.answers e.1 e.2
  next s e :=
    { agents := Function.update s.agents e.1 (machine.next (s.agents e.1) e.2)
      budget := s.charged e.1 e.2 }

/-- No agent has started. -/
def Session.Fresh (s : Session ι) : Prop :=
  ∀ i, (s.agents i).phase = .idle ∧ (s.agents i).lock = none ∧ (s.agents i).totalTokensUsed = 0

variable {s : Session ι} {e : ι × Event}

theorem agents_next_self : (sessions.next s e).agents e.1 = machine.next (s.agents e.1) e.2 :=
  Function.update_self _ _ _

theorem agents_next_of_ne {i : ι} (h : i ≠ e.1) : (sessions.next s e).agents i = s.agents i :=
  Function.update_of_ne h _ _

end Rullama.Agents
