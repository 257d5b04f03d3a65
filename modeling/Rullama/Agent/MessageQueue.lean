import Mathlib.Algebra.GroupWithZero.Nat
import Mathlib.Data.List.InsertIdx
import Mathlib.Data.List.Perm.Basic
import Mathlib.Tactic.Common

/-! # Message queue

The queue that `MessageQueue::default` makes: in memory, ordered by priority, first in
first out within one. A message that is taken out again after a failure counts its retries,
and is dropped when they are used up.
-/
namespace Rullama.Agent

inductive MessagePriority where
  | low
  | normal
  | high
  | system
deriving DecidableEq

/-- `priority_value` -/
def MessagePriority.value : MessagePriority → ℕ
  | .system => 3
  | .high => 2
  | .normal => 1
  | .low => 0

structure QueuedMessage where
  id : ℕ
  content : String
  priority : MessagePriority
  retryCount : ℕ
  maxRetries : ℕ
deriving DecidableEq

namespace QueuedMessage

def new (id : ℕ) (content : String) : QueuedMessage := ⟨id,content,.normal,0,3⟩

/-- The counter has 32 bits and wraps around. -/
def incrementRetry (m : QueuedMessage) : QueuedMessage :=
  { m with retryCount := (m.retryCount + 1) % 2 ^ 32 }

def retriesExhausted (m : QueuedMessage) : Bool := m.retryCount > m.maxRetries

@[simp] theorem incrementRetry_retryCount (m : QueuedMessage) :
    m.incrementRetry.retryCount = (m.retryCount + 1) % 2 ^ 32 := rfl
@[simp] theorem incrementRetry_maxRetries (m : QueuedMessage) :
    m.incrementRetry.maxRetries = m.maxRetries := rfl

end QueuedMessage

structure MessageQueue where
  queue : List QueuedMessage := []
  maxSize : ℕ := 1000
deriving DecidableEq

namespace MessageQueue
variable (q : MessageQueue) (m : QueuedMessage)

def findInsertPosition : ℕ :=
  q.queue.findIdx (fun existing => m.priority.value > existing.priority.value)

def push : Except String MessageQueue :=
  if q.queue.length ≥ q.maxSize then .error s!"Message queue is full (max {q.maxSize})"
  else .ok { q with queue := q.queue.insertIdx (q.findInsertPosition m) m }

def pop : Option QueuedMessage × MessageQueue :=
  (q.queue.head?,{ q with queue := q.queue.tail })

def requeue : Except String MessageQueue :=
  let message := m.incrementRetry
  if message.retriesExhausted then .ok q else q.push message

def clear : MessageQueue := { q with queue := [] }

def drain : List QueuedMessage × MessageQueue := (q.queue,{ q with queue := [] })

/-- The queue after `requeue`, whose error the caller only logs. -/
def requeued : MessageQueue :=
  match q.requeue m with
  | .ok r => r
  | .error _ => q

variable {q m}

theorem push_perm {r : MessageQueue} (h : q.push m = .ok r) : r.queue.Perm (m :: q.queue) := by
  unfold push at h
  split at h
  · cases h
  · cases h
    exact List.perm_insertIdx m q.queue List.findIdx_le_length

theorem push_error_iff : (∃ text, q.push m = .error text) ↔ q.maxSize ≤ q.queue.length := by
  unfold push
  split
  · next h => exact iff_of_true ⟨_,rfl⟩ h
  · next h => exact iff_of_false (by simp) h

/-- A failed message comes back with one more retry, or is gone: its retries were used up
or the queue is full. -/
theorem requeued_cases : (q.requeued m).queue = q.queue ∨
    m.incrementRetry.retryCount ≤ m.maxRetries ∧
      (q.requeued m).queue.Perm (m.incrementRetry :: q.queue) := by
  unfold requeued requeue
  by_cases hretries : m.incrementRetry.retriesExhausted
  · left
    simp [hretries]
  · simp only [hretries,Bool.false_eq_true,↓reduceIte]
    have hlt : m.incrementRetry.retryCount ≤ m.maxRetries := by
      simpa [QueuedMessage.retriesExhausted] using hretries
    cases hpush : q.push m.incrementRetry with
    | ok r => exact .inr ⟨hlt,push_perm hpush⟩
    | error text => exact .inl rfl

theorem pop_cons {rest : List QueuedMessage} (h : q.queue = m :: rest) :
    q.pop = (some m,{ q with queue := rest }) := by
  simp [pop,h]

theorem pop_nil (h : q.queue = []) : q.pop = (none,q) := by
  cases q
  simp_all [pop]

end MessageQueue
end Rullama.Agent
