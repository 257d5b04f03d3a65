import Mathlib.Algebra.GroupWithZero.Nat
import Mathlib.Data.List.Range
import Rullama.Agent.MessageQueue
import Rullama.Transition.Machine

/-! # Order of the message queue

Messages are pushed, put back with one more retry, and taken out one by one or all at once. The
queue is ordered by priority and, within one priority, by insertion; nothing that was inserted is
delivered twice or lost.
-/
namespace Rullama.Agent
open Transition

/-! ## Insertion -/

/-- An element that goes in front of the first one it precedes keeps a list in order. -/
theorem pairwise_insertIdx_findIdx {α : Type*} {R : α → α → Prop} {p : α → Bool} {x : α}
    {l : List α} (hl : l.Pairwise R) (hbefore : ∀ a ∈ l, p a = false → R a x)
    (hafter : ∀ a ∈ l, p a = true → R x a)
    (hmono : ∀ a ∈ l, ∀ b ∈ l, p a = true → R a b → p b = true) :
    (l.insertIdx (l.findIdx p) x).Pairwise R := by
  induction l with
  | nil => exact List.pairwise_singleton R x
  | cons a l ih =>
    obtain ⟨ha,hl⟩ := List.pairwise_cons.mp hl
    cases hp : p a with
    | true =>
      rw [List.findIdx_cons,hp]
      refine List.pairwise_cons.mpr ⟨?_,List.pairwise_cons.mpr ⟨ha,hl⟩⟩
      intro b hb
      rcases List.mem_cons.mp hb with rfl | hb'
      · exact hafter _ List.mem_cons_self hp
      · exact hafter b hb (hmono a List.mem_cons_self b hb hp (ha b hb'))
    | false =>
      rw [List.findIdx_cons,hp]
      have hrest := ih hl (fun b hb => hbefore b (List.mem_cons_of_mem _ hb))
        (fun b hb => hafter b (List.mem_cons_of_mem _ hb))
        (fun b hb c hc => hmono b (List.mem_cons_of_mem _ hb) c (List.mem_cons_of_mem _ hc))
      refine List.pairwise_cons.mpr ⟨?_,hrest⟩
      intro b hb
      rcases List.eq_or_mem_of_mem_insertIdx hb with rfl | hb
      · exact hbefore a List.mem_cons_self hp
      · exact ha b hb

/-! ## Runs -/

/-- A message with the number of its insertion. -/
abbrev Numbered := ℕ × QueuedMessage

/-- Of higher priority, or of the same one and inserted earlier. -/
def Precedes (a b : Numbered) : Prop :=
  b.2.priority.value < a.2.priority.value ∨
    b.2.priority.value = a.2.priority.value ∧ a.1 < b.1

/-- The queue in a run. All but the queue itself is ghost state. -/
structure QueueRun where
  queue : MessageQueue
  waiting : List Numbered := []
  inserted : List Numbered := []
  delivered : List Numbered := []
  cleared : List Numbered := []

inductive QueueOp where
  | push (m : QueuedMessage)
  | requeue (m : QueuedMessage)
  | pop
  | drain
  | clear

namespace QueueRun
variable (s : QueueRun)

/-- What an insertion of `m` that leads to the queue `q` leaves behind. -/
def insert (m : QueuedMessage) (q : MessageQueue) : QueueRun :=
  let new := (s.inserted.length,m)
  { s with
    queue := q
    waiting := s.waiting.insertIdx (s.queue.findInsertPosition m) new
    inserted := s.inserted ++ [new] }

def push (m : QueuedMessage) : QueueRun :=
  match s.queue.push m with
  | .error _ => s
  | .ok q => s.insert m q

def requeue (m : QueuedMessage) : QueueRun :=
  match s.queue.requeue m with
  | .error _ => s
  | .ok q => if m.incrementRetry.retriesExhausted then s else s.insert m.incrementRetry q

def next : QueueOp → QueueRun
  | .push m => s.push m
  | .requeue m => s.requeue m
  | .pop => { s with
      queue := s.queue.pop.2
      waiting := s.waiting.tail
      delivered := s.delivered ++ s.waiting.head?.toList }
  | .drain => { s with
      queue := s.queue.drain.2
      waiting := []
      delivered := s.delivered ++ s.waiting }
  | .clear => { s with
      queue := s.queue.clear
      waiting := []
      cleared := s.cleared ++ s.waiting }

end QueueRun

/-- The counters of a message have 32 bits. -/
def QueueOp.Typed : QueueOp → Prop
  | .push m | .requeue m => m.retryCount < 2 ^ 32 ∧ m.maxRetries < 2 ^ 32
  | _ => True

instance : (op : QueueOp) → Decidable op.Typed
  | .push _ | .requeue _ => inferInstanceAs (Decidable (_ ∧ _))
  | .pop | .drain | .clear => isTrue trivial

def queueRuns : Machine QueueRun QueueOp where
  enabled _ op := op.Typed
  next := QueueRun.next

instance (s : QueueRun) (op : QueueOp) : Decidable (queueRuns.enabled s op) :=
  inferInstanceAs (Decidable op.Typed)

def QueueRun.start (maxSize : ℕ) : QueueRun := { queue := { maxSize := maxSize } }

/-! ## What holds in every state -/

structure QueueRun.Orderly (s : QueueRun) : Prop where
  held : s.queue.queue = s.waiting.map Prod.snd
  sorted : s.waiting.Pairwise Precedes
  fits : s.queue.queue.length ≤ s.queue.maxSize
  numbered : s.inserted.map Prod.fst = List.range s.inserted.length
  conserved : (s.waiting ++ (s.delivered ++ s.cleared)).Perm s.inserted

namespace QueueRun
variable {s : QueueRun}

theorem start_orderly (maxSize : ℕ) : (start maxSize).Orderly where
  held := rfl
  sorted := List.Pairwise.nil
  fits := Nat.zero_le _
  numbered := rfl
  conserved := List.Perm.refl _

theorem Orderly.number_lt (h : s.Orderly) {a : Numbered} (ha : a ∈ s.waiting) :
    a.1 < s.inserted.length := by
  have hmem : a.1 ∈ s.inserted.map Prod.fst :=
    List.mem_map_of_mem (h.conserved.subset (List.mem_append_left _ ha))
  rwa [h.numbered,List.mem_range] at hmem

theorem push_ok {q r : MessageQueue} {m : QueuedMessage} (h : q.push m = .ok r) :
    q.queue.length < q.maxSize ∧
      r = { q with queue := q.queue.insertIdx (q.findInsertPosition m) m } := by
  unfold MessageQueue.push at h
  split at h
  · cases h
  · rename_i hroom
    cases h
    exact ⟨not_le.mp hroom,rfl⟩

theorem Orderly.insert (h : s.Orderly) {m : QueuedMessage} {q : MessageQueue}
    (hpush : s.queue.push m = .ok q) : (s.insert m q).Orderly := by
  obtain ⟨hroom,rfl⟩ := push_ok hpush
  have hposition : s.queue.findInsertPosition m =
      s.waiting.findIdx (fun e => m.priority.value > e.2.priority.value) := by
    rw [MessageQueue.findInsertPosition,h.held,List.findIdx_map]
    rfl
  have hle : s.queue.findInsertPosition m ≤ s.waiting.length := by
    rw [hposition]
    exact List.findIdx_le_length
  refine ⟨?_,?_,?_,?_,?_⟩
  · change s.queue.queue.insertIdx _ m = _
    rw [h.held,QueueRun.insert,List.map_insertIdx]
  · rw [QueueRun.insert,hposition]
    refine pairwise_insertIdx_findIdx h.sorted ?_ ?_ ?_
    · intro a ha hp
      have hnot : ¬ a.2.priority.value < m.priority.value := by simpa using hp
      rcases Nat.lt_or_eq_of_le (not_lt.mp hnot) with hlt | heq
      · exact .inl hlt
      · exact .inr ⟨heq,h.number_lt ha⟩
    · intro a _ hp
      exact .inl (by simpa using hp)
    · intro a _ b _ hp hab
      have hlt : a.2.priority.value < m.priority.value := by simpa using hp
      rcases hab with hab | ⟨hab,-⟩
      · simpa using hab.trans hlt
      · simpa [hab] using hlt
  · change (s.queue.queue.insertIdx _ m).length ≤ s.queue.maxSize
    rw [List.length_insertIdx_of_le_length]
    · exact hroom
    · rw [h.held,List.length_map]
      exact hle
  · simp only [QueueRun.insert,List.map_append,h.numbered,List.length_append,List.map_singleton,
      List.length_singleton,List.range_succ]
  · have hperm := List.perm_insertIdx (s.inserted.length,m) s.waiting hle
    refine (hperm.append_right _).trans ?_
    rw [List.cons_append]
    refine (h.conserved.cons _).trans ?_
    exact (List.perm_append_singleton _ _).symm

/-- Messages that leave at the front are delivered or cleared. -/
theorem Orderly.leave (h : s.Orderly) {taken kept delivered cleared : List Numbered}
    (hw : s.waiting = taken ++ kept)
    (hp : (delivered ++ cleared).Perm (taken ++ (s.delivered ++ s.cleared))) :
    (⟨{ s.queue with queue := kept.map Prod.snd },kept,s.inserted,delivered,cleared⟩ :
      QueueRun).Orderly := by
  have hkept : kept.Sublist s.waiting := by
    rw [hw]
    exact List.sublist_append_right _ _
  refine ⟨rfl,h.sorted.sublist hkept,?_,h.numbered,?_⟩
  · have hle := hkept.length_le
    have hfits := h.fits
    rw [h.held,List.length_map] at hfits
    rw [List.length_map]
    exact hle.trans hfits
  · refine (hp.append_left kept).trans ?_
    rw [← List.append_assoc]
    refine (List.perm_append_comm.append_right _).trans ?_
    rw [← hw]
    exact h.conserved

theorem Orderly.pop_queue (h : s.Orderly) : s.queue.pop.2 =
    { s.queue with queue := s.waiting.tail.map Prod.snd } := by
  rw [MessageQueue.pop,h.held,List.map_tail]

theorem Orderly.next (h : s.Orderly) (op : QueueOp) : (s.next op).Orderly := by
  cases op with
  | push m =>
    rw [QueueRun.next,push]
    split
    · exact h
    · rename_i hpush
      exact h.insert hpush
  | requeue m =>
    rw [QueueRun.next,requeue]
    split
    · exact h
    · rename_i hq
      split
      · exact h
      · rename_i hleft
        simp only [MessageQueue.requeue,hleft] at hq
        exact h.insert hq
  | pop =>
    have hsplit : s.waiting = s.waiting.head?.toList ++ s.waiting.tail := by
      cases s.waiting <;> rfl
    rw [QueueRun.next,h.pop_queue]
    refine h.leave hsplit ?_
    rw [List.append_assoc]
    exact List.perm_append_comm_assoc _ _ _
  | drain =>
    refine h.leave (List.append_nil _).symm ?_
    rw [List.append_assoc]
    exact List.perm_append_comm_assoc _ _ _
  | clear =>
    refine h.leave (List.append_nil _).symm ?_
    rw [← List.append_assoc]
    exact List.perm_append_comm

/-! ## What each operation does -/

/-- `requeue` takes the message and inserts nothing. -/
def Discards (s : QueueRun) (m : QueuedMessage) : Prop := s.queue.requeue m = .ok s.queue

/-- Pushing fails on a full queue only; a message with no retry left is discarded, any other one
pushed with one more; the message that `pop` returns is the first of its priority, and none
waits at a higher one; `drain` returns all messages in order. -/
def Treats (s : QueueRun) : QueueOp → Prop
  | .push m => (∃ text, s.queue.push m = .error text) ↔
      s.queue.maxSize ≤ s.queue.queue.length
  | .requeue m => (s.Discards m ↔ m.maxRetries < m.retryCount + 1) ∧
      (¬ s.Discards m →
        s.queue.requeue m = s.queue.push { m with retryCount := m.retryCount + 1 })
  | .pop => (s.queue.pop.1 = none ↔ s.waiting = []) ∧ ∀ m, s.queue.pop.1 = some m →
      ∃ n, s.waiting = (n,m) :: (s.next .pop).waiting ∧ ∀ b ∈ (s.next .pop).waiting, Precedes (n,m) b
  | .drain => s.queue.drain.1 = s.waiting.map Prod.snd
  | .clear => s.queue.clear.queue = []

/-- The counter of a message that is put back has not reached the limit of its 32 bits. -/
def Counts : QueueOp → Prop
  | .requeue m => m.retryCount ≠ 2 ^ 32 - 1
  | _ => True

instance : (op : QueueOp) → Decidable (Counts op)
  | .requeue _ => inferInstanceAs (Decidable (_ ≠ _))
  | .push _ | .pop | .drain | .clear => isTrue trivial

theorem discards_iff (m : QueuedMessage) :
    s.Discards m ↔ m.incrementRetry.retriesExhausted = true := by
  rw [Discards,MessageQueue.requeue]
  cases m.incrementRetry.retriesExhausted with
  | true => simp
  | false =>
    refine iff_of_false (fun hpush => ?_) nofun
    have hlen := congrArg (fun q => q.queue.length) (push_ok hpush).2
    simp only [MessageQueue.findInsertPosition] at hlen
    rw [List.length_insertIdx_of_le_length] at hlen
    · omega
    · exact List.findIdx_le_length

theorem treats_requeue_iff {m : QueuedMessage} (hm : (QueueOp.requeue m).Typed) :
    s.Treats (.requeue m) ↔ Counts (.requeue m) := by
  obtain ⟨hcount,hmax⟩ := hm
  have hexhausted : m.incrementRetry.retriesExhausted = true ↔
      m.maxRetries < (m.retryCount + 1) % 2 ^ 32 := by
    simp [QueuedMessage.retriesExhausted]
  rw [Treats,discards_iff,hexhausted,Counts]
  constructor
  · rintro ⟨hiff,-⟩ heq
    rw [heq] at hiff
    simp only [Nat.reducePow,Nat.reduceSub,Nat.reduceAdd,Nat.mod_self,Nat.not_lt_zero,
      false_iff,not_lt] at hiff
    omega
  · intro hne
    have hmod : (m.retryCount + 1) % 2 ^ 32 = m.retryCount + 1 := Nat.mod_eq_of_lt (by omega)
    rw [hmod]
    refine ⟨Iff.rfl,fun hleft => ?_⟩
    have hinc : m.incrementRetry = { m with retryCount := m.retryCount + 1 } := by
      rw [QueuedMessage.incrementRetry,hmod]
    have hnot : m.incrementRetry.retriesExhausted = false := by
      rw [← Bool.not_eq_true,hexhausted,hmod]
      exact hleft
    simp only [MessageQueue.requeue,hnot,Bool.false_eq_true,if_false]
    rw [hinc]

theorem Orderly.treats_pop (h : s.Orderly) : s.Treats .pop := by
  have hpop : s.queue.pop.1 = (s.waiting.head?).map Prod.snd := by
    rw [MessageQueue.pop,h.held,List.head?_map]
  rw [Treats,hpop]
  cases hw : s.waiting with
  | nil => exact ⟨Iff.intro (fun _ => rfl) (fun _ => rfl),fun m hm => by cases hm⟩
  | cons a rest =>
    refine ⟨iff_of_false (Option.some_ne_none a.2) (List.cons_ne_nil a rest),fun m hm => ?_⟩
    obtain rfl : a.2 = m := Option.some.inj hm
    have hrest : (s.next .pop).waiting = rest := by
      rw [QueueRun.next,hw]
      rfl
    have hsorted := h.sorted
    rw [hw] at hsorted
    rw [hrest]
    exact ⟨a.1,rfl,(List.pairwise_cons.mp hsorted).1⟩

theorem Orderly.treats_iff (h : s.Orderly) {op : QueueOp} (hop : op.Typed) :
    s.Treats op ↔ Counts op := by
  cases op with
  | push m => exact iff_of_true MessageQueue.push_error_iff trivial
  | requeue m => exact treats_requeue_iff hop
  | pop => exact iff_of_true h.treats_pop trivial
  | drain => exact iff_of_true h.held trivial
  | clear => exact iff_of_true rfl trivial

/-! ## Runs -/

/-- In every state the queue is in order and every message accounted for, and every operation
does what it is to do. -/
def Delivers (maxSize : ℕ) (ops : List QueueOp) : Prop :=
  ∀ p ∈ queueRuns.trail (start maxSize) ops,
    p.1.Orderly ∧ p.1.Treats p.2 ∧ (p.1.next p.2).Orderly

/-- The queue delivers exactly if no message is put back with its counter at the limit. -/
theorem delivers_iff (maxSize : ℕ) {ops : List QueueOp}
    (hr : queueRuns.Run (start maxSize) ops) :
    Delivers maxSize ops ↔ ∀ p ∈ queueRuns.trail (start maxSize) ops, Counts p.2 := by
  refine hr.forall_iff (G := Orderly) (C := fun _ op => Counts op)
    (P := fun s op => s.Orderly ∧ s.Treats op ∧ (s.next op).Orderly) ?_ ?_ (start_orderly maxSize)
  · exact fun s op h _ _ => h.next op
  · intro s op h hop
    rw [and_iff_right h,and_iff_left (h.next op)]
    exact h.treats_iff hop

/-- A message of low priority that was pushed `retries` times before. -/
def tried (retries : ℕ) : QueuedMessage := ⟨0,"report",.low,retries,3⟩

def someOps (retries : ℕ) : List QueueOp :=
  [.push (tried retries),.push { tried 0 with id := 1, priority := .system },.pop,.pop,
    .requeue (tried retries),.drain,.requeue (tried 3),.clear]

theorem someOps_delivers : Delivers 2 (someOps 1) :=
  (delivers_iff 2 (by decide +kernel)).mpr (by decide +kernel)

/-- A message whose counter is at its limit is put back as if it had never been tried. -/
theorem limit_not_delivers :
    queueRuns.Run (start 2) (someOps (2 ^ 32 - 1)) ∧ ¬ Delivers 2 (someOps (2 ^ 32 - 1)) := by
  refine ⟨by decide +kernel,fun h => ?_⟩
  have hmem : ∃ p ∈ queueRuns.trail (start 2) (someOps (2 ^ 32 - 1)),
      p.2 = .requeue (tried (2 ^ 32 - 1)) := ⟨_,.tail _ (.tail _ (.tail _ (.tail _ (.head _)))),rfl⟩
  obtain ⟨⟨s,op⟩,hp,rfl⟩ := hmem
  have htreats := (h _ hp).2.1.1
  rw [discards_iff] at htreats
  revert htreats
  decide +kernel

end QueueRun
end Rullama.Agent
