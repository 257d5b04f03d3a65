import Rullama.Agent.MessageQueue
import Rullama.Text.Utf8

/-! # Failures of a persisted queue

A queue with a file is saved after every change, and each of the three steps of a save may fail. The
change is in memory by then.
-/
namespace Rullama.Agent
open Text (byteLength splitBytes Boundary boundary_iff)

/-- How the steps of a save end: making the directory, serializing the queue, writing the file. -/
structure SaveOutcome where
  createDirAll : Except String Unit := .ok ()
  toStringPretty : Except String Unit := .ok ()
  write : Except String Unit := .ok ()

/-- The path of the file by its components; the one of no component has no parent. -/
structure PersistedQueue extends MessageQueue where
  persistPath : Option (List String)
deriving DecidableEq

/-- `Context::context`: what is displayed is the context. -/
def withContext (context : String) (r : Except String Unit) : Except String Unit :=
  r.mapError (fun _ => context)

namespace PersistedQueue
variable (q : PersistedQueue) (m : QueuedMessage) (outcome : SaveOutcome)

def save : Except String Unit :=
  match q.persistPath with
  | none => .ok ()
  | some path => do
    if path ≠ [] then
      withContext "Failed to create message queue directory" outcome.createDirAll
    withContext "Failed to serialize message queue" outcome.toStringPretty
    withContext "Failed to write message queue" outcome.write

/-- The queue after a change, saved where it has a file. -/
def changed (inner : MessageQueue) : Except String Unit × PersistedQueue :=
  let q : PersistedQueue := { q with toMessageQueue := inner }
  (if q.persistPath.isSome then q.save outcome else .ok (),q)

def push : Except String Unit × PersistedQueue :=
  match q.toMessageQueue.push m with
  | .error e => (.error e,q)
  | .ok inner => q.changed outcome inner

def clear : Except String Unit × PersistedQueue := q.changed outcome q.toMessageQueue.clear

/-- `&content[..content.len().min(50)]`; `none` where the slice panics. -/
def excerpt (content : String) : Option String :=
  (splitBytes content.toList (min (byteLength content.toList) 50)).map (fun p => .ofList p.1)

/-- The text of a warning is made only if warnings are logged. `none` where it panics. -/
def requeue (warns : Bool) : Option (Except String Unit × PersistedQueue) :=
  let message := m.incrementRetry
  if message.retriesExhausted then
    if warns then (excerpt message.content).map (fun _ => (.ok (),q)) else some (.ok (),q)
  else some (q.push message outcome)

end PersistedQueue

inductive PersistedOp where
  | push (m : QueuedMessage)
  | requeue (m : QueuedMessage)
  | clear

namespace PersistedQueue
variable (q : PersistedQueue) (warns : Bool) (outcome : SaveOutcome)

def apply : PersistedOp → Option (Except String Unit × PersistedQueue)
  | .push m => some (q.push m outcome)
  | .requeue m => q.requeue m outcome warns
  | .clear => some (q.clear outcome)

/-- The operation returns, and if with an error then nothing has changed. -/
def FailsSafely (op : PersistedOp) : Prop :=
  ∃ r, q.apply warns outcome op = some r ∧ ∀ e, r.1 = .error e → r.2 = q

/-! ## When nothing is lost or doubled -/

def Full : Prop := q.maxSize ≤ q.queue.length

def Saves : Prop := q.save outcome = .ok ()

/-- The text is short, or the limit of the log does not lie inside a character. -/
def Loggable (content : String) : Prop :=
  byteLength content.toList ≤ 50 ∨ Boundary content.toList 50

/-- A change comes with a save that succeeds, and a message is discarded without a log or with a
text that can be cut for it. -/
def Tolerates : PersistedOp → Prop
  | .push _ => q.Full ∨ q.Saves outcome
  | .requeue m =>
    if m.incrementRetry.retriesExhausted then warns = true → Loggable m.content
    else q.Full ∨ q.Saves outcome
  | .clear => q.queue = [] ∨ q.Saves outcome

variable {q warns outcome} {m : QueuedMessage} {inner : MessageQueue}

theorem excerpt_isSome_iff {content : String} : (excerpt content).isSome ↔ Loggable content := by
  rw [excerpt,Option.isSome_map,Option.isSome_iff_exists,← boundary_iff,Loggable]
  rcases Nat.le_total (byteLength content.toList) 50 with hle | hle
  · rw [Nat.min_eq_left hle]
    exact iff_of_true (Text.boundary_byteLength _) (.inl hle)
  · rw [Nat.min_eq_right hle]
    constructor
    · exact .inr
    · rintro (h | h)
      · have heq : byteLength content.toList = 50 := Nat.le_antisymm h hle
        rw [← heq]
        exact Text.boundary_byteLength _
      · exact h

/-- The result of a change is that of the save. -/
theorem changed_fst : (q.changed outcome inner).1 = q.save outcome := by
  cases hpath : q.persistPath with
  | none => simp [changed,save,hpath]
  | some path => simp [changed,save,hpath]

theorem changed_snd : (q.changed outcome inner).2 = { q with toMessageQueue := inner } := rfl

theorem changed_safe_iff : (∀ e, (q.changed outcome inner).1 = .error e →
    (q.changed outcome inner).2 = q) ↔ inner = q.toMessageQueue ∨ q.Saves outcome := by
  rw [changed_fst,changed_snd,Saves]
  cases hsave : q.save outcome with
  | ok u => simp
  | error e =>
    have heq : { q with toMessageQueue := inner } = q ↔ inner = q.toMessageQueue := by
      constructor
      · exact congrArg toMessageQueue
      · rintro rfl
        rfl
    simpa using heq

theorem push_ne (h : q.toMessageQueue.push m = .ok inner) : inner ≠ q.toMessageQueue := by
  intro heq
  have hlen := (MessageQueue.push_perm h).length_eq
  rw [heq,List.length_cons] at hlen
  omega

theorem push_safe_iff : (∀ e, (q.push m outcome).1 = .error e → (q.push m outcome).2 = q) ↔
    q.Full ∨ q.Saves outcome := by
  rw [Full,← MessageQueue.push_error_iff (m := m),push]
  cases hpush : q.toMessageQueue.push m with
  | error e => simp
  | ok inner =>
    have hne := push_ne hpush
    have hsafe := @changed_safe_iff q outcome inner
    simpa [hne] using hsafe

theorem clear_safe_iff : (∀ e, (q.clear outcome).1 = .error e → (q.clear outcome).2 = q) ↔
    q.queue = [] ∨ q.Saves outcome := by
  have hclear : q.toMessageQueue.clear = q.toMessageQueue ↔ q.queue = [] := by
    constructor
    · intro h
      exact (congrArg MessageQueue.queue h).symm
    · intro h
      rw [MessageQueue.clear,← h]
  rw [clear,changed_safe_iff,hclear]

/-- A message without retries left is discarded, if its text can be logged. -/
theorem requeue_exhausted_iff (h : m.incrementRetry.retriesExhausted = true) :
    q.FailsSafely warns outcome (.requeue m) ↔ (warns = true → Loggable m.content) := by
  rw [FailsSafely,apply,requeue]
  cases warns with
  | false => simp [h]
  | true =>
    have hcontent : m.incrementRetry.content = m.content := rfl
    simp only [h,if_true,forall_const,hcontent,← excerpt_isSome_iff,Option.isSome_iff_exists]
    constructor
    · rintro ⟨r,hr,-⟩
      obtain ⟨text,htext,-⟩ := Option.map_eq_some_iff.mp hr
      exact ⟨text,htext⟩
    · rintro ⟨text,htext⟩
      exact ⟨(.ok (),q),by rw [htext,Option.map_some],by simp⟩

/-- An operation fails safely exactly if what it changes can be saved, or a message that it discards
can be logged. -/
theorem failsSafely_iff (q : PersistedQueue) (warns : Bool) (outcome : SaveOutcome)
    (op : PersistedOp) : q.FailsSafely warns outcome op ↔ q.Tolerates warns outcome op := by
  cases op with
  | push m =>
    rw [Tolerates,← push_safe_iff (m := m)]
    simp [FailsSafely,apply]
  | clear =>
    rw [Tolerates,← clear_safe_iff]
    simp [FailsSafely,apply]
  | requeue m =>
    rw [Tolerates]
    by_cases hretries : m.incrementRetry.retriesExhausted = true
    · rw [if_pos hretries]
      exact requeue_exhausted_iff hretries
    · rw [if_neg hretries,← push_safe_iff (m := m.incrementRetry)]
      simp [FailsSafely,apply,requeue,hretries]

/-- The disk is full. -/
def unwritable : SaveOutcome := { write := .error "No space left on device" }

def oneMessage : PersistedQueue := { queue := [.new 1 "hello"],persistPath := some ["queue.json"] }

/-- Its fiftieth byte is the first one of a character of two. -/
def longContent : String := .ofList (List.replicate 49 'a' ++ ['é'])

/-- A push that fails leaves its message behind and doubles it when it is tried again, a clear that
fails has cleared, and a long text stops the process. -/
theorem unwritable_not_failsSafely :
    ¬ oneMessage.FailsSafely false unwritable (.push (.new 2 "hi")) ∧
      ((oneMessage.push (.new 2 "hi") unwritable).2.push (.new 2 "hi") {}).2.queue =
        [.new 1 "hello",.new 2 "hi",.new 2 "hi"] ∧
      ¬ oneMessage.FailsSafely false unwritable .clear ∧
      oneMessage.requeue { QueuedMessage.new 3 longContent with retryCount := 3 } {} true = none := by
  refine ⟨?_,by decide +kernel,?_,by decide +kernel⟩
  · rintro ⟨r,hr,hsafe⟩
    cases hr
    exact absurd (hsafe _ rfl) (by decide +kernel)
  · rintro ⟨r,hr,hsafe⟩
    cases hr
    exact absurd (hsafe _ rfl) (by decide +kernel)

end PersistedQueue
end Rullama.Agent
