import Mathlib.Data.List.Infix
import Rullama.Transition.Machine
import Rullama.Web.QueueManifest

/-! # The conversations of the chat

Messages are sent to any conversation while a reply is generated, and the replies are generated
one job after the other. A job that was sent while its conversation had another one in the queue,
or that was taken up again after a reload, reads the messages before its own from the database
when its turn comes. The user, the pump, the database, a resumed generation and reloads take their
steps in any order.
-/
namespace Rullama.Chat
open Text Transition
open Web (JobStatus)

inductive Role where
  | system
  | user
  | model
  deriving DecidableEq

structure Row where
  messageId : ℕ
  role : Role
  content : Units
  /-- the content on the disk -/
  flushed : Units
  deriving DecidableEq

structure Message where
  role : Role
  content : Units
  deriving DecidableEq

def Row.message (r : Row) : Message := ⟨r.role,r.content⟩

def Row.flush (r : Row) : Row := { r with flushed := r.content }

def Row.reopen (r : Row) : Row := { r with content := r.flushed }

/-- A job is known by the row of its answer. -/
structure Job where
  convId : ℕ
  modelMsgId : ℕ
  userText : Units
  priorFromDb : Bool
  priorMessages : List Message
  modelDigest : Units
  status : JobStatus := .queued
  deriving DecidableEq

/-- A message that is being sent: it waits for the row of the user, or for that of the answer. -/
structure Send where
  convId : ℕ
  userText : Units
  priorFromDb : Bool
  priorMessages : List Message
  modelDigest : Units
  modelMsgId : Option ℕ := none

def Send.job (d : Send) (modelMsgId : ℕ) : Job :=
  ⟨d.convId,modelMsgId,d.userText,d.priorFromDb,d.priorMessages,d.modelDigest,.queued⟩

/-- Where a generation writes. -/
structure Target where
  convId : ℕ
  modelMsgId : ℕ
  deriving DecidableEq

def Job.target (j : Job) : Target := ⟨j.convId,j.modelMsgId⟩

structure Engine where
  /-- in the database, in the order of their insertion; `none` once the conversation is deleted -/
  rows : ℕ → Option (List Row)
  nextId : ℕ
  /-- the stored queue -/
  manifest : List Job := []
  /-- the queues that are being stored -/
  pending : List (List Job) := []
  /-- in `localStorage` -/
  stored : Option Target := none
  /-- in the order of the replies of the database -/
  sends : List Send := []
  queue : List Job := []
  /-- the job of the pump, and its history once that is read -/
  running : Option (Job × Option (List Message)) := none
  resumed : Option Target := none
  /-- the stored queue was read -/
  booted : Bool := true
  /-- what was read of it, until it is put into the queue -/
  loaded : List Job := []

/-! ## The history of a job -/

def spoken (rows : List Row) : List Row :=
  rows.filter (fun r => r.role = .user || r.role = .model)

/-- Where the job's own two messages are cut off. -/
def cut (rows : List Row) (modelMsgId : ℕ) : ℕ :=
  match rows.findIdx? (fun r => r.messageId = modelMsgId) with
  | some (i + 1) => i
  | _ => rows.length - 2

namespace Engine
variable (s : Engine)

/-- The rows that a job reads. -/
def priorRows (j : Job) : List Row :=
  let rows := spoken ((s.rows j.convId).getD [])
  rows.take (cut rows j.modelMsgId)

/-- Where the database cannot be read, the job goes on without a history. -/
def history (j : Job) (fails : Bool) : List Message :=
  if j.priorFromDb then if fails then [] else (s.priorRows j).map Row.message
  else j.priorMessages

/-! ## The database -/

def flush : Engine := { s with rows := fun c => (s.rows c).map (List.map Row.flush) }

/-- The database is read from the disk again. -/
def reopen : Engine := { s with rows := fun c => (s.rows c).map (List.map Row.reopen) }

def insert (convId : ℕ) (role : Role) (content : Units) : Engine :=
  flush { s with
    rows := Function.update s.rows convId
      ((s.rows convId).map (· ++ [⟨s.nextId,role,content,content⟩]))
    nextId := s.nextId + 1 }

def edit (t : Target) (f : Units → Units) : Engine :=
  { s with rows := Function.update s.rows t.convId ((s.rows t.convId).map (List.map (fun r =>
      if r.messageId = t.modelMsgId then { r with content := f r.content } else r))) }

inductive Update where
  | append (delta : Units)
  | setContent (content : Units)

def write (t : Target) : Update → Engine
  | .append delta => s.edit t (· ++ delta)
  | .setContent content => flush (s.edit t (fun _ => content))

/-! ## Sending -/

/-- The queue goes to be stored without the job that runs. -/
def commitQueue (queue : List Job) : Engine :=
  { s with queue, pending := s.pending ++ [queue.filter (fun j => j.status = .queued)] }

/-- `onSend` up to the row of the user. -/
def send (convId : ℕ) (userText : Units) (priorMessages : List Message) (modelDigest : Units) :
    Engine :=
  let priorFromDb := s.queue.any (fun j => j.convId = convId)
  { s.insert convId .user userText with
    sends := s.sends ++ [⟨convId,userText,priorFromDb,priorMessages,modelDigest,none⟩] }

/-- `onSend` goes on with the row of the answer. -/
def ask (d : Send) (sends : List Send) : Engine :=
  { s.insert d.convId .model [] with
    sends := sends ++ [{ d with modelMsgId := some s.nextId }] }

def enqueue (d : Send) (sends : List Send) (modelMsgId : ℕ) : Engine :=
  commitQueue { s with sends } (s.queue ++ [d.job modelMsgId])

/-- The database has inserted a row for the first of the messages, or it has failed to. -/
def reply (fails : Bool) : Engine :=
  match s.sends with
  | [] => s
  | d :: sends =>
    match d.modelMsgId with
    | none => if fails || (s.rows d.convId).isNone then { s with sends } else s.ask d sends
    | some modelMsgId => s.enqueue d sends modelMsgId

/-! ## The pump -/

def start : Engine :=
  match s.queue.find? (fun j => j.status = .queued) with
  | none => s
  | some j =>
    { s.commitQueue (s.queue.map (fun k =>
        if k.modelMsgId = j.modelMsgId then { k with status := .running } else k)) with
      running := some ({ j with status := .running },none) }

def read (fails : Bool) : Engine :=
  match s.running with
  | some (j,none) => { s with running := some (j,some (s.history j fails)) }
  | _ => s

def finish : Engine :=
  match s.running with
  | none => s
  | some (j,_) =>
    { s.commitQueue (s.queue.filter (fun k => k.modelMsgId ≠ j.modelMsgId)) with
      running := none
      stored := none }

/-! ## The user -/

/-- The first job of the conversation is dropped if it has not started. -/
def dequeue (convId : ℕ) : Engine :=
  match s.queue.find? (fun j => j.convId = convId) with
  | none => s
  | some j =>
    if j.status = .queued then
      s.commitQueue (s.queue.filter (fun k => k.modelMsgId ≠ j.modelMsgId))
    else s

def delete (convId : ℕ) : Engine :=
  flush { s.dequeue convId with rows := Function.update s.rows convId none }

/-! ## Reloads -/

/-- The tab is killed. The next one goes on with the stored generation, or drops it. -/
def kill (keeps : Bool) : Engine :=
  let stored := if keeps then s.stored else none
  { s.reopen with
    stored
    pending := []
    sends := []
    queue := []
    running := none
    resumed := stored
    booted := false
    loaded := [] }

def restored (j : Job) : Job :=
  { j with priorFromDb := true, priorMessages := [], status := .queued }

def load : Engine := { s with booted := true, loaded := s.manifest.map restored }

/-- The jobs of this model whose conversations are there are put into the queue. -/
def bootQueue (digest : Units) (convIds : ℕ → Bool) : Engine :=
  let valid := s.loaded.filter (fun j =>
    (j.modelDigest = [] || digest = [] || j.modelDigest = digest) && convIds j.convId)
  let s := { s with loaded := [] }
  if valid = [] then s else s.commitQueue (s.queue ++ valid)

end Engine

inductive Event where
  | send (convId : ℕ) (userText : Units) (priorMessages : List Message) (modelDigest : Units)
  | reply (fails : Bool)
  | start
  | read (fails : Bool)
  | write (u : Engine.Update)
  | finish
  | stop (convId : ℕ)
  | delete (convId : ℕ)
  | flush
  /-- the worker of the database dies, and another one takes its place -/
  | lose
  /-- the tab is hidden, and the generation that is in flight is stored -/
  | hide (t : Target)
  /-- one of the queues that are being stored is there; it need not be the first -/
  | persist (jobs : List Job)
  | kill (keeps : Bool)
  | load
  /-- the conversations may be those of an earlier moment -/
  | bootQueue (digest : Units) (convIds : ℕ → Bool)
  | resumedWrite (u : Engine.Update)
  | resumedEnd

namespace Engine

/-- The generation of the pump. -/
def target (s : Engine) : Option Target := s.running.map (fun p => p.1.target)

def enabled (s : Engine) : Event → Prop
  | .send convId _ _ _ => s.rows convId ≠ none
  | .reply _ => s.sends ≠ []
  | .start => s.running = none
  | .read _ => True
  | .write _ => s.running.any (fun p => p.2.isSome) = true
  | .finish => s.running ≠ none
  | .stop _ | .delete _ | .flush | .lose | .kill _ => True
  | .hide t => s.target = some t ∨ s.resumed = some t
  | .persist jobs => jobs ∈ s.pending
  | .load => s.booted = false
  | .bootQueue _ convIds => ∀ c, s.rows c ≠ none → convIds c = true
  | .resumedWrite _ | .resumedEnd => s.resumed ≠ none

def next (s : Engine) : Event → Engine
  | .send convId userText priorMessages modelDigest =>
    s.send convId userText priorMessages modelDigest
  | .reply fails => s.reply fails
  | .start => s.start
  | .read fails => s.read fails
  | .write u => s.target.elim s (fun t => s.write t u)
  | .finish => s.finish
  | .stop convId => s.dequeue convId
  | .delete convId => s.delete convId
  | .flush => s.flush
  | .lose => s.reopen
  | .hide t => { s with stored := some t }
  | .persist jobs => { s with manifest := jobs, pending := s.pending.erase jobs }
  | .kill keeps => s.kill keeps
  | .load => s.load
  | .bootQueue digest convIds => s.bootQueue digest convIds
  | .resumedWrite u => s.resumed.elim s (fun t => s.write t u)
  | .resumedEnd => { s with resumed := none, stored := none }

end Engine

def engine : Machine Engine Event := ⟨Engine.enabled,Engine.next⟩

end Rullama.Chat
