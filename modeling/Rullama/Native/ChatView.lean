import Rullama.Transition.Machine
import Rullama.Native.ConversationStore
import Mathlib.Logic.Function.Basic

/-! # The chat screen

The screen shows the bubbles of one conversation. Generations wait in a queue and run one at
a time; the reply of a conversation that is being generated is kept in a live buffer, which
points to the bubble that its text is to be painted in. A text is painted when the screen's
thread gets to it.
-/
namespace Rullama.Native
open Transition (Machine)

/-- `vm` tells one bubble from another, also of one text. -/
structure Bubble where
  vm : ℕ
  role : Role
  content : String
  deriving DecidableEq

/-- A text that is to be painted in a bubble. -/
structure Paint where
  vm : ℕ
  text : String
  deriving DecidableEq

def Bubble.paint (b : Bubble) (p : Paint) : Bubble :=
  if b.vm = p.vm then { b with content := p.text } else b

/-- The bubble once all the posted texts are painted. -/
def Bubble.settled (b : Bubble) (posts : List Paint) : Bubble := posts.foldl Bubble.paint b

structure LiveBuffer where
  modelRowId : ℕ
  content : String := ""
  vm : Option ℕ := none
  deriving DecidableEq

def LiveBuffer.detach (buf : LiveBuffer) : LiveBuffer := { buf with vm := none }

inductive JobStatus
  | queued
  | running
  deriving DecidableEq

structure GenJob where
  convId : ℕ
  modelRowId : ℕ
  status : JobStatus := .queued
  deriving DecidableEq

/-- `round` is between the first response of a tool and the mirroring of the round. -/
inductive Phase
  | silent
  | reflected
  | round
  deriving DecidableEq

/-- The job that runs, with its text so far and the pieces since the last flush. -/
structure RunningJob where
  job : GenJob
  sb : String := ""
  sinceFlush : ℕ := 0
  phase : Phase := .silent
  deriving DecidableEq

/-- `sending` holds the jobs of sends that wait for their knowledge context, and `said` all
the texts that the job of a row has had; no operation reads `said`. -/
structure ChatView where
  store : ConversationStore
  active : Option ℕ := none
  messages : List Bubble := []
  nextVm : ℕ := 0
  live : ℕ → Option LiveBuffer := fun _ => none
  sending : List GenJob := []
  jobs : List GenJob := []
  running : Option RunningJob := none
  pumping : Bool := false
  loaded : Bool := false
  posts : List Paint := []
  said : List (ℕ × String) := []

inductive ChatAction where
  | loadModel
  | createEmpty
  | send (text : String)
  /-- the job of a send gets its context and goes into the queue -/
  | enqueue (job : GenJob)
  | select (convId : ℕ)
  | delete (convId : ℕ)
  | stop
  | token (piece : String)
  /-- text that is not mirrored at once -/
  | append (text : String)
  | mirror
  | finish
  | paint
  | relaunch
  deriving DecidableEq

/-- The bubbles of the rows, numbered from `vm` on. -/
def bubbles : ℕ → List MessageRow → List Bubble
  | _, [] => []
  | vm, r :: rs => ⟨vm,r.role,r.content⟩ :: bubbles (vm + 1) rs

namespace ChatView
variable (s : ChatView)

def setLive (convId : ℕ) (buf : Option LiveBuffer) : ChatView :=
  { s with live := Function.update s.live convId buf }

def hasPendingFor (convId : ℕ) : Bool := s.jobs.any (fun j => j.convId = convId)

/-! ## The queue -/

/-- Where the buffer of a job that starts is to be painted. -/
def attach (convId : ℕ) (buf : LiveBuffer) : LiveBuffer :=
  if s.active = some convId ∧ buf.vm = none then
    match s.messages.getLast? with
    | some last => if last.role = .model then { buf with vm := some last.vm } else buf
    | none => buf
  else buf

def start (job : GenJob) : ChatView :=
  let buf := (s.live job.convId).getD { modelRowId := job.modelRowId }
  let buf := s.attach job.convId { buf with modelRowId := job.modelRowId }
  { s.setLive job.convId (some buf) with
    jobs := s.jobs.map (fun j =>
      if j.modelRowId = job.modelRowId then { j with status := .running } else j)
    running := some { job } }

/-- The pump takes the first job that is queued, and ends when there is none. -/
def pump : ChatView :=
  match s.jobs.find? (fun j => j.status = .queued) with
  | some job => s.start job
  | none => { s with pumping := false }

def kick : ChatView := if s.pumping then s else { s with pumping := true }.pump

/-! ## The conversations -/

/-- The live text goes over the last bubble, when that is the model's. -/
def overlay (convId : ℕ) : ChatView :=
  match s.live convId, s.messages.getLast? with
  | some buf, some last =>
    if last.role = .model then
      { s.setLive convId (some { buf with vm := some last.vm }) with
        messages := s.messages.map (fun b => b.paint ⟨last.vm,buf.content⟩) }
    else s
  | _, _ => s

/-- The bubbles are built anew, and those of other conversations left alone. -/
def rebuild (convId : ℕ) : ChatView :=
  { s with
    active := some convId
    messages := bubbles s.nextVm (s.store.messages convId)
    nextVm := s.nextVm + (s.store.messages convId).length
    live := fun c => if c = convId then s.live c else (s.live c).map LiveBuffer.detach }

def select (convId : ℕ) : ChatView := (s.rebuild convId).overlay convId

def create : ChatView := { s with store := s.store.create }

def createEmpty : ChatView := s.create.select s.store.nextConv

def delete (convId : ℕ) : ChatView :=
  { s.setLive convId none with
    jobs := s.jobs.filter (fun j => j.convId ≠ convId)
    store := s.store.delete convId
    active := if s.active = some convId then none else s.active
    messages := if s.active = some convId then [] else s.messages }

/-! ## Sending -/

/-- The conversation that a send is for. -/
def target : ℕ := s.active.getD s.store.nextConv

def ensureActive : ChatView :=
  match s.active with
  | some _ => s
  | none => { s.create with active := some s.store.nextConv }

/-- The rows and the bubbles of a turn, and a buffer for its reply. -/
def addTurn (convId : ℕ) (text : String) : ChatView :=
  { s.setLive convId (some { modelRowId := s.store.nextId + 1, vm := some (s.nextVm + 1) }) with
    store := (s.store.addMessage convId .user text).addMessage convId .model ""
    messages := s.messages ++ [⟨s.nextVm,.user,text⟩,⟨s.nextVm + 1,.model,""⟩]
    nextVm := s.nextVm + 2
    sending := s.sending ++ [{ convId, modelRowId := s.store.nextId + 1 }] }

def send (text : String) : ChatView := s.ensureActive.addTurn s.target text

def enqueue (job : GenJob) : ChatView :=
  { s with sending := s.sending.erase job, jobs := s.jobs ++ [job] }.kick

def stop : ChatView :=
  match s.active with
  | none => s
  | some c =>
    if s.running.map (fun k => k.job.convId) = some c then s
    else { s with jobs := s.jobs.filter (fun j => ¬(j.convId = c ∧ j.status = .queued)) }

/-! ## The job that runs -/

def post (p : Paint) : ChatView := { s with posts := s.posts ++ [p] }

/-- The live text is always kept, and painted when the conversation is on the screen. -/
def reflect (job : GenJob) (full : String) : ChatView :=
  match s.live job.convId with
  | none => s
  | some buf =>
    let s' := s.setLive job.convId (some { buf with content := full })
    match buf.vm with
    | some vm => if s.active = some job.convId then s'.post ⟨vm,full⟩ else s'
    | none => s'

/-- The text of the job goes on. -/
def speak (k : RunningJob) (text : String) : ChatView :=
  { s with
    running := some { k with sb := k.sb ++ text, phase := .round }
    said := (k.job.modelRowId,k.sb ++ text) :: s.said }

def mirror : ChatView :=
  match s.running with
  | none => s
  | some k => { s.reflect k.job k.sb with running := some { k with phase := .reflected } }

/-- Every sixteenth piece the text goes into the database. -/
def flush : ChatView :=
  match s.running with
  | none => s
  | some k => { s with store := s.store.updateMessage k.job.modelRowId k.sb }

def count (n : ℕ) : ChatView :=
  { s with running := s.running.map (fun k => { k with sinceFlush := n }) }

def token (k : RunningJob) (piece : String) : ChatView :=
  let s' := (s.speak k piece).mirror
  if 16 ≤ k.sinceFlush + 1 then (s'.count 0).flush else s'.count (k.sinceFlush + 1)

/-- The job leaves the queue, and its conversation has no live text any more. -/
def leave (job : GenJob) : ChatView :=
  { s.setLive job.convId none with
    jobs := s.jobs.filter (fun j => j.modelRowId ≠ job.modelRowId)
    running := none }

def finish (job : GenJob) : ChatView := (s.flush.leave job).pump

def paint : ChatView :=
  match s.posts with
  | [] => s
  | p :: posts => { s with posts := posts, messages := s.messages.map (fun b => b.paint p) }

end ChatView

/-! ## The program -/

/-- The stored jobs whose conversations are there yet. -/
def restored (store : ConversationStore) (manifest : List GenJob) : List GenJob :=
  (manifest.filter (fun j => j.convId ∈ store.conversations)).map
    (fun j => { j with status := .queued })

/-- The program starts with what is stored, and with an empty conversation if there is none. -/
def launch (store : ConversationStore) (manifest : List GenJob) (said : List (ℕ × String)) :
    ChatView :=
  let s : ChatView := { store, said, jobs := restored store manifest }
  if store.conversations = [] then s.createEmpty else s

namespace ChatView
variable (s : ChatView)

def enabled : ChatAction → Prop
  | .loadModel => s.loaded = false ∧ s.pumping = false
  | .send _ => s.loaded = true
  | .enqueue job => job ∈ s.sending
  | .select c | .delete c => c ∈ s.store.conversations
  | .token _ | .append _ | .mirror => s.running.isSome
  | .finish => ∃ k ∈ s.running, k.phase ≠ .round
  | .paint => s.posts ≠ []
  | .createEmpty | .stop | .relaunch => True

instance : DecidablePred s.enabled
  | .loadModel => inferInstanceAs (Decidable (_ ∧ _))
  | .send _ => inferInstanceAs (Decidable (_ = _))
  | .enqueue _ => inferInstanceAs (Decidable (_ ∈ _))
  | .select _ | .delete _ => inferInstanceAs (Decidable (_ ∈ _))
  | .token _ | .append _ | .mirror => inferInstanceAs (Decidable (_ = _))
  | .finish => inferInstanceAs (Decidable (∃ k ∈ s.running, _))
  | .paint => inferInstanceAs (Decidable (_ ≠ _))
  | .createEmpty | .stop | .relaunch => inferInstanceAs (Decidable True)

def next : ChatAction → ChatView
  | .loadModel => { s with loaded := true }.kick
  | .createEmpty => s.createEmpty
  | .send text => s.send text
  | .enqueue job => s.enqueue job
  | .select c => s.select c
  | .delete c => s.delete c
  | .stop => s.stop
  | .token piece => s.running.elim s (fun k => s.token k piece)
  | .append text => s.running.elim s (fun k => s.speak k text)
  | .mirror => s.mirror
  | .finish => s.running.elim s (fun k => s.finish k.job)
  | .paint => s.paint
  | .relaunch => launch s.store s.jobs s.said

end ChatView

def chatView : Machine ChatView ChatAction := ⟨ChatView.enabled,ChatView.next⟩

instance (s : ChatView) (e : ChatAction) : Decidable (chatView.enabled s e) :=
  inferInstanceAs (Decidable (s.enabled e))

end Rullama.Native
