import Rullama.Agent.MessageQueue
import Rullama.Agent.Messages
import Rullama.Transition.Machine

/-! # The conversation of an agent

The inputs of the viewers, the turns that run in tasks of their own, and the drain of the
message queue. An event is what one task does under one hold of the state's lock, together
with what it sends before it waits again; a user's message is the exception, it is broadcast
after the lock is released and so in an event of its own.
-/
namespace Rullama.Agent
open Transition

/-- What a turn was started for. -/
inductive TurnKind where
  | input
  | pending
  | queued (message : QueuedMessage)

/-- A run of `stream_with_tool_execution`, with the clones of the model's name and of the
history that were made for it. -/
structure Turn where
  id : ℕ
  kind : TurnKind
  model : String
  history : List Entry

/-- A handler that has added its user message and has not broadcast it yet. -/
structure Announcement where
  viewer : ℕ
  turn : ℕ
  message : DisplayMessage
deriving DecidableEq

structure Viewer where
  id : ℕ
  snapshot : List DisplayMessage
  subscribed : Bool
  received : List AgentMessage

namespace Viewer

/-- A broadcast channel delivers to those who have subscribed before the message was sent. -/
def receive (v : Viewer) (update : AgentMessage) : Viewer :=
  if v.subscribed then { v with received := v.received ++ [update] } else v

/-- The messages of the conversation that the viewer was sent. -/
def seen (v : Viewer) : List DisplayMessage := v.snapshot ++ v.received.flatMap AgentMessage.shows

end Viewer

structure AgentState where
  messages : List DisplayMessage
  conversationHistory : List Entry
  status : String
  model : String
  isBusy : Bool := false
  hasPendingRequest : Bool
  messageQueue : MessageQueue := {}
  viewers : List Viewer := []
  turns : List Turn := []
  announcing : List Announcement := []
  /-- the loops of `process_queued_messages` that are about to pop -/
  draining : ℕ := 0
  /-- the messages that such loops have popped and not yet added to the conversation -/
  popped : List QueuedMessage := []
  /-- ghost: the ids of turns, 0 being kept for a pending request -/
  nextTurn : ℕ
  /-- ghost: the ids of queued messages -/
  nextQueued : ℕ := 0
  /-- ghost: the turns that ended without a reply -/
  failed : List ℕ := []
  /-- ghost: the queued messages given to the provider, one entry for each time -/
  given : List ℕ := []

namespace AgentState

def loadEntry (stored : String × String) : Option Entry :=
  if stored.1 = "user" then some ⟨.user stored.2,none⟩
  else if stored.1 = "assistant" then some ⟨.assistant stored.2,none⟩
  else none

/-- `AgentState::new` with the messages that the storage has of the session. -/
def new (model systemPrompt : String) (stored : List (String × String)) : AgentState :=
  let pending := decide (stored.getLast?.map Prod.fst = some "user")
  { messages := stored.zipIdx.map (fun m => ⟨m.2,m.1.1,m.1.2⟩)
    conversationHistory := ⟨⟨.system,.text systemPrompt⟩,none⟩ :: stored.filterMap loadEntry
    status := "Ready - Model: " ++ model
    model
    hasPendingRequest := pending
    nextTurn := if pending then 1 else 0 }

variable (s : AgentState)

/-! ## Pieces of the handlers -/

def addUserMessage (turn : ℕ) (content : String) : AgentState :=
  { s with
    messages := s.messages ++ [⟨s.messages.length,"user",content⟩]
    conversationHistory := s.conversationHistory ++ [⟨.user content,some turn⟩] }

def addAssistantMessage (turn : ℕ) (content : String) : AgentState :=
  { s with
    messages := s.messages ++ [⟨s.messages.length,"assistant",content⟩]
    conversationHistory := s.conversationHistory ++ [⟨.assistant content,some turn⟩] }

def createSyncMessage : AgentMessage := .conversationSync s.messages s.status s.isBusy

/-- `update_tx.send` -/
def send (update : AgentMessage) : AgentState :=
  { s with viewers := s.viewers.map (·.receive update) }

def sendStatus : AgentState := s.send (.statusUpdate s.status)

/-- The `MessageAdded` at the end of a turn. -/
def sendLast : AgentState :=
  match s.messages.getLast? with
  | some message => s.send (.messageAdded message)
  | none => s

/-- The task of a turn is on its way, with a clone of the history. -/
def startTurn (kind : TurnKind) (status : String) : AgentState :=
  { s with
    isBusy := true
    status
    turns := s.turns ++ [⟨s.nextTurn,kind,s.model,s.conversationHistory⟩]
    nextTurn := s.nextTurn + 1 }

def turn? (id : ℕ) : Option Turn := s.turns.find? (fun t => t.id = id)

def leave (id : ℕ) : AgentState := { s with turns := s.turns.eraseP (fun t => t.id = id) }

/-! ## Viewers -/

/-- The first part of `handle_viewer_connection`, up to the end of the initial sync. -/
def attach (viewer : ℕ) : AgentState :=
  { s with viewers := s.viewers ++ [⟨viewer,s.messages,false,[]⟩] }

def subscribe (viewer : ℕ) : AgentState :=
  { s with viewers := s.viewers.map (fun v =>
      if v.id = viewer then { v with subscribed := true } else v) }

def disconnect (viewer : ℕ) : AgentState :=
  { s with viewers := s.viewers.filter (fun v => v.id ≠ viewer) }

/-- `UserInput` under the lock. The content is what `seal_preprocess` makes of the input and
of its context files. -/
def userInput (viewer : ℕ) (content : String) : AgentState :=
  let t := (s.addUserMessage s.nextTurn content).startTurn .input "Streaming response..."
  { t with announcing :=
      t.announcing ++ [.mk viewer s.nextTurn ⟨s.messages.length,"user",content⟩] }

/-- `UserInput` after the lock. -/
def announce (a : Announcement) : AgentState :=
  (({ s with announcing := s.announcing.erase a }.send (.ack "user_input")).send
    (.messageAdded a.message)).send (.statusUpdate "Streaming response...")

/-- `Cancel`. No code sets `cancellation_token`. -/
def cancel : AgentState :=
  { s with isBusy := false, status := "Cancelled" }.send (.ack "cancel")

def syncRequest : AgentState := (s.send s.createSyncMessage).send .taskUpdate

def queueMessage (content : String) : AgentState :=
  match s.messageQueue.push (.new s.nextQueued content) with
  | .ok q => { s with messageQueue := q, nextQueued := s.nextQueued + 1 }.send (.ack "queue_message")
  | .error e => s.send (.error ("Failed to queue message: " ++ e) false)

/-! ## Turns -/

/-- `process_pending_request` up to the stream. -/
def startPending : AgentState :=
  let t : AgentState := { s with
    hasPendingRequest := false
    isBusy := true
    status := "Processing pending request..."
    turns := s.turns ++ [⟨0,.pending,s.model,s.conversationHistory⟩] }
  t.sendStatus

/-- What every turn does with its response. -/
def reply (t : Turn) (response : String) : AgentState :=
  { s.addAssistantMessage t.id response with
    isBusy := false
    status := "Ready - Model: " ++ t.model }.sendLast.sendStatus

/-- What a turn started for an input or a queued message does with an error. -/
def report (status error : String) : AgentState :=
  ({ s with isBusy := false, status }.send (.error error false)).sendStatus

def finish (t : Turn) : Except String String → AgentState
  | .ok response =>
    let s := s.reply t response
    match t.kind with
    | .input => if s.messageQueue.queue = [] then s else { s with draining := s.draining + 1 }
    | .pending => s
    | .queued _ => { s with draining := s.draining + 1 }
  | .error e =>
    let s := { s with failed := s.failed ++ [t.id] }
    match t.kind with
    | .input => s.report ("Error: " ++ e) e
    | .pending => s
    | .queued m =>
      { s with messageQueue := s.messageQueue.requeued m }.report
        ("Error processing queued message: " ++ e) e

/-! ## The drain of the queue -/

/-- The head of the loop in `process_queued_messages`. -/
def popQueued : AgentState :=
  match s.messageQueue.pop with
  | (some m,q) =>
    { s with messageQueue := q, draining := s.draining - 1, popped := s.popped ++ [m] }
  | (none,_) => { s with draining := s.draining - 1 }

/-- The body of the loop up to the stream, with the content that `seal_preprocess` makes. -/
def beginQueued (m : QueuedMessage) (content : String) : AgentState :=
  let t := { s with popped := s.popped.erase m, given := s.given ++ [m.id] }
  let t := t.addUserMessage t.nextTurn content
  (t.startTurn (.queued m) "Processing queued message...").sendStatus

end AgentState

/-! ## The machine -/

inductive Event where
  | attach (viewer : ℕ)
  | subscribe (viewer : ℕ)
  | disconnect (viewer : ℕ)
  | userInput (viewer : ℕ) (content : String)
  | announce (a : Announcement)
  | cancel (viewer : ℕ)
  | syncRequest (viewer : ℕ)
  | queueMessage (viewer : ℕ) (content : String)
  | startPending
  | stream (turn : ℕ) (update : AgentMessage)
  | turnEnds (turn : ℕ) (result : Except String String)
  /-- the task of a turn panics, in `&continuation_text[..100]` for one -/
  | turnDies (turn : ℕ)
  | popQueued
  | beginQueued (message : QueuedMessage) (content : String)
  /-- the task of a drain panics before its message is added, in `analyze_for_corrections` -/
  | drainDies (message : QueuedMessage)

/-- What `stream_with_tool_execution` sends. -/
def AgentMessage.ofTurn : AgentMessage → Bool
  | .streamChunk _ | .streamEnd _ | .toolCallStart _ _ | .toolResult _ _ _ _ | .statusUpdate _
  | .error _ _ => true
  | _ => false

namespace AgentState
variable (s : AgentState)

/-- The viewer has a connection task that is ready for its next message. -/
def Listens (viewer : ℕ) : Prop :=
  (∃ v ∈ s.viewers, v.id = viewer ∧ v.subscribed = true) ∧ ∀ a ∈ s.announcing, a.viewer ≠ viewer

/-- The turn has been spawned and has not ended. -/
def InProgress (turn : ℕ) : Prop :=
  (∃ t ∈ s.turns, t.id = turn) ∧ ∀ a ∈ s.announcing, a.turn ≠ turn

instance (viewer : ℕ) : Decidable (s.Listens viewer) :=
  inferInstanceAs (Decidable (_ ∧ _))

instance (turn : ℕ) : Decidable (s.InProgress turn) :=
  inferInstanceAs (Decidable (_ ∧ _))

def Enabled : Event → Prop
  | .attach viewer => ∀ v ∈ s.viewers, v.id ≠ viewer
  | .subscribe viewer => ∃ v ∈ s.viewers, v.id = viewer ∧ v.subscribed = false
  | .disconnect viewer => (∃ v ∈ s.viewers, v.id = viewer) ∧ ∀ a ∈ s.announcing, a.viewer ≠ viewer
  | .userInput viewer _ | .cancel viewer | .syncRequest viewer | .queueMessage viewer _ =>
    s.Listens viewer
  | .announce a => a ∈ s.announcing
  | .startPending => s.hasPendingRequest = true
  | .stream turn update => s.InProgress turn ∧ update.ofTurn = true
  | .turnEnds turn _ | .turnDies turn => s.InProgress turn
  | .popQueued => 0 < s.draining
  | .beginQueued m _ | .drainDies m => m ∈ s.popped

instance : ∀ e, Decidable (s.Enabled e)
  | .attach _ => inferInstanceAs (Decidable (∀ v ∈ s.viewers, _))
  | .subscribe _ => inferInstanceAs (Decidable (∃ v ∈ s.viewers, _))
  | .disconnect _ => inferInstanceAs (Decidable (_ ∧ _))
  | .userInput viewer _ | .cancel viewer | .syncRequest viewer | .queueMessage viewer _ =>
    inferInstanceAs (Decidable (s.Listens viewer))
  | .announce a => inferInstanceAs (Decidable (a ∈ s.announcing))
  | .startPending => inferInstanceAs (Decidable (s.hasPendingRequest = true))
  | .stream _ _ => inferInstanceAs (Decidable (_ ∧ _))
  | .turnEnds turn _ | .turnDies turn => inferInstanceAs (Decidable (s.InProgress turn))
  | .popQueued => inferInstanceAs (Decidable (0 < s.draining))
  | .beginQueued m _ | .drainDies m => inferInstanceAs (Decidable (m ∈ s.popped))

def next : Event → AgentState
  | .attach viewer => s.attach viewer
  | .subscribe viewer => s.subscribe viewer
  | .disconnect viewer => s.disconnect viewer
  | .userInput viewer content => s.userInput viewer content
  | .announce a => s.announce a
  | .cancel _ => s.cancel
  | .syncRequest _ => s.syncRequest
  | .queueMessage _ content => s.queueMessage content
  | .startPending => s.startPending
  | .stream _ update => s.send update
  | .turnEnds turn result =>
    match s.turn? turn with
    | some t => (s.leave turn).finish t result
    | none => s
  | .turnDies turn => { s.leave turn with failed := s.failed ++ [turn] }
  | .popQueued => s.popQueued
  | .beginQueued m content => s.beginQueued m content
  | .drainDies m => { s with popped := s.popped.erase m }

/-! ## What the pieces leave alone -/

theorem perm_cons_eraseP {α : Type*} {p : α → Bool} {l : List α} {a : α} (h : l.find? p = some a) :
    l.Perm (a :: l.eraseP p) := by
  obtain ⟨ha,before,after,rfl,hbefore⟩ := List.find?_eq_some_iff_append.mp h
  rw [List.eraseP_append_right _ (by simpa using hbefore),List.eraseP_cons_of_pos ha]
  exact List.perm_middle

theorem sendLast_eq : s.sendLast = { s with viewers := s.sendLast.viewers } := by
  unfold sendLast
  split <;> rfl

theorem reply_eq (t : Turn) (response : String) : s.reply t response =
    { s.addAssistantMessage t.id response with
      isBusy := false
      status := "Ready - Model: " ++ t.model
      viewers := (s.reply t response).viewers } := by
  unfold reply sendStatus
  rw [sendLast_eq]
  rfl

/-- What a turn does with its response, whatever it was started for. -/
theorem finish_ok_eq (t : Turn) (response : String) : s.finish t (.ok response) =
    { s.reply t response with draining := (s.finish t (.ok response)).draining } := by
  unfold finish
  cases t.kind with
  | input =>
    dsimp only
    split <;> rfl
  | pending | queued => rfl

theorem turn?_eq {turn : ℕ} (h : s.InProgress turn) :
    ∃ t ∈ s.turns, t.id = turn ∧ s.turn? turn = some t := by
  obtain ⟨⟨t,ht,hid⟩,-⟩ := h
  cases hfind : s.turn? turn with
  | none => exact absurd hid (by simpa using List.find?_eq_none.mp hfind t ht)
  | some u => exact ⟨u,List.mem_of_find?_eq_some hfind,by simpa using List.find?_some hfind,rfl⟩

/-- The turn that ends, taken out of those in progress. -/
theorem next_turnEnds {turn : ℕ} (h : s.InProgress turn) (result : Except String String) :
    ∃ t, s.turn? turn = some t ∧ t.id = turn ∧ s.turns.Perm (t :: (s.leave turn).turns) ∧
      s.next (.turnEnds turn result) = (s.leave turn).finish t result := by
  obtain ⟨t,ht,hid,hfind⟩ := s.turn?_eq h
  exact ⟨t,hfind,hid,perm_cons_eraseP hfind,by simp only [next,hfind]⟩

end AgentState

def conversation : Machine AgentState Event where
  enabled := AgentState.Enabled
  next := AgentState.next

instance (s : AgentState) (e : Event) : Decidable (conversation.enabled s e) :=
  inferInstanceAs (Decidable (s.Enabled e))

end Rullama.Agent
