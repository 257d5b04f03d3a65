import Rullama.PlanMode.State
import Rullama.Transition.Machine
import Mathlib.Logic.Function.Basic

/-! # Sessions of the terminal interface

The displayed messages are kept in a store to which messages can only be appended, one
list for each conversation. A save finds out what is stored already by counting it.
-/
namespace Rullama.Tui
open PlanMode (byteSlice isCharBoundary byteSlice_isSome)
open Transition (Machine)

structure TuiMessage where
  role : String
  content : String
  createdAt : ℤ
deriving DecidableEq

structure App where
  sessionId : String
  messages : List TuiMessage := []
  streamingMsgIdx : Option ℕ := none
  streamingContent : String := ""
  streamingUserContent : Option String := none
  pendingResumeAi : Bool := false
  /-- the rows of `message_store`, by conversation -/
  stored : String → List TuiMessage := fun _ => []

/-- Adds a list of messages one by one, going on after an add that failed. -/
def addAll : (ℕ → Bool) → List TuiMessage → List TuiMessage → List TuiMessage
  | _, stored, [] => stored
  | added, stored, m :: ms =>
    addAll (fun i => added (i + 1)) (if added 0 then stored ++ [m] else stored) ms

/-- The title of a conversation; `none` where the slice of the first 47 bytes panics. -/
def title : List TuiMessage → Option String
  | [] => some "Backgrounded session"
  | m :: _ =>
    if 50 < m.content.utf8ByteSize then
      (byteSlice m.content.toList 47).map (fun cs => .ofList cs ++ "...")
    else some m.content

namespace App
variable (s : App)

/-- Sets the content of the message that is streamed, where there is one. -/
def setStreaming (content : String) : List TuiMessage :=
  match s.streamingMsgIdx with
  | none => s.messages
  | some idx => s.messages.modify idx (fun m => { m with content })

def appendMessage (m : TuiMessage) : App := { s with messages := s.messages ++ [m] }

/-- `call_ai_provider`, and `call_ai_provider_ipc` where the user's text is not kept. -/
def startReply (userContent : Option String) (now : ℤ) : App :=
  { s with
    messages := s.messages ++ [⟨"assistant","",now⟩]
    streamingContent := ""
    streamingMsgIdx := some s.messages.length
    streamingUserContent := userContent <|> s.streamingUserContent }

def streamText (text : String) : App :=
  let content := s.streamingContent ++ text
  { s with messages := s.setStreaming content, streamingContent := content }

/-- The end of a reply that the session process has streamed. -/
def streamEnd : App := { s with streamingMsgIdx := none }

def cancelReply : App :=
  { s with streamingContent := "", streamingMsgIdx := none, streamingUserContent := none }

/-- What `save_conversation_to_storage` adds. -/
def exchange (userContent responseContent : String) (now : ℤ) : List TuiMessage :=
  if responseContent = "" then []
  else [⟨"user",userContent,now⟩,⟨"assistant",responseContent,now⟩]

def addToSession (added : ℕ → Bool) (ms : List TuiMessage) : String → List TuiMessage :=
  Function.update s.stored s.sessionId (addAll added (s.stored s.sessionId) ms)

/-- The end of a reply streamed by the provider itself, without its question block. -/
def finalizeStream (cleanContent : String) (now : ℤ) (added : ℕ → Bool) : App :=
  { s with
    messages := s.setStreaming cleanContent
    streamingContent := ""
    streamingMsgIdx := none
    streamingUserContent := none
    stored := s.addToSession added
      (exchange (s.streamingUserContent.getD "") cleanContent now) }

/-- How many messages are taken to be stored; a read that fails counts none. -/
def existingCount (reads : Bool) : ℕ := if reads then (s.stored s.sessionId).length else 0

def messagesToSave (existingCount : ℕ) : List TuiMessage :=
  ((s.messages.zipIdx.drop existingCount).filter
    (fun p => s.streamingMsgIdx ≠ some p.2)).map Prod.fst

/-- `none` where it panics. Whether the conversation's record could be created plays no role. -/
def forceSaveConversation (reads : Bool) (added : ℕ → Bool) : Option App :=
  if s.messages = [] then some s
  else
    match title s.messages with
    | none => none
    | some _ => some { s with
        stored := s.addToSession added (s.messagesToSave (s.existingCount reads)) }

/-- `none` where the status line, which has the first 8 bytes of the id, panics. -/
def loadSession (conversationId : String) (reads : Bool) : Option App :=
  if reads then
    match byteSlice conversationId.toList (min 8 conversationId.utf8ByteSize) with
    | none => none
    | some _ =>
      let messages := s.stored conversationId
      some { s with
        messages
        sessionId := conversationId
        pendingResumeAi :=
          s.pendingResumeAi || messages.getLast?.any (fun m => m.role = "user") }
  else some s

end App

inductive SessionEvent where
  | append (m : TuiMessage)
  | startReply (userContent : Option String) (now : ℤ)
  | streamText (text : String)
  | streamEnd
  | cancelReply
  | finalizeStream (cleanContent : String) (now : ℤ) (added : ℕ → Bool)
  | forceSave (reads : Bool) (added : ℕ → Bool)
  | load (conversationId : String) (reads : Bool)

/-- Nothing comes after a panic; the state is then left as it was. -/
def App.next (s : App) : SessionEvent → App
  | .append m => s.appendMessage m
  | .startReply userContent now => s.startReply userContent now
  | .streamText text => s.streamText text
  | .streamEnd => s.streamEnd
  | .cancelReply => s.cancelReply
  | .finalizeStream cleanContent now added => s.finalizeStream cleanContent now added
  | .forceSave reads added => (s.forceSaveConversation reads added).getD s
  | .load conversationId reads => (s.loadSession conversationId reads).getD s

def sessions : Machine App SessionEvent where
  enabled := fun _ _ => True
  next := App.next

end Rullama.Tui
