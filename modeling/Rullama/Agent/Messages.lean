import Rullama.Tools.Executor

/-! # Messages of the agent process

The history that goes to the provider, the messages that viewers display, and what the
agent broadcasts to them. Time stamps, session and model names, and the fields of a message
that the agent never sets are left out.
-/
namespace Rullama.Agent
open Tools

/-! ## The conversation -/

inductive Role where
  | system
  | user
  | assistant
  | tool
deriving DecidableEq

inductive ContentBlock where
  | text (content : String)
  | toolUse (call : ToolUse)
  | toolResult (toolUseId content : String)

inductive MessageContent where
  | text (content : String)
  | blocks (blocks : List ContentBlock)

structure Message where
  role : Role
  content : MessageContent

namespace Message

def user (content : String) : Message := ⟨.user,.text content⟩

def assistant (content : String) : Message := ⟨.assistant,.text content⟩

def toolResult (callId output : String) : Message := ⟨.tool,.blocks [.toolResult callId output]⟩

end Message

/-- A message of `conversation_history`. The turn that it opened or that it is the reply of
is a ghost. -/
structure Entry where
  message : Message
  turn : Option ℕ

/-- What a viewer shows. The place in the conversation is a ghost; it tells apart messages
of one text. -/
structure DisplayMessage where
  place : ℕ
  role : String
  content : String
deriving DecidableEq

/-! ## What the agent broadcasts -/

inductive ParentSignalType where
  | parentExiting
  | shutdown
  | detached
deriving DecidableEq

inductive AgentMessage where
  | ack (command : String)
  | conversationSync (messages : List DisplayMessage) (status : String) (isBusy : Bool)
  | taskUpdate
  | messageAdded (message : DisplayMessage)
  | statusUpdate (status : String)
  | error (message : String) (fatal : Bool)
  | streamChunk (text : String)
  | streamEnd (finishReason : Option String)
  | toolCallStart (call : ToolUse) (server : Option String)
  | toolResult (id name : String) (output error : Option String)
  | slashCommandResult (command : String) (success : Bool) (output actionTaken error : Option String)
      (blocked : Bool)
  | parentSignalReceived (signal : ParentSignalType)
  | planModeEntered (messages : List DisplayMessage)
  | planModeExited
  | planModeMessageAdded (message : DisplayMessage)
  | planModeStreamChunk (text : String)
  | planModeStreamEnd (finishReason : Option String)

/-- The conversation messages that an update carries. -/
def AgentMessage.shows : AgentMessage → List DisplayMessage
  | .conversationSync messages _ _ => messages
  | .messageAdded message => [message]
  | _ => []

end Rullama.Agent
