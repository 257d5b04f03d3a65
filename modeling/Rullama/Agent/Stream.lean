import Rullama.Agent.Messages

/-! # The agentic loop

`stream_with_tool_execution` over one provider stream and, through the continuations, over
the streams that answer it. A stream is given with all that the loop meets on it: its
chunks, what the executor says to each call, and the stream that the provider opens for the
continuation. A turn that never ends is one that stalls, at any depth.
-/
namespace Rullama.Agent
open Tools

inductive ChunkStream where
  /-- `stream.next()` is `None` -/
  | ended
  /-- no chunk comes any more -/
  | stalls
  | text (text : String) (rest : ChunkStream)
  /-- `StreamChunk::ToolCall`, the outcome of `tool_executor.execute` and the stream of the
  continuation; the last two are looked at only if the loop gets there -/
  | toolCall (call : ToolUse) (server : String) (outcome : Except String ToolResult)
      (continuation rest : ChunkStream)
  | done
  | other (rest : ChunkStream)
  | error (e : String)

/-- A call of `provider.stream_chat`, and what came of it. -/
structure Request where
  history : List Message
  stream : ChunkStream

structure StreamRun where
  sent : List AgentMessage := []
  requests : List Request := []
  executed : List ToolUse := []
  /-- none when the turn stalls or its task panics -/
  result : Option (Except String String)

/-! ## Output of tools -/

/-- The longest part of the text that has at most so many bytes. -/
def takeBytes : ℕ → List Char → List Char
  | _, [] => []
  | max, c :: cs => if c.utf8Size ≤ max then c :: takeBytes (max - c.utf8Size) cs else []

def truncateOnCharBoundary (s : String) (max : ℕ) : String :=
  if s.utf8ByteSize ≤ max then s else .ofList (takeBytes max s.toList)

def isCharBoundary : List Char → ℕ → Bool
  | _, 0 => true
  | [], _ + 1 => false
  | c :: cs, n + 1 => c.utf8Size ≤ n + 1 && isCharBoundary cs (n + 1 - c.utf8Size)

def MAX_TOOL_OUTPUT_CHARS : ℕ := 10000

def truncatedOutput (content : String) : String :=
  if content.utf8ByteSize > MAX_TOOL_OUTPUT_CHARS then
    truncateOnCharBoundary content MAX_TOOL_OUTPUT_CHARS ++ "\n\n[Output truncated: " ++
      toString MAX_TOOL_OUTPUT_CHARS ++ " of " ++ toString content.utf8ByteSize ++ " characters]"
  else content

/-- What viewers see of an output. -/
def shownOutput (output : String) : String :=
  if output.utf8ByteSize > 200 then truncateOnCharBoundary output 200 ++ "..." else output

/-- `&continuation_text[..100]` in the log panics, where the log is on. -/
def previewPanics (logs : Bool) (text : String) : Bool :=
  logs && text.utf8ByteSize > 100 && !isCharBoundary text.toList 100

/-! ## The loop -/

def callStarted (call : ToolUse) (server : String) : List AgentMessage :=
  [.toolCallStart call (some server),.statusUpdate ("⚙️ Executing: " ++ call.name ++ "...")]

def callResult (call : ToolUse) (result : ToolResult) : AgentMessage :=
  let output := truncatedOutput result.content
  .toolResult call.id call.name (if result.isError then none else some (shownOutput output))
    (if result.isError then some output else none)

def callError (call : ToolUse) (e : String) : AgentMessage :=
  .toolResult call.id call.name none (some ("Error: " ++ e))

/-- The history of `stream_continuation_with_tool_result`. -/
def updatedHistory (history : List Message) (call : ToolUse) (output : String) : List Message :=
  history ++ [⟨.assistant,.blocks [.toolUse call]⟩,.toolResult call.id output]

namespace StreamRun

def after (sent : List AgentMessage) (executed : List ToolUse) (run : StreamRun) : StreamRun :=
  { run with sent := sent ++ run.sent, executed := executed ++ run.executed }

/-- The end of the loop: `StreamEnd` and the response. -/
def finished (response : String) : StreamRun where
  sent := [.streamEnd (some "stop")]
  result := some (.ok response)

/-- The loop after its continuation, with the text that it has itself. -/
def afterContinuation (logs : Bool) (response : String) (continuation : StreamRun) : StreamRun :=
  match continuation.result with
  | none => continuation
  | some (.ok text) =>
    if previewPanics logs text then { continuation with result := none }
    else { continuation with
      sent := continuation.sent ++ [.streamEnd (some "stop")]
      result := some (.ok (response ++ text)) }
  | some (.error e) => { continuation with
      sent := continuation.sent ++
        [.error ("Continuation failed: " ++ e) false,.streamEnd (some "stop")]
      result := some (.ok response) }

end StreamRun

/-- The loop over one stream, with the response so far. -/
def readStream (logs : Bool) (history : List Message) (response : String) :
    ChunkStream → StreamRun
  | .ended => .finished response
  | .stalls => { result := none }
  | .text text rest => (readStream logs history (response ++ text) rest).after [.streamChunk text] []
  | .done => (StreamRun.finished response).after [.streamEnd (some "stop")] []
  | .other rest => readStream logs history response rest
  | .error e => { sent := [.error e false], result := some (.error e) }
  | .toolCall call server outcome continuation rest =>
    if server ≠ "cli-local" then readStream logs history response rest
    else
      match outcome with
      | .error e =>
        (readStream logs history response rest).after
          (callStarted call server ++ [callError call e]) [call]
      | .ok result =>
        let history' := updatedHistory history call (truncatedOutput result.content)
        let run := readStream logs history' "" continuation
        ({ run with requests := ⟨history',continuation⟩ :: run.requests }.afterContinuation
          logs response).after (callStarted call server ++
            [callResult call result,.statusUpdate "Processing tool result..."]) [call]

def streamWithToolExecution (logs : Bool) (history : List Message) (stream : ChunkStream) :
    StreamRun :=
  let run := readStream logs history "" stream
  { run with requests := ⟨history,stream⟩ :: run.requests }

/-! ## Where the loop leaves a stream -/

inductive Leaving where
  | ranOut
  | stalled
  | done
  | failed (e : String)
  | called (call : ToolUse) (result : ToolResult) (continuation : ChunkStream)

namespace ChunkStream

def leaving : ChunkStream → Leaving
  | .ended => .ranOut
  | .stalls => .stalled
  | .done => .done
  | .error e => .failed e
  | .text _ rest => rest.leaving
  | .other rest => rest.leaving
  | .toolCall call server outcome continuation rest =>
    if server ≠ "cli-local" then rest.leaving
    else
      match outcome with
      | .error _ => rest.leaving
      | .ok result => .called call result continuation

/-- The text of the chunks that the loop reads. -/
def spoken : ChunkStream → String
  | .text t rest => t ++ rest.spoken
  | .other rest => rest.spoken
  | .toolCall _ server outcome _ rest =>
    if server ≠ "cli-local" then rest.spoken
    else
      match outcome with
      | .error _ => rest.spoken
      | .ok _ => ""
  | .ended | .stalls | .done | .error _ => ""

/-- The calls that the executor refuses before one gets a result. -/
def refused : ChunkStream → List ToolUse
  | .text _ rest => rest.refused
  | .other rest => rest.refused
  | .toolCall call server outcome _ rest =>
    if server ≠ "cli-local" then rest.refused
    else
      match outcome with
      | .error _ => call :: rest.refused
      | .ok _ => []
  | .ended | .stalls | .done | .error _ => []

/-- What is sent for these chunks and calls. -/
def announced : ChunkStream → List AgentMessage
  | .text t rest => .streamChunk t :: rest.announced
  | .other rest => rest.announced
  | .toolCall call server outcome _ rest =>
    if server ≠ "cli-local" then rest.announced
    else
      match outcome with
      | .error e => callStarted call server ++ callError call e :: rest.announced
      | .ok _ => []
  | .ended | .stalls | .done | .error _ => []

end ChunkStream

/-- The run from the point where the loop leaves its stream. -/
def leave (logs : Bool) (history : List Message) (response : String) : Leaving → StreamRun
  | .ranOut => .finished response
  | .stalled => { result := none }
  | .done => (StreamRun.finished response).after [.streamEnd (some "stop")] []
  | .failed e => { sent := [.error e false], result := some (.error e) }
  | .called call result continuation =>
    ((streamWithToolExecution logs
      (updatedHistory history call (truncatedOutput result.content))
        continuation).afterContinuation logs response).after
      (callStarted call "cli-local" ++
        [callResult call result,.statusUpdate "Processing tool result..."]) [call]

namespace StreamRun
variable (run : StreamRun)

@[simp] theorem after_nil : run.after [] [] = run := rfl

@[simp] theorem after_after (sent sent' : List AgentMessage) (executed executed' : List ToolUse) :
    (run.after sent' executed').after sent executed =
      run.after (sent ++ sent') (executed ++ executed') := by
  simp [after,List.append_assoc]

end StreamRun

/-- One pass over a stream: what it says and refuses, and then where it is left. -/
theorem readStream_eq (logs : Bool) (history : List Message) (response : String)
    (stream : ChunkStream) : readStream logs history response stream =
      (leave logs history (response ++ stream.spoken) stream.leaving).after
        stream.announced stream.refused := by
  induction stream generalizing response with
  | ended | done =>
    simp only [readStream,ChunkStream.spoken,ChunkStream.leaving,ChunkStream.announced,
      ChunkStream.refused,leave,String.append_empty,StreamRun.after_nil]
  | stalls | error => rfl
  | text text rest ih =>
    rw [readStream,ih,StreamRun.after_after,String.append_assoc]
    rfl
  | other rest ih => exact ih response
  | toolCall call server outcome continuation rest ihc ih =>
    by_cases hserver : server = "cli-local"
    · subst hserver
      cases outcome with
      | error e =>
        simp only [readStream,ChunkStream.spoken,ChunkStream.leaving,ChunkStream.announced,
          ChunkStream.refused,ne_eq,not_true_eq_false,↓reduceIte,ih,StreamRun.after_after]
        simp
      | ok result =>
        simp only [readStream,ChunkStream.spoken,ChunkStream.leaving,ChunkStream.announced,
          ChunkStream.refused,ne_eq,not_true_eq_false,↓reduceIte,leave,String.append_empty,
          StreamRun.after_nil]
        rfl
    · simp only [readStream,ChunkStream.spoken,ChunkStream.leaving,ChunkStream.announced,
        ChunkStream.refused,ne_eq,hserver,not_false_eq_true,↓reduceIte,ih]

end Rullama.Agent
