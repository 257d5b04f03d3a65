import Rullama.Text.Chunks
import Rullama.Text.Search
import Rullama.ToolCalls.ToolCall

/-! # Parsing a reply

A reply of the model is split into prose, blocks of reasoning and tool calls. The results of
executed tools are taken out of it first and attached to the calls at the end.
-/
namespace Rullama.ToolCalls
open Text

/-- `s.includes(m)` -/
def includes (m s : Units) : Bool := (cut m s).isSome

/-! ## Executed results -/

structure ToolResult where
  name : Option Units
  text : Units

def responseTag : Units := units "<tool_response"

/-- `<tool_response(?:\s+for="([^"]*)")?>` at the front of a text. -/
def responseOpen (s : Units) : Option (Option Units × Units) :=
  match past responseTag s with
  | none => none
  | some s =>
    match past [unit '>'] s with
    | some s => some (none,s)
    | none =>
      if s.head?.any isSpace then
        match past (units "for=\"") (s.dropWhile isSpace) with
        | none => none
        | some s =>
          match cut [unit '"'] s with
          | none => none
          | some (value,s) => (past [unit '>'] s).map (fun s => (some value,s))
      else none

/-- A whole `<tool_response>` at the front of a text. -/
def responseSpan (s : Units) : Option (ToolResult × Units) :=
  match responseOpen s with
  | none => none
  | some (name,s) => (cut toolResponseClose s).map (fun p => (⟨name,trim p.1⟩,p.2))

/-- The replacement looks for a span at each place, and copies one unit where there is none. -/
def nextPlace (s : Units) : Option ((ToolResult ⊕ UInt16) × Units) :=
  match responseSpan s with
  | some (res,rest) => some (.inl res,rest)
  | none =>
    match s with
    | [] => none
    | c :: cs => some (.inr c,cs)

/-- The results in a reply. -/
def results (raw : Units) : List ToolResult := (split nextPlace raw).1.filterMap Sum.getLeft?

/-- The reply without the spans of its results. -/
def cleaned (raw : Units) : Units := (split nextPlace raw).1.filterMap Sum.getRight?

/-! ## Calls -/

/-- A call ends at its closer, or with its object, or is still streaming. -/
inductive Ending where
  | closed
  | balanced
  | streaming
  deriving DecidableEq

structure Found where
  before : Units
  inner : Units
  ending : Ending

/-- An opening tag may lack its `>`. -/
def skipBracket (s : Units) : Units :=
  match s with
  | [] => []
  | c :: cs => if c = unit '>' then cs else s

/-- Braces and white space after an object are dropped. -/
def swallow (s : Units) : Units := s.dropWhile (fun c => c = unit '}' || isSpace c)

/-- The next call with the text before it. Nothing is read after a call that is streaming. -/
def nextCall (s : Units) : Option (Found × Units) :=
  match cut toolCallOpenPrefix s with
  | none => none
  | some (before,after) =>
    let body := skipBracket after
    match cut toolCallClose body with
    | some (inner,rest) => some (⟨before,inner,.closed⟩,rest)
    | none =>
      match matchJsonEnd body with
      | some (inner,rest) => some (⟨before,inner,.balanced⟩,swallow rest)
      | none => some (⟨before,body,.streaming⟩,[])

def Found.call (f : Found) : ToolCall := toCall f.inner (f.ending = .streaming)

/-! ## Segments -/

/-- A call is an object that the list of calls holds as well: it is given by its place there. -/
inductive Segment (κ : Type) where
  | thinking (text : Units) (isThinking isComplete : Bool)
  | prose (text : Units)
  | call (c : κ)

structure Reading where
  calls : List ToolCall := []
  prose : Units := []
  pending : Bool := false
  segments : List (Segment ℕ) := []

/-- A block of reasoning with the text before it. One that is open runs to the end. -/
def nextThought (s : Units) : Option ((Units × Units × Bool) × Units) :=
  match cut channelOpen s with
  | none => none
  | some (before,after) =>
    match cut channelClose after with
    | some (thought,rest) => some ((before,thought,true),rest)
    | none => some ((before,after,false),[])

def addText (st : Reading) (text : Units) : Reading :=
  { st with
    prose := st.prose ++ text
    segments := if trim text = [] then st.segments else st.segments ++ [.prose (trim text)] }

/-- `.replace(/^\n/, "")` -/
def dropNewline (s : Units) : Units :=
  match s with
  | [] => []
  | c :: cs => if c = unit '\n' then cs else s

def addThought (st : Reading) (t : Units × Units × Bool) : Reading :=
  let st := addText st t.1
  { st with segments := st.segments ++ [.thinking (dropNewline t.2.1) (!t.2.2) t.2.2] }

def addProse (st : Reading) (text : Units) : Reading :=
  let r := split nextThought text
  addText (r.1.foldl addThought st) r.2

def addCall (st : Reading) (c : ToolCall) : Reading :=
  { st with
    calls := st.calls ++ [c]
    segments := st.segments ++ [.call st.calls.length] }

def addFound (st : Reading) (f : Found) : Reading :=
  let st := addCall (addProse st f.before) f.call
  { st with pending := st.pending || f.ending = .streaming }

def read (text : Units) : Reading :=
  let r := split nextCall text
  addProse (r.1.foldl addFound {}) r.2

/-! ## Attaching the results -/

section Attach

variable (lower : Units → Units)

/-- The first call of the name that has no result yet. -/
def byName (calls : List ToolCall) (name : Option Units) : Option ℕ :=
  match name with
  | none => none
  | some name =>
    if name = [] then none
    else calls.findIdx? (fun c => c.result.isNone && lower c.name = lower name)

/-- The calls and `posIdx` after one result. -/
def attach (st : List ToolCall × ℕ) (res : ToolResult) : List ToolCall × ℕ :=
  let fill (c : ToolCall) : ToolCall := { c with result := some res.text }
  match byName lower st.1 res.name with
  | some i => (st.1.modify i fill,st.2)
  | none =>
    let posIdx := st.2 + ((st.1.drop st.2).takeWhile (·.result.isSome)).length
    (st.1.modify posIdx fill,posIdx)

def attachAll (calls : List ToolCall) (results : List ToolResult) : List ToolCall :=
  (results.foldl (attach lower) (calls,0)).1

/-! ## The parser -/

structure ParsedToolCalls where
  calls : List ToolCall
  prose : Units
  pending : Bool
  segments : List (Segment ToolCall)

/-- A segment with the call that it holds. -/
def Segment.resolve (calls : List ToolCall) : Segment ℕ → Option (Segment ToolCall)
  | .thinking text isThinking isComplete => some (.thinking text isThinking isComplete)
  | .prose text => some (.prose text)
  | .call i => calls[i]?.map .call

/-- A reply without calls and reasoning is prose as it stands. -/
def plain (raw : Units) : Bool :=
  raw.isEmpty || (!includes toolCallOpenPrefix raw && !includes channelOpen raw)

def parseToolCalls (raw : Units) : ParsedToolCalls :=
  if plain raw then ⟨[],raw,false,if trim raw = [] then [] else [.prose raw]⟩
  else
    let st := read (cleaned raw)
    let calls := attachAll lower st.calls (results raw)
    ⟨calls,trim st.prose,st.pending,st.segments.filterMap (Segment.resolve calls)⟩

end Attach

end Rullama.ToolCalls
