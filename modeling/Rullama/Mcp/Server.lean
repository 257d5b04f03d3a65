import Rullama.Mcp.Routing
import Rullama.Tools.Executor
import Rullama.Transition.Machine

/-! # The MCP server's request loop

The server reads lines, one request each, and writes responses. What the handlers call,
the parsers of requests and parameters among it, is a parameter; it may fail wherever the
code lets it fail.
-/
namespace Rullama.Mcp
open Transition
open Tools (Value startsWith trim ToolUse ToolResult)

structure JsonRpcRequest where
  id : Option Value
  method : String
  params : Option Value

structure JsonRpcError where
  code : ℤ
  message : String
  data : Option Value

structure JsonRpcResponse where
  id : Value
  result : Option Value
  error : Option JsonRpcError

structure CallToolParams where
  name : String
  arguments : Option (List (String × Value))

inductive AgentTool where
  | spawn
  | list
  | status
  | stop
  | await
  | poolStats
  | fileLocks

inductive ToolCategory where
  | agentPool
  | taskManager
  | sessionTask
  | planning
  | context
  | other
deriving DecidableEq

structure RegisteredTool where
  name : String
  description : String
  category : ToolCategory
  inputSchema : Value

inductive ServerResult where
  | initializeResult (protocolVersion name version : String) (listChanged : Bool)
  | listTools (tools : List McpTool)
  | callTool (result : CallToolResult)

/-- What the handlers call, on a state of its own. -/
structure Handlers (σ : Type*) where
  parseRequest : String → Except String JsonRpcRequest
  parseInitialize : Value → Except String Unit
  parseCallTool : Value → Except String CallToolParams
  toValue : ServerResult → Value
  version : String
  fullAccess : Option Value
  toolRegistry : List RegisteredTool
  agentTools : List RegisteredTool
  currentDir : σ → Except String String
  execute : ToolUse → String → Option Value → σ → σ × Except String ToolResult
  agentTool : AgentTool → Value → σ → σ × Except String String
  runSelfImprovement : Value → σ → σ × Except String String

structure ServerState (σ : Type*) where
  requestId : ℕ
  world : σ

def AgentTool.ofName : String → Option AgentTool
  | "agent_spawn" => some .spawn
  | "agent_list" => some .list
  | "agent_status" => some .status
  | "agent_stop" => some .stop
  | "agent_await" => some .await
  | "agent_pool_stats" => some .poolStats
  | "agent_file_locks" => some .fileLocks
  | _ => none

def allowedTools : List String :=
  ["task_create", "task_add_subtask", "task_start", "task_complete", "task_fail",
    "task_add_dependency", "task_get_tree", "task_get_ready", "task_get_stats",
    "task_list_write", "plan_task", "recall_context"]

def isMcpAllowedTool (toolName : String) : Bool :=
  startsWith toolName "agent_" || startsWith toolName "self_improve_" ||
    allowedTools.contains toolName

def CallToolResult.success (content : List RawContent) : CallToolResult := ⟨some false,content⟩
def CallToolResult.error (content : List RawContent) : CallToolResult := ⟨some true,content⟩

/-- The arguments of a call, or an empty object. -/
def CallToolParams.input (params : CallToolParams) : Value := .object (params.arguments.getD [])

def JsonRpcRequest.paramsOrEmpty (request : JsonRpcRequest) : Value :=
  request.params.getD (.object [])

/-- The id of a response; a request without one is answered with null. -/
def JsonRpcRequest.responseId (request : JsonRpcRequest) : Value := request.id.getD .null

def JsonRpcRequest.fail (request : JsonRpcRequest) (code : ℤ) (message : String) :
    JsonRpcResponse where
  id := request.responseId
  result := none
  error := some ⟨code,message,none⟩

def parseError (e : String) : JsonRpcResponse where
  id := .null
  result := none
  error := some ⟨-32700,"Parse error: " ++ e,none⟩

variable {σ : Type*} (H : Handlers σ) (s : ServerState σ)

namespace Handlers

def succeed (request : JsonRpcRequest) (result : ServerResult) : JsonRpcResponse where
  id := request.responseId
  result := some (H.toValue result)
  error := none

def handleInitialize (request : JsonRpcRequest) : Except String JsonRpcResponse :=
  match H.parseInitialize request.paramsOrEmpty with
  | .error _ => .error "Invalid initialize params"
  | .ok () => .ok (H.succeed request (.initializeResult "2024-11-05" "rullama-cli" H.version false))

def byCategory (category : ToolCategory) : List RegisteredTool :=
  H.toolRegistry.filter (fun t => t.category = category)

def handleListTools (request : JsonRpcRequest) : JsonRpcResponse :=
  let tools := H.agentTools ++
    (H.byCategory .agentPool).filter
      (fun t => t.name = "agent_pool_stats" || t.name = "agent_file_locks") ++
    H.byCategory .taskManager ++ H.byCategory .sessionTask ++ H.byCategory .planning ++
    H.byCategory .context
  H.succeed request (.listTools (tools.map (fun t =>
    ⟨t.name,some t.description,t.inputSchema.asObject.getD []⟩)))

def handleAgentToolCall (request : JsonRpcRequest) (params : CallToolParams) :
    ServerState σ × JsonRpcResponse :=
  let (world,result) :=
    match AgentTool.ofName params.name with
    | some tool => H.agentTool tool params.input s.world
    | none => (s.world,.error ("Unknown agent tool: " ++ params.name))
  let toolResult :=
    match result with
    | .ok content => CallToolResult.success [.text content]
    | .error e => .error [.text ("Error: " ++ e)]
  ({ s with world },H.succeed request (.callTool toolResult))

def handleSelfImproveToolCall (request : JsonRpcRequest) (params : CallToolParams) :
    ServerState σ × JsonRpcResponse :=
  let (world,resultText) :=
    match params.name with
    | "self_improve_start" =>
      match H.runSelfImprovement params.input s.world with
      | (world,.ok report) => (world,report)
      | (world,.error e) => (world,"Self-improvement failed: " ++ e)
    | "self_improve_status" => (s.world,
      "Self-improvement status: no active session " ++
        "(sessions run synchronously via self_improve_start)")
    | "self_improve_stop" => (s.world,
      "Self-improvement sessions run synchronously " ++
        "- use timeout or budget limits to control duration")
    | name => (s.world,"Unknown self-improvement tool: " ++ name)
  ({ s with world },H.succeed request (.callTool (.success [.text resultText])))

/-- The part of `handle_call_tool` that runs a tool with the executor. -/
def handleRegularToolCall (request : JsonRpcRequest) (params : CallToolParams) :
    ServerState σ × Except String JsonRpcResponse :=
  let s := { s with requestId := s.requestId + 1 }
  let toolUse : ToolUse := ⟨"tool-" ++ toString s.requestId,params.name,params.input⟩
  match H.currentDir s.world with
  | .error e => (s,.error e)
  | .ok dir =>
    match H.execute toolUse dir H.fullAccess s.world with
    | (world,.error e) => ({ s with world },.error e)
    | (world,.ok result) =>
      let toolResult := if result.isError then CallToolResult.error [.text result.content]
        else .success [.text result.content]
      ({ s with world },.ok (H.succeed request (.callTool toolResult)))

def notAvailable (name : String) : String :=
  "Tool '" ++ name ++ "' is not available via MCP. " ++
    "Use agent_spawn to create an agent that can use this tool internally."

def handleCallTool (request : JsonRpcRequest) : ServerState σ × Except String JsonRpcResponse :=
  match H.parseCallTool request.paramsOrEmpty with
  | .error _ => (s,.error "Invalid call tool params")
  | .ok params =>
    if startsWith params.name "agent_" then
      let (s,response) := H.handleAgentToolCall s request params
      (s,.ok response)
    else if startsWith params.name "self_improve_" then
      let (s,response) := H.handleSelfImproveToolCall s request params
      (s,.ok response)
    else if isMcpAllowedTool params.name = false then
      (s,.ok (request.fail (-32602) (notAvailable params.name)))
    else H.handleRegularToolCall s request params

def handleRequest (request : JsonRpcRequest) : ServerState σ × Except String JsonRpcResponse :=
  match request.method with
  | "initialize" => (s,H.handleInitialize request)
  | "tools/list" => (s,.ok (H.handleListTools request))
  | "tools/call" => H.handleCallTool s request
  | _ => (s,.ok (request.fail (-32601) "Method not found"))

/-- The body of the loop: the next state, and what is written for the line. -/
def handleLine (line : String) : ServerState σ × List JsonRpcResponse :=
  if trim line = "" then (s,[])
  else
    match H.parseRequest line with
    | .error e => (s,[parseError e])
    | .ok request =>
      match H.handleRequest s request with
      | (s,.ok response) => (s,[response])
      | (s,.error _) => (s,[])

end Handlers

inductive Io where
  | read (line : String)
  | write (response : JsonRpcResponse)

def server : Machine (ServerState σ) String where
  enabled _ _ := True
  next s line := (H.handleLine s line).1

/-- What `run` reads and writes. -/
def Handlers.run : ServerState σ → List String → List Io
  | _, [] => []
  | s, line :: lines =>
    .read line :: ((H.handleLine s line).2.map .write ++ run (H.handleLine s line).1 lines)

/-! ## Pairing -/

def JsonRpcResponse.IsParseError (response : JsonRpcResponse) : Prop :=
  response.id = .null ∧ response.result = none ∧
    ∃ error, response.error = some error ∧ error.code = -32700

/-- One response with the request's id, or none for a notification. -/
def JsonRpcRequest.AnsweredBy (request : JsonRpcRequest) (responses : List JsonRpcResponse) :
    Prop :=
  match request.id with
  | none => responses = []
  | some id => ∃ response, responses = [response] ∧ response.id = id

/-- These are the responses due to the line. -/
def Handlers.Answered (line : String) (responses : List JsonRpcResponse) : Prop :=
  match H.parseRequest line with
  | .error _ => ∃ response, responses = [response] ∧ response.IsParseError
  | .ok request => request.AnsweredBy responses

/-- The responses written before the next line is read. -/
def written : List Io → List JsonRpcResponse
  | .write response :: io => response :: written io
  | _ => []

def Handlers.AllAnswered : List Io → Prop
  | [] => True
  | .read line :: io => H.Answered line (written io) ∧ AllAnswered io
  | .write _ :: io => AllAnswered io

/-- Nothing is written unasked, and every line is answered before the next is read. -/
def Handlers.Paired (io : List Io) : Prop := written io = [] ∧ H.AllAnswered io

/-- The executor is reached for a regular tool, and gives a result. -/
def Handlers.CallSucceeds (params : CallToolParams) : Prop :=
  startsWith params.name "agent_" = false → startsWith params.name "self_improve_" = false →
    isMcpAllowedTool params.name = true →
    ∃ dir, H.currentDir s.world = .ok dir ∧
      ∃ result, (H.execute ⟨"tool-" ++ toString (s.requestId + 1),params.name,params.input⟩
        dir H.fullAccess s.world).2 = .ok result

/-- The parameters of the request are read, and a regular tool runs. -/
def Handlers.Succeeds (request : JsonRpcRequest) : Prop :=
  match request.method with
  | "initialize" => H.parseInitialize request.paramsOrEmpty = .ok ()
  | "tools/call" =>
    ∃ params, H.parseCallTool request.paramsOrEmpty = .ok params ∧ H.CallSucceeds s params
  | _ => True

/-- The line is not blank; a request on it succeeds, and a notification does not. -/
def Handlers.Answerable (line : String) : Prop :=
  trim line ≠ "" ∧ ∀ request, H.parseRequest line = .ok request →
    (request.id.isSome = true ↔ H.Succeeds s request)

variable {H s} {request : JsonRpcRequest} {params : CallToolParams} {response : JsonRpcResponse}

theorem JsonRpcRequest.answeredBy_nil : request.AnsweredBy [] ↔ request.id = none := by
  unfold AnsweredBy
  cases request.id with
  | none => simp
  | some id => simp

theorem JsonRpcRequest.answeredBy_singleton (hid : response.id = request.responseId) :
    request.AnsweredBy [response] ↔ request.id.isSome = true := by
  unfold AnsweredBy
  unfold responseId at hid
  cases hrequest : request.id with
  | none => simp
  | some id => simp [hid,hrequest]

namespace Handlers

theorem handleInitialize_ok_iff : (∃ response, H.handleInitialize request = .ok response) ↔
    H.parseInitialize request.paramsOrEmpty = .ok () := by
  unfold handleInitialize
  cases H.parseInitialize request.paramsOrEmpty with
  | error e => simp
  | ok u => simp

theorem handleRegularToolCall_ok_iff :
    (∃ response, (H.handleRegularToolCall s request params).2 = .ok response) ↔
      ∃ dir, H.currentDir s.world = .ok dir ∧
        ∃ result, (H.execute ⟨"tool-" ++ toString (s.requestId + 1),params.name,params.input⟩
          dir H.fullAccess s.world).2 = .ok result := by
  simp only [handleRegularToolCall]
  cases H.currentDir s.world with
  | error e => simp
  | ok dir =>
    simp only [Except.ok.injEq,exists_eq_left']
    rcases H.execute ⟨"tool-" ++ toString (s.requestId + 1),params.name,params.input⟩ dir
      H.fullAccess s.world with ⟨world,e | result⟩
    · simp
    · simp

theorem handleCallTool_ok_iff :
    (∃ response, (H.handleCallTool s request).2 = .ok response) ↔
      ∃ params, H.parseCallTool request.paramsOrEmpty = .ok params ∧ H.CallSucceeds s params := by
  unfold handleCallTool CallSucceeds
  cases H.parseCallTool request.paramsOrEmpty with
  | error e => simp
  | ok params =>
    simp only [Except.ok.injEq,exists_eq_left']
    by_cases hagent : startsWith params.name "agent_" = true
    · simp [hagent]
    by_cases hself : startsWith params.name "self_improve_" = true
    · simp [hagent,hself]
    cases hallowed : isMcpAllowedTool params.name with
    | false => simp [hagent,hself]
    | true =>
      simp only [hagent,hself,Bool.false_eq_true,if_false,Bool.true_eq_false,
        handleRegularToolCall_ok_iff,forall_const]

theorem handleRequest_ok_iff :
    (∃ response, (H.handleRequest s request).2 = .ok response) ↔ H.Succeeds s request := by
  unfold handleRequest Succeeds
  split
  · rename_i hmethod
    simp only [hmethod]
    exact handleInitialize_ok_iff
  · rename_i hmethod
    simp [hmethod]
  · rename_i hmethod
    simp only [hmethod]
    exact handleCallTool_ok_iff
  · rename_i hinit hlist hcall
    split
    · exact absurd ‹_› hinit
    · exact absurd ‹_› hcall
    · simp

theorem handleRegularToolCall_id (h : (H.handleRegularToolCall s request params).2 = .ok response) :
    response.id = request.responseId := by
  revert h
  simp only [handleRegularToolCall]
  cases H.currentDir s.world with
  | error e =>
    intro h
    cases h
  | ok dir =>
    simp only
    rcases H.execute ⟨"tool-" ++ toString (s.requestId + 1),params.name,params.input⟩ dir
      H.fullAccess s.world with ⟨world,e | result⟩
    · intro h
      cases h
    · intro h
      cases h
      rfl

theorem handleCallTool_id (h : (H.handleCallTool s request).2 = .ok response) :
    response.id = request.responseId := by
  revert h
  unfold handleCallTool
  cases H.parseCallTool request.paramsOrEmpty with
  | error e =>
    intro h
    cases h
  | ok params =>
    simp only
    split
    · intro h
      cases h
      rfl
    split
    · intro h
      cases h
      rfl
    split
    · intro h
      cases h
      rfl
    · exact handleRegularToolCall_id

/-- Whatever is answered is answered under the request's id. -/
theorem handleRequest_id (h : (H.handleRequest s request).2 = .ok response) :
    response.id = request.responseId := by
  revert h
  unfold handleRequest
  split
  · unfold handleInitialize
    cases H.parseInitialize request.paramsOrEmpty with
    | error e =>
      intro h
      cases h
    | ok u =>
      intro h
      cases h
      rfl
  · intro h
    cases h
    rfl
  · exact handleCallTool_id
  · intro h
    cases h
    rfl

theorem handleLine_request {line : String} (hline : trim line ≠ "")
    (hparse : H.parseRequest line = .ok request) :
    (∃ response, (H.handleLine s line).2 = [response] ∧ response.id = request.responseId ∧
      H.Succeeds s request) ∨ ((H.handleLine s line).2 = [] ∧ ¬ H.Succeeds s request) := by
  rw [← handleRequest_ok_iff,handleLine,if_neg hline,hparse]
  simp only
  rcases hresult : H.handleRequest s request with ⟨s',e | response⟩
  · exact .inr ⟨rfl,by simp⟩
  · exact .inl ⟨response,rfl,handleRequest_id (by rw [hresult]),response,rfl⟩

theorem answered_iff (hblank : ∀ line, trim line = "" → ∃ e, H.parseRequest line = .error e)
    (line : String) : H.Answered line (H.handleLine s line).2 ↔ H.Answerable s line := by
  unfold Answered Answerable
  by_cases hline : trim line = ""
  · obtain ⟨e,he⟩ := hblank line hline
    rw [handleLine,if_pos hline,he]
    simp [hline]
  cases hparse : H.parseRequest line with
  | error e =>
    rw [handleLine,if_neg hline,hparse]
    refine iff_of_true ⟨_,rfl,rfl,rfl,_,rfl,rfl⟩ ⟨hline,?_⟩
    intro request h
    cases h
  | ok request =>
    have hcond : (trim line ≠ "" ∧ ∀ r, (Except.ok request : Except String JsonRpcRequest) = .ok r →
        (r.id.isSome = true ↔ H.Succeeds s r)) ↔
        (request.id.isSome = true ↔ H.Succeeds s request) := by
      simp [hline]
    rw [hcond]
    rcases handleLine_request (s := s) hline hparse with ⟨response,hwritten,hid,hs⟩ | ⟨hwritten,hs⟩
    · rw [hwritten]
      simp only [request.answeredBy_singleton hid,hs,iff_true]
    · rw [hwritten]
      simp [request.answeredBy_nil,hs]

/-! ## The run -/

def linesRead : List Io → List String
  | [] => []
  | .read line :: io => line :: linesRead io
  | .write _ :: io => linesRead io

def responses : List Io → List JsonRpcResponse
  | [] => []
  | .read _ :: io => responses io
  | .write response :: io => response :: responses io

/-- A response is due to the line. -/
def due (H : Handlers σ) (line : String) : Bool :=
  match H.parseRequest line with
  | .error _ => true
  | .ok request => request.id.isSome

theorem Answered.due {line : String} {responses : List JsonRpcResponse}
    (h : H.Answered line responses) :
    (H.due line = true ∧ ∃ response, responses = [response]) ∨
      (H.due line = false ∧ responses = []) := by
  unfold Answered at h
  unfold Handlers.due
  cases hparse : H.parseRequest line with
  | error e =>
    rw [hparse] at h
    obtain ⟨response,hresponse,-⟩ := h
    exact .inl ⟨rfl,response,hresponse⟩
  | ok request =>
    rw [hparse] at h
    simp only [JsonRpcRequest.AnsweredBy] at h ⊢
    cases hid : request.id with
    | none =>
      rw [hid] at h
      exact .inr ⟨rfl,h⟩
    | some id =>
      rw [hid] at h
      obtain ⟨response,hresponse,-⟩ := h
      exact .inl ⟨rfl,response,hresponse⟩

theorem written_append_drop (io : List Io) :
    written io ++ (responses io).drop (written io).length = responses io := by
  induction io with
  | nil => rfl
  | cons e io ih =>
    cases e with
    | read line => rfl
    | write response => exact congrArg (response :: ·) ih

theorem AllAnswered.ordered {io : List Io} (h : H.AllAnswered io) :
    List.Forall₂ (fun line response => H.Answered line [response])
      ((linesRead io).filter H.due) ((responses io).drop (written io).length) := by
  induction io with
  | nil => exact .nil
  | cons e io ih =>
    cases e with
    | write response => exact ih h
    | read line =>
      obtain ⟨hanswered,hrest⟩ := h
      have hlater := ih hrest
      simp only [linesRead,responses,written,List.length_nil,List.drop_zero]
      rcases hanswered.due with ⟨hdue,response,hwritten⟩ | ⟨hdue,hwritten⟩
      · rw [List.filter_cons_of_pos hdue,← written_append_drop io]
        rw [hwritten] at hanswered hlater ⊢
        exact .cons hanswered hlater
      · rw [List.filter_cons_of_neg (by simp [hdue]),← written_append_drop io]
        rw [hwritten] at hlater ⊢
        exact hlater

/-- Where requests and responses pair up, the responses come in the order of the lines they
are due to. -/
theorem Paired.ordered {io : List Io} (h : H.Paired io) :
    List.Forall₂ (fun line response => H.Answered line [response])
      ((linesRead io).filter H.due) (responses io) := by
  have hordered := h.2.ordered
  rw [h.1] at hordered
  exact hordered

theorem written_map_append (responses : List JsonRpcResponse) (io : List Io) :
    written (responses.map .write ++ io) = responses ++ written io := by
  induction responses with
  | nil => rfl
  | cons response responses ih =>
    rw [List.map_cons,List.cons_append,written,ih,List.cons_append]

theorem allAnswered_map_append (responses : List JsonRpcResponse) (io : List Io) :
    H.AllAnswered (responses.map .write ++ io) ↔ H.AllAnswered io := by
  induction responses with
  | nil => rfl
  | cons response responses ih => exact ih

theorem written_run (lines : List String) : written (H.run s lines) = [] := by
  cases lines with
  | nil => rfl
  | cons line lines => rfl

theorem server_next (line : String) : (server H).next s line = (H.handleLine s line).1 := by
  simp only [server]

theorem paired_run_iff (lines : List String) : H.Paired (H.run s lines) ↔
    ∀ p ∈ (server H).trail s lines, H.Answered p.2 (H.handleLine p.1 p.2).2 := by
  rw [Paired,and_iff_right (written_run lines)]
  induction lines generalizing s with
  | nil => simp [run,AllAnswered]
  | cons line lines ih =>
    rw [run,AllAnswered,written_map_append,written_run,List.append_nil,allAnswered_map_append,
      Machine.trail_cons,List.forall_mem_cons,server_next,ih]

end Handlers

/-- Requests and responses pair up exactly when no line is blank, every request succeeds and
no notification does. -/
theorem run_paired_iff {σ : Type*} {H : Handlers σ}
    (hblank : ∀ line, trim line = "" → ∃ e, H.parseRequest line = .error e)
    (s : ServerState σ) (lines : List String) :
    H.Paired (H.run s lines) ↔ ∀ p ∈ (server H).trail s lines, H.Answerable p.1 p.2 := by
  rw [Handlers.paired_run_iff]
  apply forall_congr'
  intro p
  exact imp_congr_right (fun _ => Handlers.answered_iff (s := p.1) hblank p.2)

def listLine : String := "\x7b\"id\":1,\"method\":\"tools/list\"\x7d"

def initializeLine : String := "\x7b\"id\":1,\"method\":\"initialize\"\x7d"

/-- Reads these two requests, both without parameters. -/
def parseBare (line : String) : Except String JsonRpcRequest :=
  if trim line = "" then .error "EOF while parsing a value"
  else if line = listLine then .ok ⟨some (.number "1"),"tools/list",none⟩
  else if line = initializeLine then .ok ⟨some (.number "1"),"initialize",none⟩
  else .error "expected value"

def bareHandlers : Handlers Unit where
  parseRequest := parseBare
  parseInitialize _ := .error "missing field protocolVersion"
  parseCallTool _ := .error "missing field name"
  toValue _ := .object []
  version := "0.1.0"
  fullAccess := none
  toolRegistry := []
  agentTools := []
  currentDir _ := .ok "/"
  execute _ _ _ s := (s,.error "no such tool")
  agentTool _ _ s := (s,.error "no such agent")
  runSelfImprovement _ s := (s,.error "no strategy")

theorem parseBare_blank (line : String) (h : trim line = "") :
    ∃ e, bareHandlers.parseRequest line = .error e := by
  have hparse : bareHandlers.parseRequest line = parseBare line := by rw [bareHandlers]
  rw [hparse,parseBare,if_pos h]
  exact ⟨_,rfl⟩

theorem parseBare_listLine :
    parseBare listLine = .ok ⟨some (.number "1"),"tools/list",none⟩ := by
  have hline : trim listLine ≠ "" := by decide
  rw [parseBare,if_neg hline,if_pos rfl]

theorem parseBare_initializeLine :
    parseBare initializeLine = .ok ⟨some (.number "1"),"initialize",none⟩ := by
  have hline : trim initializeLine ≠ "" := by decide
  have hne : initializeLine ≠ listLine := by decide
  rw [parseBare,if_neg hline,if_neg hne,if_pos rfl]

theorem listLine_paired : bareHandlers.Paired (bareHandlers.run ⟨0,()⟩ [listLine]) := by
  apply (run_paired_iff parseBare_blank ⟨0,()⟩ [listLine]).mpr
  intro p hp
  rw [Machine.trail_cons,Machine.trail_nil,List.mem_singleton] at hp
  rw [hp]
  refine ⟨by decide,?_⟩
  intro request hrequest
  have hread := parseBare_listLine.symm.trans hrequest
  cases hread
  exact iff_of_true rfl trivial

theorem handleLine_initializeLine :
    (bareHandlers.handleLine ⟨0,()⟩ initializeLine).2 = [] := by
  have hline : trim initializeLine ≠ "" := by decide
  have hparse : bareHandlers.parseRequest initializeLine = _ := parseBare_initializeLine
  rcases Handlers.handleLine_request hline hparse with ⟨response,_,_,hs⟩ | ⟨hwritten,_⟩
  · rw [Handlers.Succeeds] at hs
    cases hs
  · exact hwritten

/-- A request to initialize without parameters is never answered. -/
theorem initializeLine_unanswered :
    ¬ ∀ lines, bareHandlers.Paired (bareHandlers.run ⟨0,()⟩ lines) := by
  intro h
  have hpaired := h [initializeLine]
  rw [Handlers.paired_run_iff,Machine.trail_cons,List.forall_mem_cons,
    handleLine_initializeLine] at hpaired
  have hanswered : bareHandlers.Answered initializeLine [] := hpaired.1
  have hparse : bareHandlers.parseRequest initializeLine = _ := parseBare_initializeLine
  rw [Handlers.Answered,hparse] at hanswered
  cases JsonRpcRequest.answeredBy_nil.mp hanswered

end Rullama.Mcp
