import Rullama.Tools.Hooks

/-! # Tool executor

`ToolExecutor::execute` up to the call of `route_tool` and back, with the default features
of the crate. The policy engine, the agent capabilities, the access control manager, the
registry and the tools themselves are arbitrary functions. What one execution asked, which
hooks it ran and whether it reached `route_tool` are recorded beside its result.
-/
namespace Rullama.Tools

inductive PermissionMode where
  | readOnly
  | auto
  | full
deriving DecidableEq

structure ToolUse where
  id : String
  name : String
  input : Value

structure Tool where
  description : String
  requiresApproval : Bool

structure ToolResult where
  toolUseId : String
  content : String
  isError : Bool
deriving DecidableEq

def ToolResult.error (id text : String) : ToolResult := ⟨id,text,true⟩

structure ToolContext where
  capabilities : Option Value := none
  metadata : List (String × String) := []

/-! ## Code outside the repository -/

structure AgentCapabilities where
  allowsTool : String → Bool
  allowsRead : String → Bool
  allowsWrite : String → Bool
  allowsDomain : String → Bool

/-- The tool category and the git operation are functions of the name, left to the engine. -/
structure PolicyRequest where
  toolName : String
  filePath : Option String
  domain : Option String
  trustLevel : ℕ
  agentId : String

inductive PolicyAction where
  | allow
  | allowWithAudit
  | requireApproval
  | escalate
  | deny
  | denyWithMessage (text : String)
deriving DecidableEq

structure External where
  /-- `serde_json::from_value`, with its error dropped -/
  capabilities : Value → Option AgentCapabilities
  toLowercase : String → String
  preHookEnds : ℕ → HookExit
  postHookEnds : ℕ → HookExit
  routeTool : ToolUse → ToolContext → ToolResult

/-! ## Approval -/

inductive ApprovalAction where
  | writeFile (path : String)
  | editFile (path : String)
  | deleteFile (path : String)
  | createDirectory (path : String)
  | executeCommand (command : String)
  | gitModify (operation : String)
  | other (description : String)
deriving DecidableEq

structure ApprovalRequest where
  toolName : String
  action : ApprovalAction
  toolDescription : String
  parameters : Value

inductive ApprovalResponse where
  | approve
  | deny
  | approveForSession
  | denyForSession
deriving DecidableEq

def ApprovalResponse.isApproved : ApprovalResponse → Bool
  | .approve | .approveForSession => true
  | .deny | .denyForSession => false

/-- Where a response came from: remembered for the session, from the user through the
channel, or by default without a channel. -/
inductive Answer where
  | remembered (response : ApprovalResponse)
  | user (request : ApprovalRequest) (response : Except String ApprovalResponse)
  | noChannel

def Answer.response : Answer → Except String ApprovalResponse
  | .remembered response => .ok response
  | .user _ response => response
  | .noChannel => .ok .approve

structure HookDispatcher where
  preToolUse : List HookMatcher := []
  postToolUse : List HookMatcher := []

structure ToolExecutor where
  registry : String → Option Tool
  permissionMode : PermissionMode := .auto
  accessControl : Option (String → String → Value → Except String Unit) := none
  policyEngine : Option (PolicyRequest → PolicyAction) := none
  approvalTx : Option (ApprovalRequest → Except String ApprovalResponse) := none
  sessionApprovals : List (String × ApprovalResponse) := []
  orgBlockedTools : List String := []
  orgPermissionRelayRequired : Bool := false
  permissions : Option Permissions := none
  hooks : Option HookDispatcher := none

/-- One run of `execute`. -/
structure Execution where
  answer : Option Answer := none
  hooks : List (HookCommand × HookOutcome) := []
  routed : Bool := false
  result : Except String ToolResult

def toolRequiresApproval (toolName : String) : Bool :=
  ["write_file", "edit_file", "patch_file", "delete_file", "create_directory",
    "execute_command", "git_commit", "git_push", "git_reset", "git_checkout", "run_script",
    "shell", "bash"].contains toolName

def extractDomainFromUrl (toLowercase : String → String) (url : String) : Option String :=
  let withoutProtocol := ((stripPrefix url "https://").or (stripPrefix url "http://")).getD url
  let host := (withoutProtocol.toList.takeWhile (· != '/')).takeWhile (· != ':')
  -- what follows the last `@`
  let domain := (host.reverse.takeWhile (· != '@')).reverse
  if domain.isEmpty then none else some (toLowercase (.ofList domain))

def parseU8 (s : String) : Option ℕ :=
  let digits := (s.toList.dropPrefix? ['+']).getD s.toList
  let n := digits.foldl (fun n c => 10 * n + (c.toNat - '0'.toNat)) 0
  if !digits.isEmpty && digits.all Char.isDigit && n < 256 then some n else none

/-- The path that the approval dialog shows. -/
def approvalPath (input : Value) : String := (input.str "path").getD "<unknown>"

def createApprovalAction (toolName : String) (input : Value) : ApprovalAction :=
  match toolName with
  | "write_file" => .writeFile (approvalPath input)
  | "edit_file" | "patch_file" => .editFile (approvalPath input)
  | "delete_file" => .deleteFile (approvalPath input)
  | "create_directory" => .createDirectory (approvalPath input)
  | "execute_command" | "run_script" | "shell" | "bash" =>
    .executeCommand (((input.str "command").or (input.str "script")).getD "<unknown>")
  | "git_commit" | "git_push" | "git_reset" | "git_checkout" =>
    .gitModify ((stripPrefix toolName "git_").getD toolName)
  | _ => .other ("Execute tool: " ++ toolName)

/-- The path that the capability check and the policy engine are given. -/
def gatePath (input : Value) : Option String := input.str "path"

/-- The tools that the capability check takes for writes. -/
def isWrite (toolName : String) : Bool :=
  ["write_file", "edit_file", "patch_file", "delete_file", "create_directory"].contains toolName

namespace AgentCapabilities

def toolRefusal (c : AgentCapabilities) (toolUse : ToolUse) : Option String :=
  if c.allowsTool toolUse.name then none
  else some ("Tool '" ++ toolUse.name ++ "' is not permitted by agent capabilities")

def pathRefusal (c : AgentCapabilities) (toolUse : ToolUse) : Option String :=
  match gatePath toolUse.input with
  | none => none
  | some path =>
    if isWrite toolUse.name then
      if c.allowsWrite path then none
      else some ("Write access to '" ++ path ++ "' is not permitted by agent capabilities")
    else if c.allowsRead path then none
    else some ("Read access to '" ++ path ++ "' is not permitted by agent capabilities")

def domainRefusal (c : AgentCapabilities) (toLowercase : String → String) (toolUse : ToolUse) :
    Option String :=
  match (toolUse.input.str "url").bind (extractDomainFromUrl toLowercase) with
  | none => none
  | some domain =>
    if c.allowsDomain domain then none
    else some ("Network access to '" ++ domain ++ "' is not permitted by agent capabilities")

def refusal (c : AgentCapabilities) (toLowercase : String → String) (toolUse : ToolUse) :
    Option String :=
  ((c.toolRefusal toolUse).or (c.pathRefusal toolUse)).or (c.domainRefusal toLowercase toolUse)

end AgentCapabilities

namespace ToolExecutor
variable (self : ToolExecutor) (ext : External)

def settingsDecision (toolUse : ToolUse) : PermissionDecision :=
  (self.permissions.map (·.decide toolUse.name toolUse.input)).getD .unset

def policyRequest (toolUse : ToolUse) (context : ToolContext) : PolicyRequest where
  toolName := toolUse.name
  filePath := gatePath toolUse.input
  domain := (toolUse.input.str "url").bind (extractDomainFromUrl ext.toLowercase)
  trustLevel := ((context.metadata.lookup "trust_level").bind parseU8).getD 2
  agentId := (context.metadata.lookup "agent_id").getD "main"

def policyAction (toolUse : ToolUse) (context : ToolContext) : Option PolicyAction :=
  self.policyEngine.map (fun evaluate => evaluate (policyRequest ext toolUse context))

def orgRefusal (toolName : String) : Option String :=
  if self.orgBlockedTools.contains toolName then
    some ("Tool '" ++ toolName ++ "' is blocked by organization policy")
  else none

def settingsRefusal (toolUse : ToolUse) : Option String :=
  match self.settingsDecision toolUse with
  | .deny reason => some ("Tool '" ++ toolUse.name ++ "' " ++ reason)
  | _ => none

def capabilityRefusal (toolUse : ToolUse) (context : ToolContext) : Option String :=
  (context.capabilities.bind ext.capabilities).bind (·.refusal ext.toLowercase toolUse)

def policyRefusal (toolUse : ToolUse) (context : ToolContext) : Option String :=
  match self.policyAction ext toolUse context with
  | some .deny => some ("Tool '" ++ toolUse.name ++ "' denied by policy")
  | some (.denyWithMessage text) => some text
  | some .requireApproval =>
    if self.permissionMode = .auto then none
    else some ("Tool '" ++ toolUse.name ++ "' requires approval")
  | some .escalate =>
    if self.permissionMode = .auto then none
    else some ("Tool '" ++ toolUse.name ++ "' escalated - requires higher authorization")
  | _ => none

def readOnlyRefusal (tool : Tool) (toolName : String) : Option String :=
  if tool.requiresApproval && self.permissionMode = .readOnly then
    some ("Tool '" ++ toolName ++ "' requires approval but permission mode is read-only")
  else none

/-- The first of the checks that refuses before anybody is asked. -/
def refusal (tool : Tool) (toolUse : ToolUse) (context : ToolContext) : Option String :=
  ((((self.orgRefusal toolUse.name).or (self.settingsRefusal toolUse)).or
    (capabilityRefusal ext toolUse context)).or (self.policyRefusal ext toolUse context)).or
    (self.readOnlyRefusal tool toolUse.name)

def needsApproval (tool : Tool) (toolName : String) (decision : PermissionDecision) : Bool :=
  let needs := (tool.requiresApproval || toolRequiresApproval toolName) &&
    self.permissionMode = .auto && self.approvalTx.isSome
  let needs := needs || (self.orgPermissionRelayRequired && toolRequiresApproval toolName)
  match decision with
  | .allow => false
  | .ask => needs || self.approvalTx.isSome
  | _ => needs

def approvalRequest (tool : Tool) (toolUse : ToolUse) : ApprovalRequest :=
  ⟨toolUse.name,createApprovalAction toolUse.name toolUse.input,tool.description,toolUse.input⟩

def requestApproval (tool : Tool) (toolUse : ToolUse) : Answer :=
  match self.sessionApprovals.lookup toolUse.name with
  | some response => .remembered response
  | none =>
    match self.approvalTx with
    | none => .noChannel
    | some send => .user (approvalRequest tool toolUse) (send (approvalRequest tool toolUse))

def acquireForTool (toolUse : ToolUse) (context : ToolContext) : Except String Unit :=
  match self.accessControl with
  | none => .ok ()
  | some acquire =>
    acquire ((context.metadata.lookup "agent_id").getD "main") toolUse.name toolUse.input

def dispatchPreTool (toolName : String) : List (HookCommand × HookOutcome) × HookOutcome :=
  match self.hooks with
  | none => ([],.continue)
  | some hooks => runMatchers ext.preHookEnds hooks.preToolUse toolName

def dispatchPostTool (toolName : String) : HookOutcome :=
  match self.hooks with
  | none => .continue
  | some hooks => (runMatchers ext.postHookEnds hooks.postToolUse toolName).2

/-- `route_tool` and the hook that sees its result. -/
def routed (toolUse : ToolUse) (context : ToolContext) : ToolResult :=
  match self.dispatchPostTool ext toolUse.name with
  | .block reason => .error toolUse.id ("PostToolUse hook: " ++ reason)
  | _ => ext.routeTool toolUse context

/-- What follows the approval: locks, hooks and the tool itself. -/
def dispatch (toolUse : ToolUse) (context : ToolContext) (answer : Option Answer) : Execution :=
  match self.acquireForTool toolUse context with
  | .error e => { answer, result := .ok (.error toolUse.id ("Access control error: " ++ e)) }
  | .ok _ =>
    let pre := self.dispatchPreTool ext toolUse.name
    match pre.2 with
    | .block reason =>
      { answer, hooks := pre.1
        result := .ok (.error toolUse.id ("Blocked by PreToolUse hook: " ++ reason)) }
    | _ => { answer, hooks := pre.1, routed := true, result := .ok (self.routed ext toolUse context) }

def execute (toolUse : ToolUse) (context : ToolContext) : Execution :=
  match self.registry toolUse.name with
  | none => { result := .error ("Unknown tool: " ++ toolUse.name) }
  | some tool =>
    match self.refusal ext tool toolUse context with
    | some text => { result := .ok (.error toolUse.id text) }
    | none =>
      if self.needsApproval tool toolUse.name (self.settingsDecision toolUse) then
        let answer := self.requestApproval tool toolUse
        match answer.response with
        | .ok response =>
          if response.isApproved then self.dispatch ext toolUse context (some answer)
          else { answer := some answer, result := .ok (.error toolUse.id
            ("Tool '" ++ toolUse.name ++ "' was denied by user")) }
        | .error e => { answer := some answer, result := .ok (.error toolUse.id
            ("Tool '" ++ toolUse.name ++ "' approval failed: " ++ e)) }
      else self.dispatch ext toolUse context none

end ToolExecutor
end Rullama.Tools
