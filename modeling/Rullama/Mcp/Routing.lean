import Rullama.Tools.Json

/-! # The tools of MCP servers

A registry of MCP servers gives every tool a flat name made of the server's name and the
tool's, and takes such a name apart again when the tool is executed. The client library
that talks to the servers is a parameter.
-/
namespace Rullama.Mcp
open Tools (Value startsWith trim notMem_of_mem_splitOn)

structure McpTool where
  name : String
  description : Option String
  inputSchema : List (String × Value)

inductive RawContent where
  | text (text : String)
  | image
  | resource
  | audio
  | resourceLink (name : String)

structure CallToolResult where
  isError : Option Bool
  content : List RawContent

/-- A call that reaches a client. With progress its notifications are forwarded. -/
structure Call (κ : Type*) where
  client : κ
  server : String
  tool : String
  arguments : Option Value
  progress : Bool

structure Tool (S : Type*) where
  name : String
  description : String
  inputSchema : S
  requiresApproval : Bool

/-- What the client library and the tool framework answer. -/
structure Library (κ S : Type*) where
  isConnected : κ → String → Bool
  listTools : κ → String → Except String (List McpTool)
  callTool : Call κ → Except String CallToolResult
  fromValue : List (String × Value) → Option S
  emptyObject : S
  debug : List RawContent → String

structure McpToolAdapter (κ : Type*) where
  client : κ
  serverName : String

def RawContent.line : RawContent → String
  | .text t => t ++ "\n"
  | .image => "[Image content]\n"
  | .resource => "[Embedded Resource]\n"
  | .audio => "[Audio content]\n"
  | .resourceLink name => "[Resource: " ++ name ++ "]\n"

variable {κ S : Type*} (lib : Library κ S)

namespace McpToolAdapter

def convertMcpTool (a : McpToolAdapter κ) (tool : McpTool) : Tool S where
  name := "mcp_" ++ a.serverName ++ "_" ++ tool.name
  description := tool.description.getD ("MCP tool from " ++ a.serverName)
  inputSchema := (lib.fromValue tool.inputSchema).getD lib.emptyObject
  requiresApproval := false

def notConnected (a : McpToolAdapter κ) : String :=
  "Not connected to MCP server: " ++ a.serverName

def getTools (a : McpToolAdapter κ) : Except String (List (Tool S)) :=
  if lib.isConnected a.client a.serverName then
    (lib.listTools a.client a.serverName).map (List.map (a.convertMcpTool lib))
  else .error a.notConnected

/-- The calls that reach a client, and the answer. -/
def executeTool (a : McpToolAdapter κ) (progress : Bool) (toolName : String)
    (arguments : Option Value) : List (Call κ) × Except String String :=
  if lib.isConnected a.client a.serverName then
    let call := ⟨a.client,a.serverName,toolName,arguments,progress⟩
    ([call],
      match lib.callTool call with
      | .error e => .error e
      | .ok result =>
        if result.isError.getD false then
          .error ("MCP tool execution failed: " ++ lib.debug result.content)
        else .ok (trim (String.join (result.content.map RawContent.line))))
  else ([],.error a.notConnected)

/-- The server is connected and lists this tool. -/
def Offers (a : McpToolAdapter κ) (tool : McpTool) : Prop :=
  lib.isConnected a.client a.serverName = true ∧
    ∃ tools, lib.listTools a.client a.serverName = .ok tools ∧ tool ∈ tools

end McpToolAdapter

/-! ## The registry -/

def registerServer (adapters : List (McpToolAdapter κ)) (client : κ) (serverName : String) :
    List (McpToolAdapter κ) := adapters ++ [⟨client,serverName⟩]

def getAllTools (adapters : List (McpToolAdapter κ)) : List (Tool S) :=
  adapters.flatMap (fun a =>
    match a.getTools lib with
    | .ok tools => tools
    | .error _ => [])

/-- `split('_')` -/
def splitName (toolName : String) : List String :=
  (toolName.toList.splitOn '_').map .ofList

/-- `parts[2..].join("_")` -/
def actualToolName (toolName : String) : String :=
  "_".intercalate ((splitName toolName).drop 2)

def findAdapter (adapters : List (McpToolAdapter κ)) (toolName : String) :
    Option (McpToolAdapter κ) :=
  if startsWith toolName "mcp_" then
    match splitName toolName with
    | _ :: serverName :: _ :: _ => adapters.find? (fun a => a.serverName = serverName)
    | _ => none
  else none

def executeTool (adapters : List (McpToolAdapter κ)) (progress : Bool) (toolName : String)
    (arguments : Option Value) : List (Call κ) × Except String String :=
  match findAdapter adapters toolName with
  | none => ([],.error "MCP adapter not found for tool")
  | some a => a.executeTool lib progress (actualToolName toolName) arguments

variable {lib} {adapters : List (McpToolAdapter κ)} {a b : McpToolAdapter κ} {tool : McpTool}

theorem mem_getAllTools {t : Tool S} : t ∈ getAllTools lib adapters ↔
    ∃ a ∈ adapters, ∃ tool, a.Offers lib tool ∧ a.convertMcpTool lib tool = t := by
  simp only [getAllTools,List.mem_flatMap]
  refine exists_congr (fun a => and_congr_right (fun _ => ?_))
  unfold McpToolAdapter.getTools McpToolAdapter.Offers
  cases lib.isConnected a.client a.serverName with
  | false => simp
  | true =>
    cases lib.listTools a.client a.serverName with
    | error e => simp [Except.map]
    | ok tools => simp [Except.map]

/-- The parts of a tool's name: those of the server's name stand before those of the tool's. -/
theorem splitName_name : splitName (a.convertMcpTool lib tool).name =
    "mcp" :: ((a.serverName.toList.splitOn '_' ++ tool.name.toList.splitOn '_').map .ofList) := by
  have hname : (a.convertMcpTool lib tool).name.toList =
      "mcp".toList ++ '_' :: (a.serverName.toList ++ '_' :: tool.name.toList) := by
    simp [McpToolAdapter.convertMcpTool]
  rw [splitName,hname,List.splitOn_append_cons_self_of_not_mem (by simp),
    List.splitOn_append_cons_self]
  simp

theorem join_map_ofList (parts : List (List Char)) :
    ("_".intercalate (parts.map .ofList)).toList = ['_'].intercalate parts := by
  rw [String.toList_intercalate,List.map_map]
  simp [Function.comp_def]

theorem startsWith_name : startsWith (a.convertMcpTool lib tool).name "mcp_" = true := by
  apply Tools.startsWith_iff.mpr
  exact ⟨a.serverName ++ "_" ++ tool.name,by simp [McpToolAdapter.convertMcpTool,String.append_assoc]⟩

/-- The server a name is sent to has no underscore: it is the part before the first one. -/
theorem findAdapter_name {s : List Char} {rest : List (List Char)}
    (hs : a.serverName.toList.splitOn '_' = s :: rest) :
    findAdapter adapters (a.convertMcpTool lib tool).name =
      adapters.find? (fun b => b.serverName = .ofList s) := by
  obtain ⟨t,ts,ht⟩ := List.exists_cons_of_ne_nil (List.splitOn_ne_nil '_' tool.name.toList)
  have hsplit : splitName (a.convertMcpTool lib tool).name =
      "mcp" :: .ofList s :: (rest ++ t :: ts).map .ofList := by
    rw [splitName_name,hs,ht]
    rfl
  rw [findAdapter,if_pos startsWith_name,hsplit]
  cases rest with
  | nil => rfl
  | cons r rest => rfl

theorem actualToolName_name (h : '_' ∉ a.serverName.toList) :
    actualToolName (a.convertMcpTool lib tool).name = tool.name := by
  have hsplit := List.splitOn_eq_singleton h
  apply String.toList_inj.mp
  rw [actualToolName,splitName_name,hsplit]
  calc ("_".intercalate ((tool.name.toList.splitOn '_').map .ofList)).toList
      = ['_'].intercalate (tool.name.toList.splitOn '_') := join_map_ofList _
    _ = tool.name.toList := List.intercalate_splitOn '_'

theorem find?_serverName (hnodup : (adapters.map McpToolAdapter.serverName).Nodup)
    (ha : a ∈ adapters) :
    adapters.find? (fun b => b.serverName = a.serverName) = some a := by
  induction adapters with
  | nil => simp at ha
  | cons b adapters ih =>
    rw [List.map_cons,List.nodup_cons] at hnodup
    rcases List.mem_cons.mp ha with rfl | ha
    · simp
    · have hne : b.serverName ≠ a.serverName := by
        intro he
        exact hnodup.1 (he ▸ List.mem_map_of_mem ha)
      rw [List.find?_cons_of_neg (by simpa using hne)]
      exact ih hnodup.2 ha

/-! ## When names reach their tools -/

/-- Two tools with one name are one tool of one server, and a name executed calls the tool
it was made for, there and nowhere else. -/
structure Routed (lib : Library κ S) (adapters : List (McpToolAdapter κ)) : Prop where
  distinct : ∀ a ∈ adapters, ∀ b ∈ adapters, ∀ tool tool', a.Offers lib tool →
    b.Offers lib tool' → (a.convertMcpTool lib tool).name = (b.convertMcpTool lib tool').name →
    a.serverName = b.serverName ∧ tool.name = tool'.name
  called : ∀ a ∈ adapters, ∀ tool, a.Offers lib tool → ∀ progress arguments,
    (executeTool lib adapters progress (a.convertMcpTool lib tool).name arguments).1 =
      [⟨a.client,a.serverName,tool.name,arguments,progress⟩]

theorem executeTool_name (hnodup : (adapters.map McpToolAdapter.serverName).Nodup)
    (ha : a ∈ adapters) (h : '_' ∉ a.serverName.toList) (progress : Bool)
    (arguments : Option Value) :
    executeTool lib adapters progress (a.convertMcpTool lib tool).name arguments =
      a.executeTool lib progress tool.name arguments := by
  have hfind : findAdapter adapters (a.convertMcpTool lib tool).name = some a := by
    rw [findAdapter_name (List.splitOn_eq_singleton h),String.ofList_toList]
    exact find?_serverName hnodup ha
  rw [executeTool,hfind]
  simp only [actualToolName_name h]

/-- Whatever is called by a name is called on a server whose name has no underscore. -/
theorem server_of_called {progress : Bool} {arguments : Option Value} {call : Call κ}
    (h : call ∈ (executeTool lib adapters progress (a.convertMcpTool lib tool).name arguments).1) :
    '_' ∉ call.server.toList := by
  obtain ⟨s,rest,hs⟩ := List.exists_cons_of_ne_nil (List.splitOn_ne_nil '_' a.serverName.toList)
  have hclean : '_' ∉ s := notMem_of_mem_splitOn (hs ▸ List.mem_cons_self)
  rw [executeTool,findAdapter_name hs] at h
  cases hfind : adapters.find? (fun b => b.serverName = .ofList s) with
  | none => simp [hfind] at h
  | some b =>
    have hb : b.serverName = .ofList s := by simpa using List.find?_some hfind
    simp only [hfind,McpToolAdapter.executeTool] at h
    split at h
    · rw [List.mem_singleton] at h
      rw [h,hb,String.toList_ofList]
      exact hclean
    · simp at h

theorem routed_iff (hnodup : (adapters.map McpToolAdapter.serverName).Nodup) :
    Routed lib adapters ↔
      ∀ a ∈ adapters, (∃ tool, a.Offers lib tool) → '_' ∉ a.serverName.toList := by
  constructor
  · rintro h a ha ⟨tool,ht⟩
    have hcalled : ⟨a.client,a.serverName,tool.name,none,false⟩ ∈
        (executeTool lib adapters false (a.convertMcpTool lib tool).name none).1 :=
      h.called a ha tool ht false none ▸ List.mem_singleton_self _
    exact server_of_called hcalled
  · intro h
    constructor
    · intro a ha b hb tool tool' ht ht' hname
      have hclean := h a ha ⟨tool,ht⟩
      have hclean' := h b hb ⟨tool',ht'⟩
      have hparts := congrArg splitName hname
      rw [splitName_name,splitName_name,List.splitOn_eq_singleton hclean,
        List.splitOn_eq_singleton hclean',List.cons_inj_right,List.map_append,List.map_append] at hparts
      have hserver : a.serverName = b.serverName := by
        simpa using congrArg List.head? hparts
      have htool : tool.name = tool'.name := by
        have hactual : actualToolName (a.convertMcpTool lib tool).name = tool.name :=
          actualToolName_name hclean
        rw [← hactual,hname,actualToolName_name hclean']
      exact ⟨hserver,htool⟩
    · intro a ha tool ht progress arguments
      rw [executeTool_name hnodup ha (h a ha ⟨tool,ht⟩),McpToolAdapter.executeTool,if_pos ht.1]

/-- A library whose clients are all connected; the names of a server's tools are given. -/
def offering (tools : String → List String) : Library Unit Unit where
  isConnected _ _ := true
  listTools _ server := .ok ((tools server).map (fun name => ⟨name,none,[]⟩))
  callTool _ := .ok ⟨none,[]⟩
  fromValue _ := none
  emptyObject := ()
  debug _ := ""

def plainTools (_ : String) : List String := ["read_file", "status"]

theorem plainServers_routed : Routed (offering plainTools) [⟨(),"files"⟩,⟨(),"git"⟩] := by
  apply (routed_iff (by decide)).mpr
  intro a ha _
  rcases List.mem_pair.mp ha with rfl | rfl
  · decide
  · decide

def collidingTools : String → List String
  | "a" => ["b_c"]
  | "a_b" => ["c"]
  | _ => []

def collidingServers : List (McpToolAdapter Unit) := [⟨(),"a"⟩,⟨(),"a_b"⟩]

/-- Both servers offer `mcp_a_b_c`, and the tool of the second is executed on the first. -/
theorem collidingServers_not_routed :
    (collidingServers.map McpToolAdapter.serverName).Nodup ∧
    (∀ a ∈ collidingServers, a.serverName ≠ "") ∧
    ¬ Routed (offering collidingTools) collidingServers := by
  refine ⟨by decide,by decide,fun h => ?_⟩
  have hsame := h.distinct ⟨(),"a"⟩ (.head _) ⟨(),"a_b"⟩ (.tail _ (.head _)) ⟨"b_c",none,[]⟩
    ⟨"c",none,[]⟩ ⟨rfl,_,rfl,.head _⟩ ⟨rfl,_,rfl,.head _⟩ (by decide)
  exact absurd hsame.1 (by decide)

end Rullama.Mcp
