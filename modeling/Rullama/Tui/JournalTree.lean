import Mathlib.Data.Finset.Basic
import Mathlib.Data.Finset.Filter
import Mathlib.Data.List.AList
import Rullama.Forest.Links
import Rullama.Tui.SessionManagement

/-! # The journal tree

Messages and tool executions as a tree of nodes that refer to each other by their ids. The ids do
not wrap: there is a node in memory for each of them.
-/
namespace Rullama.Tui
open Forest (Links)

abbrev JournalNodeId := ℕ

inductive JournalNodeKind where
  | turn
  | userMessage
  | assistantMessage
  | toolCall
  | subAgentSpawn
  | systemEvent
deriving DecidableEq

inductive JournalNodePayload where
  | message (role content : String)
  | tool (toolName paramsSummary resultSummary : String) (success : Bool) (durationMs : Option ℕ)
  | subAgentSpawn (agentId taskDesc : String)
  | systemEvent (description : String)
  | turn (turnNumber : ℕ)
deriving DecidableEq

structure JournalNode where
  id : JournalNodeId
  kind : JournalNodeKind
  timestamp : ℤ
  payload : JournalNodePayload
  children : List JournalNodeId
  parent : Option JournalNodeId
deriving DecidableEq

/-- `ancestorHasMore` tells for each ancestor whether it has siblings below it. -/
structure RenderItem where
  nodeId : JournalNodeId
  depth : ℕ
  isLastChild : Bool
  ancestorHasMore : List Bool
  isCollapsed : Bool
  hasChildren : Bool
deriving DecidableEq

structure ToolExecutionEntry where
  toolName : String
  parametersSummary : String
  resultSummary : String
  success : Bool
  executedAt : ℤ
  durationMs : Option ℕ

structure JournalTreeState where
  nodes : AList (fun _ : JournalNodeId => JournalNode) := ∅
  roots : List JournalNodeId := []
  collapsed : Finset JournalNodeId := ∅
  cursor : Option JournalNodeId := none
  renderList : List RenderItem := []
  renderListDirty : Bool := true
  nextId : JournalNodeId := 1
  lastMsgCount : ℕ := 0
  lastToolCount : ℕ := 0

/-! ## Events -/

inductive FlatEvent where
  | message (msg : TuiMessage)
  | tool (tool : ToolExecutionEntry)

def FlatEvent.timestamp : FlatEvent → ℤ
  | .message m => m.createdAt
  | .tool t => t.executedAt

/-- `sort_by_key` is stable: of the same time, messages stand before tools. -/
def flatEvents (messages : List TuiMessage) (tools : List ToolExecutionEntry) : List FlatEvent :=
  (messages.map FlatEvent.message ++ tools.map FlatEvent.tool).mergeSort
    (fun a b => decide (a.timestamp ≤ b.timestamp))

/-- The white space of Unicode. -/
def isWhitespace (c : Char) : Bool :=
  (0x09 ≤ c.toNat && c.toNat ≤ 0x0D) || (0x2000 ≤ c.toNat && c.toNat ≤ 0x200A) ||
    [0x20,0x85,0xA0,0x1680,0x2028,0x2029,0x202F,0x205F,0x3000].contains c.toNat

def extractAgentId (resultSummary : String) : String :=
  let text := resultSummary.toList
  let marker := "agent_id: ".toList
  let rest := if marker.isPrefixOf text then text.drop marker.length else text
  match (rest.dropWhile isWhitespace).takeWhile (fun c => !isWhitespace c) with
  | [] => "unknown"
  | word => .ofList word

def ToolExecutionEntry.payload (t : ToolExecutionEntry) : JournalNodePayload :=
  .tool t.toolName t.parametersSummary t.resultSummary t.success t.durationMs

def JournalNode.spawns (n : JournalNode) (agentId : String) : Bool :=
  match n.payload with
  | .subAgentSpawn id _ => id = agentId
  | _ => false

/-- An order in which the entries of a hash map are gone through. -/
structure Iteration where
  values : List JournalNode → List JournalNode
  perm : ∀ nodes, (values nodes).Perm nodes

namespace JournalTreeState

variable (st : JournalTreeState)

/-! ## Nodes -/

def insertNode (node : JournalNode) : JournalTreeState :=
  { st with nodes := st.nodes.insert node.id node,renderListDirty := true }

/-- `children.push` on the node with that id, where there is one. -/
def pushChild (parent child : JournalNodeId) : JournalTreeState :=
  match st.nodes.lookup parent with
  | none => st
  | some n =>
    { st with nodes := st.nodes.insert parent { n with children := n.children ++ [child] } }

def childrenOf (id : JournalNodeId) : List JournalNodeId :=
  ((st.nodes.lookup id).map JournalNode.children).getD []

/-- A new node under a parent, with the next id. -/
def addChild (kind : JournalNodeKind) (timestamp : ℤ) (payload : JournalNodePayload)
    (parent : JournalNodeId) : JournalTreeState :=
  (insertNode { st with nextId := st.nextId + 1 }
    ⟨st.nextId,kind,timestamp,payload,[],some parent⟩).pushChild parent st.nextId

def turnNode (timestamp : ℤ) (turnNumber : ℕ) : JournalNode :=
  ⟨st.nextId,.turn,timestamp,.turn turnNumber,[],none⟩

def links : Links JournalNodeId where
  carrier := {id | id ∈ st.nodes}
  parent id := (st.nodes.lookup id).bind JournalNode.parent
  below
    | none => st.roots
    | some id => st.childrenOf id

end JournalTreeState

/-! ## Rebuilding -/

/-- The locals of `rebuild_from_flat`. -/
structure Rebuild where
  tree : JournalTreeState
  currentTurnId : Option JournalNodeId := none
  currentAssistantId : Option JournalNodeId := none
  turnNumber : ℕ := 0

namespace Rebuild

variable (b : Rebuild)

/-- A new turn for a message of the user. -/
def openTurn (timestamp : ℤ) : Rebuild :=
  let tree := b.tree.insertNode (b.tree.turnNode timestamp (b.turnNumber + 1))
  { tree := { tree with nextId := b.tree.nextId + 1,roots := b.tree.roots ++ [b.tree.nextId] }
    currentTurnId := some b.tree.nextId
    currentAssistantId := none
    turnNumber := b.turnNumber + 1 }

/-- `current_turn_id.unwrap_or_else`: a turn is made where there is none. -/
def ensureTurn (timestamp : ℤ) : Rebuild × JournalNodeId :=
  match b.currentTurnId with
  | some id => (b,id)
  | none =>
    let id := b.tree.nextId
    ({ b with
      tree := { b.tree with
        nodes := b.tree.nodes.insert id (b.tree.turnNode timestamp (b.turnNumber + 1))
        roots := b.tree.roots ++ [id]
        nextId := id + 1 }
      currentTurnId := some id
      turnNumber := b.turnNumber + 1 },id)

def userMessage (msg : TuiMessage) : Rebuild :=
  let opened := b.openTurn msg.createdAt
  { opened with
    tree := opened.tree.addChild .userMessage msg.createdAt (.message msg.role msg.content)
      b.tree.nextId }

def assistantMessage (msg : TuiMessage) : Rebuild :=
  let (turn,turnId) := b.ensureTurn msg.createdAt
  { turn with
    tree := turn.tree.addChild .assistantMessage msg.createdAt (.message msg.role msg.content) turnId
    currentAssistantId := some turn.tree.nextId }

def systemMessage (msg : TuiMessage) : Rebuild :=
  let (turn,turnId) := b.ensureTurn msg.createdAt
  { turn with
    tree := turn.tree.addChild .systemEvent msg.createdAt (.systemEvent msg.content) turnId }

/-- A tool goes under the current assistant message, else under the turn. -/
def toolExecution (tool : ToolExecutionEntry) : Rebuild :=
  match b.currentAssistantId.or b.currentTurnId with
  | none => b
  | some parentId =>
    let isSpawn := tool.toolName = "agent_spawn"
    { b with
      tree := b.tree.addChild (if isSpawn then .subAgentSpawn else .toolCall) tool.executedAt
        (if isSpawn then .subAgentSpawn (extractAgentId tool.resultSummary) tool.parametersSummary
          else tool.payload) parentId }

def event : FlatEvent → Rebuild
  | .message msg =>
    if msg.role = "user" then b.userMessage msg
    else if msg.role = "assistant" then b.assistantMessage msg
    else if msg.role = "system" then b.systemMessage msg
    else b
  | .tool tool => b.toolExecution tool

end Rebuild

namespace JournalTreeState

variable (st : JournalTreeState)

def rebuildFromFlat (messages : List TuiMessage) (tools : List ToolExecutionEntry) :
    JournalTreeState :=
  let start : Rebuild := { tree := { st with nodes := ∅,roots := [],nextId := 1 } }
  let tree := ((flatEvents messages tools).foldl Rebuild.event start).tree
  { tree with
    collapsed := st.collapsed.filter (· ∈ tree.nodes)
    cursor := st.cursor.filter (· ∈ tree.nodes)
    lastMsgCount := messages.length
    lastToolCount := tools.length
    renderListDirty := true }

def rebuildIfStale (messages : List TuiMessage) (tools : List ToolExecutionEntry) :
    JournalTreeState :=
  if messages.length ≠ st.lastMsgCount ∨ tools.length ≠ st.lastToolCount then
    { st.rebuildFromFlat messages tools with
      lastMsgCount := messages.length
      lastToolCount := tools.length }
  else st

/-! ## Activity of sub-agents -/

def injectEvent (spawnId : JournalNodeId) : FlatEvent → JournalTreeState
  | .message msg =>
    if msg.role = "assistant" then
      st.addChild .assistantMessage msg.createdAt (.message msg.role msg.content) spawnId
    else if msg.role = "user" then
      st.addChild .userMessage msg.createdAt (.message msg.role msg.content) spawnId
    else st.addChild .systemEvent msg.createdAt (.systemEvent msg.content) spawnId
  | .tool tool => st.addChild .toolCall tool.executedAt tool.payload spawnId

def injectSubagentActivity (iter : Iteration) (agentId : String) (messages : List TuiMessage)
    (tools : List ToolExecutionEntry) : JournalTreeState :=
  match (iter.values (st.nodes.entries.map Sigma.snd)).find? (JournalNode.spawns · agentId) with
  | none => st
  | some n =>
    let tree := (flatEvents messages tools).foldl (fun st e => st.injectEvent n.id e) st
    { tree with renderListDirty := true }

/-! ## The render list -/

/-- The depth of the recursion is bounded by `fuel`; `none` where it is not enough. -/
def dfs : ℕ → JournalNodeId → ℕ → Bool → List Bool → Option (List RenderItem)
  | 0,_,_,_,_ => none
  | fuel + 1,id,depth,isLast,ancestorHasMore =>
    let children := st.childrenOf id
    let item : RenderItem :=
      ⟨id,depth,isLast,ancestorHasMore,decide (id ∈ st.collapsed),!children.isEmpty⟩
    if item.hasChildren && !item.isCollapsed then
      (children.zipIdx.mapM (fun c => dfs fuel c.1 (depth + 1) (c.2 = children.length - 1)
        (ancestorHasMore ++ [!isLast]))).map (fun items => item :: items.flatten)
    else some [item]

def renderItems (fuel : ℕ) : Option (List RenderItem) :=
  (st.roots.zipIdx.mapM (fun r => st.dfs fuel r.1 0 (r.2 = st.roots.length - 1) [])).map
    List.flatten

def recomputeRenderList : Option JournalTreeState :=
  if st.renderListDirty then
    (st.renderItems st.nextId).map
      (fun items => { st with renderList := items,renderListDirty := false })
  else some st

/-! ## The cursor -/

def cursorNext : Option JournalTreeState :=
  st.recomputeRenderList.map (fun st =>
    let ids := st.renderList.map RenderItem.nodeId
    match st.cursor.bind (fun c => ids.idxOf? c) with
    | some idx =>
      match ids[idx + 1]? with
      | some next => { st with cursor := some next }
      | none => st
    | none => if ids = [] then st else { st with cursor := ids.head? })

def cursorPrev : Option JournalTreeState :=
  st.recomputeRenderList.map (fun st =>
    let ids := st.renderList.map RenderItem.nodeId
    match st.cursor.bind (fun c => ids.idxOf? c) with
    | some idx => if 0 < idx then { st with cursor := ids[idx - 1]? } else st
    | none => if ids = [] then st else { st with cursor := ids.getLast? })

def cursorFirst : Option JournalTreeState :=
  st.recomputeRenderList.map (fun st =>
    { st with cursor := st.renderList.head?.map RenderItem.nodeId })

def cursorLast : Option JournalTreeState :=
  st.recomputeRenderList.map (fun st =>
    { st with cursor := st.renderList.getLast?.map RenderItem.nodeId })

def toggleCollapse (id : JournalNodeId) : JournalTreeState :=
  { st with
    collapsed := if id ∈ st.collapsed then st.collapsed.erase id else insert id st.collapsed
    renderListDirty := true }

def expand (id : JournalNodeId) : JournalTreeState :=
  { st with collapsed := st.collapsed.erase id,renderListDirty := true }

def collapse (id : JournalNodeId) : JournalTreeState :=
  if st.childrenOf id = [] then st
  else { st with collapsed := insert id st.collapsed,renderListDirty := true }

def cursorCollapseOrParent : JournalTreeState :=
  match st.cursor with
  | none => st
  | some cursor =>
    if st.childrenOf cursor ≠ [] ∧ cursor ∉ st.collapsed then st.collapse cursor
    else
      match (st.nodes.lookup cursor).bind JournalNode.parent with
      | some parentId => { st with cursor := some parentId }
      | none => st

end JournalTreeState

/-! ## Runs -/

/-- `renderList` and `cursorRenderIndex` are the two that only compute the list. -/
inductive JournalOp where
  | markDirty
  | rebuildIfStale (messages : List TuiMessage) (tools : List ToolExecutionEntry)
  | rebuildFromFlat (messages : List TuiMessage) (tools : List ToolExecutionEntry)
  | injectSubagentActivity (iter : Iteration) (agentId : String) (messages : List TuiMessage)
      (tools : List ToolExecutionEntry)
  | renderList
  | cursorNext
  | cursorPrev
  | cursorFirst
  | cursorLast
  | cursorRenderIndex
  | toggleCollapse (id : JournalNodeId)
  | expand (id : JournalNodeId)
  | collapse (id : JournalNodeId)
  | cursorCollapseOrParent

/-- `none` where the operation does not return. -/
def JournalTreeState.step (st : JournalTreeState) : JournalOp → Option JournalTreeState
  | .markDirty => some { st with renderListDirty := true }
  | .rebuildIfStale messages tools => some (st.rebuildIfStale messages tools)
  | .rebuildFromFlat messages tools => some (st.rebuildFromFlat messages tools)
  | .injectSubagentActivity iter agentId messages tools =>
    some (st.injectSubagentActivity iter agentId messages tools)
  | .renderList => st.recomputeRenderList
  | .cursorNext => st.cursorNext
  | .cursorPrev => st.cursorPrev
  | .cursorFirst => st.cursorFirst
  | .cursorLast => st.cursorLast
  | .cursorRenderIndex => st.recomputeRenderList
  | .toggleCollapse id => some (st.toggleCollapse id)
  | .expand id => some (st.expand id)
  | .collapse id => some (st.collapse id)
  | .cursorCollapseOrParent => some st.cursorCollapseOrParent

end Rullama.Tui
