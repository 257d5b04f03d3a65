import Rullama.Agent.Process
import Mathlib.Data.List.Sort

/-! # Plan mode

The planning conversation of an agent takes the place of the main one, which is set aside
meanwhile. Plans are rows of a table, any access to which can fail.
-/
namespace Rullama.PlanMode
open Agent (Message Role PlanModeStream)
open Tools (contains)

structure DisplayMessage where
  role : String
  content : String
  timestamp : ℤ
deriving DecidableEq

structure PlanModeState where
  planSessionId : String
  mainSessionId : String
  messages : List DisplayMessage
  conversationHistory : List Message
  startedAt : ℤ
  updatedAt : ℤ
  focus : Option String
  active : Bool

namespace PlanModeState
variable (plan : PlanModeState) (now : ℤ)

def new (planSessionId mainSessionId : String) (focus : Option String) : PlanModeState :=
  ⟨planSessionId,mainSessionId,[],[],now,now,focus,true⟩

def touch : PlanModeState := { plan with updatedAt := now }

def addMessage (message : DisplayMessage) : PlanModeState :=
  { plan with messages := plan.messages ++ [message] }.touch now

def addToHistory (message : Message) : PlanModeState :=
  { plan with conversationHistory := plan.conversationHistory ++ [message] }.touch now

def clear : PlanModeState := { plan with messages := [], conversationHistory := [] }.touch now

def deactivate : PlanModeState := { plan with active := false }.touch now

def activate : PlanModeState := { plan with active := true }.touch now

end PlanModeState

/-! ## The table of plans -/

/-- How the two steps of a save went. -/
structure SaveOutcome where
  deleted : Except String Unit
  added : Except String Unit

def delete (rows : List PlanModeState) (planSessionId : String) (deleted : Except String Unit) :
    List PlanModeState :=
  match deleted with
  | .error _ => rows
  | .ok () => rows.filter (fun row => row.planSessionId ≠ planSessionId)

/-- `PlanModeStore::save`, which adds the row even when the old one could not be deleted -/
def save (rows : List PlanModeState) (plan : PlanModeState) (outcome : SaveOutcome) :
    List PlanModeState :=
  let rows := delete rows plan.planSessionId outcome.deleted
  match outcome.added with
  | .error _ => rows
  | .ok () => rows ++ [plan]

/-- The active plan of a session that was updated last. -/
def getByMainSession (rows : List PlanModeState) (mainSessionId : String) : Option PlanModeState :=
  ((rows.filter (fun row => row.mainSessionId = mainSessionId && row.active)).insertionSort
    (fun a b => b.updatedAt ≤ a.updatedAt)).head?

/-! ## The agent -/

structure SavedMainContext where
  messages : List DisplayMessage
  conversationHistory : List Message
  scroll : ℕ
  status : String

structure Tool where
  name : String
  description : String
deriving DecidableEq

structure AgentState where
  sessionId : String
  model : String
  messages : List DisplayMessage
  conversationHistory : List Message
  status : String
  isBusy : Bool := false
  tools : List Tool
  planModeState : Option PlanModeState := none
  savedMainContext : Option SavedMainContext := none
  isPlanMode : Bool := false
  /-- the table `plan_mode_sessions` -/
  rows : List PlanModeState := []

inductive Reply where
  | error (message : String) (fatal : Bool)
  | planModeEntered (planSessionId : String) (messages : List DisplayMessage) (status : String)
  | planModeExited (summary : Option String)

/-- What a call returns, unless it panics. -/
inductive CallResult (α : Type) where
  | returned (result : Except String α)
  | panicked

/-- The Unicode lower case, and the system prompt for a focus. -/
structure Texts where
  toLowercase : String → String
  planModeSystemPrompt : String → String

/-- What an entry meets: the database, the read of the plan, a new plan's id, and its save. -/
structure EnterOutcome where
  opened : Except String Unit
  read : Except String Unit
  planSessionId : String
  saved : SaveOutcome

structure StoreOutcome where
  opened : Except String Unit
  saved : SaveOutcome

/-! ## The summary -/

/-- The first bytes of a text, where they end between two characters. -/
def byteSlice : List Char → ℕ → Option (List Char)
  | _, 0 => some []
  | [], _ + 1 => none
  | c :: cs, n + 1 =>
    if c.utf8Size ≤ n + 1 then (byteSlice cs (n + 1 - c.utf8Size)).map (c :: ·) else none

def isCharBoundary : List Char → ℕ → Bool
  | _, 0 => true
  | [], _ + 1 => false
  | c :: cs, n + 1 => decide (c.utf8Size ≤ n + 1) && isCharBoundary cs (n + 1 - c.utf8Size)

theorem byteSlice_isSome (cs : List Char) (n : ℕ) :
    (byteSlice cs n).isSome = isCharBoundary cs n := by
  fun_induction byteSlice cs n with
  | case1 => simp [isCharBoundary]
  | case2 => rfl
  | case3 c cs n hsize ih => simp [isCharBoundary,hsize,ih]
  | case4 c cs n hsize => simp [isCharBoundary,hsize]

def lastLongReply (messages : List DisplayMessage) : Option DisplayMessage :=
  messages.reverse.find? (fun m => m.role = "assistant" && 100 < m.content.utf8ByteSize)

/-- It has headers or lists. -/
def looksLikePlan (content : String) : Bool :=
  content.toList.contains '#' || contains content "- " || contains content "1."

/-- `none` where the slice of the first 500 bytes panics. -/
def generatePlanSummary (messages : List DisplayMessage) : Option (Option String) :=
  match lastLongReply messages with
  | none => some none
  | some m =>
    if looksLikePlan m.content then
      if 500 < m.content.utf8ByteSize then
        (byteSlice m.content.toList 500).map (fun cs => some (.ofList cs ++ "..."))
      else some (some m.content)
    else some none

/-! ## The operations -/

def withoutSystem (history : List Message) : List Message :=
  history.filter (fun m => m.role ≠ .system)

def readOnlyTools : List String :=
  ["read_file","list_directory","search_files","grep","find_files","get_file_info","tree","cat",
    "head","tail"]

namespace AgentState
variable (T : Texts) (a : AgentState)

def matchesReadOnly (tool : Tool) : Bool :=
  readOnlyTools.any (contains (T.toLowercase tool.name))

def getPlanModeTools : List Tool := a.tools.filter (matchesReadOnly T)

def buildPlanModeSystemPrompt : String :=
  T.planModeSystemPrompt (((a.planModeState.bind PlanModeState.focus)).getD "the task at hand")

def buildPlanModeConversationHistory (plan : PlanModeState) : List Message :=
  ⟨.system,.text (a.buildPlanModeSystemPrompt T)⟩ :: plan.conversationHistory

/-- The plan that an entry finds, or a new one. -/
def planToEnter (focus : Option String) (o : EnterOutcome) (now : ℤ) : PlanModeState :=
  match o.read, getByMainSession a.rows a.sessionId with
  | .ok (), some existing =>
    let plan := existing.activate now
    { plan with focus := focus <|> plan.focus }
  | _, _ => .new now o.planSessionId a.sessionId focus

def savedContext : SavedMainContext := ⟨a.messages,a.conversationHistory,0,a.status⟩

def enterPlanMode (focus : Option String) (o : EnterOutcome) (now : ℤ) :
    AgentState × Except String Reply :=
  if a.isPlanMode then (a,.ok (.error "Already in plan mode" false))
  else
    let b := { a with savedMainContext := some a.savedContext }
    match o.opened with
    | .error e => (b,.error e)
    | .ok () =>
      let plan := b.planToEnter focus o now
      let b := { b with planModeState := some plan, isPlanMode := true }
      let b := { b with
        messages := plan.messages
        conversationHistory := b.buildPlanModeConversationHistory T plan
        status := "Plan Mode - Focus: " ++ focus.getD "general planning"
        rows := save b.rows plan o.saved }
      (b,.ok (.planModeEntered plan.planSessionId plan.messages b.status))

/-- The plan's state as an exit saves it. -/
def planToSave (plan : PlanModeState) (now : ℤ) : PlanModeState :=
  { plan with
    messages := a.messages
    conversationHistory := withoutSystem a.conversationHistory }.deactivate now

/-- What is left of an exit when the plan has been saved. -/
def leavePlanMode : AgentState × CallResult Reply :=
  match generatePlanSummary a.messages with
  | none => (a,.panicked)
  | some summary =>
    let b := match a.savedMainContext with
      | some saved => { a with
          savedMainContext := none
          messages := saved.messages
          conversationHistory := saved.conversationHistory
          status := saved.status }
      | none => { a with status := "Ready - Model: " ++ a.model }
    ({ b with isPlanMode := false },.returned (.ok (.planModeExited summary)))

def exitPlanMode (o : StoreOutcome) (now : ℤ) : AgentState × CallResult Reply :=
  if !a.isPlanMode then (a,.returned (.ok (.error "Not in plan mode" false)))
  else
    match a.planModeState with
    | none => a.leavePlanMode
    | some plan =>
      let plan := a.planToSave plan now
      let b := { a with planModeState := some plan }
      match o.opened with
      | .error e => (b,.returned (.error e))
      | .ok () => { b with rows := save b.rows plan o.saved }.leavePlanMode

/-- A message of the plan, in the conversation and in the plan's own state. -/
def addPlanMessage (message : DisplayMessage) (entry : Message) (now : ℤ) : AgentState :=
  { a with
    messages := a.messages ++ [message]
    conversationHistory := a.conversationHistory ++ [entry]
    planModeState := a.planModeState.map
      (fun plan => (plan.addMessage now message).addToHistory now entry) }

/-- `process_plan_mode_input`: what is left, and the tools that are offered to the provider. -/
def processPlanModeInput (content : String) (stream : PlanModeStream) (now later : ℤ) :
    AgentState × Except String (List Tool) :=
  if !a.isPlanMode then (a,.error "Not in plan mode")
  else
    let asked := a.addPlanMessage ⟨"user",content,now⟩ (.user content) now
    let tools := asked.getPlanModeTools T
    let response := String.join stream.texts
    let answered := if response = "" then asked
      else asked.addPlanMessage ⟨"assistant",response,later⟩ (.assistant response) later
    ({ answered with isBusy := false },.ok tools)

def clearPlanMode (o : StoreOutcome) (now : ℤ) : AgentState × Except String Unit :=
  let cleared : AgentState × Except String Unit := match a.planModeState with
    | none => (a,.ok ())
    | some plan =>
      let plan := plan.clear now
      let b := { a with planModeState := some plan }
      match o.opened with
      | .error e => (b,.error e)
      | .ok () => ({ b with rows := save b.rows plan o.saved },.ok ())
  match cleared with
  | (b,.error e) => (b,.error e)
  | (b,.ok ()) =>
    if b.isPlanMode then
      ({ b with
        messages := []
        conversationHistory := b.conversationHistory.filter (fun m => m.role = .system) },.ok ())
    else (b,.ok ())

end AgentState
end Rullama.PlanMode
