import Rullama.Agent.Conversation

/-! # The agent process: plan mode, slash commands and exit

The conversation with the handlers around it that set or clear `is_busy` and
`exit_when_done`. The process ends when `check_exit_condition` finds the one set and the
other clear.
-/
namespace Rullama.Agent
open Transition

inductive CommandAction where
  | clearHistory
  | showStatus
  | exit
  | switchModel (model : String)
  | execCommand
  | other

inductive CommandResult where
  | message (text : String)
  | help (lines : List String)
  | action (action : CommandAction) (name : String)
  | actionWithMessage (name text : String)

structure PlanModeState where
  messages : List DisplayMessage
  conversationHistory : List Entry
  focus : Option String

/-- A response stream in plan mode: its texts, and the `Done` or the error after them. -/
structure PlanModeStream where
  texts : List String
  ending : Option (Except String Unit)

/-- What the stream of a plan mode input sends. -/
def PlanModeStream.updates (stream : PlanModeStream) : List AgentMessage :=
  stream.texts.map .planModeStreamChunk ++
    match stream.ending with
    | some (.ok ()) => [.planModeStreamEnd (some "stop")]
    | some (.error e) => [.error e false]
    | none => []

structure Process where
  sessionId : String
  agent : AgentState
  exitWhenDone : Bool := false
  isPlanMode : Bool := false
  planModeState : Option PlanModeState := none
  savedMainContext : Option (List DisplayMessage × List Entry × String) := none
  /-- the tasks of `PlanModeUserInput` that wait for the lock -/
  planInputs : List String := []
  /-- ghost: `Exit` or `/exit` was received -/
  exitAsked : Bool := false

inductive ProcessEvent where
  | chat (e : Event)
  | detach (viewer : ℕ) (exitWhenDone : Bool)
  | exit (viewer : ℕ)
  | slashCommand (viewer : ℕ) (command : String) (blocked : Bool)
      (result : Except String CommandResult)
  | parentSignal (viewer : ℕ) (signal : ParentSignalType)
  /-- with the plan in storage, or what went wrong there, and the system prompt for it -/
  | enterPlanMode (viewer : ℕ) (focus : Option String)
      (stored : Except String (Option PlanModeState)) (systemPrompt : String)
  | exitPlanMode (viewer : ℕ) (saved : Except String Unit)
  | planModeUserInput (viewer : ℕ) (content : String)
  | processPlanModeInput (content : String) (stream : PlanModeStream)

namespace Process
variable (p : Process)

def send (update : AgentMessage) : Process := { p with agent := p.agent.send update }

/-- `check_exit_condition` returns. -/
def checkExitCondition : Bool := p.exitWhenDone && !p.agent.isBusy

def detach (exitWhenDone : Bool) : Process := { p with exitWhenDone }.send (.ack "detach")

/-- `Exit` and the action of `/exit`. -/
def requestExit : Process :=
  { p with
    agent := { p.agent with isBusy := false }
    exitWhenDone := true
    exitAsked := true }

def exit (viewer : ℕ) : Process :=
  let q := (p.send (.ack "exit")).requestExit
  { q with agent := q.agent.disconnect viewer }

/-! ## Slash commands -/

/-- A command's text goes to the history alone. -/
def addExpanded (text : String) : Process :=
  { p with agent :=
    { p.agent with conversationHistory := p.agent.conversationHistory ++ [⟨.user text,none⟩] } }

/-- What a command's action does, whether it succeeded, what was done and the error. -/
def runAction (name : String) : CommandAction → Process × Bool × Option String × Option String
  | .clearHistory =>
    ({ p with agent := { p.agent with messages := [], conversationHistory := [] } },
      true,some "history_cleared",none)
  | .showStatus =>
    let status := "Session: " ++ p.sessionId ++ "\nModel: " ++ p.agent.model ++ "\nMessages: " ++
      toString p.agent.messages.length ++ "\nStatus: " ++ p.agent.status
    (p.send (.statusUpdate status),true,some ("status_shown: " ++ status),none)
  | .exit => (p.requestExit,true,some "exit_requested",none)
  | .switchModel model =>
    ({ p with agent := { p.agent with model } },true,some ("model_switched: " ++ model),none)
  | .execCommand => (p,false,none,some "ExecCommand is blocked for remote execution")
  | .other => (p,true,some name,none)

def slashCommand (command : String) (blocked : Bool) (result : Except String CommandResult) :
    Process :=
  if blocked then
    p.send (.slashCommandResult command false none none
      (some ("Command '" ++ command ++ "' is blocked for remote execution")) true)
  else
    match result with
    | .ok (.message text) =>
      (p.addExpanded text).send
        (.slashCommandResult command true (some text) (some "message_added") none false)
    | .ok (.help lines) =>
      p.send (.slashCommandResult command true (some ("\n".intercalate lines))
        (some "help_displayed") none false)
    | .ok (.actionWithMessage name text) =>
      (p.addExpanded text).send (.slashCommandResult command true (some text)
        (some ("action_with_message: " ++ name)) none false)
    | .ok (.action action name) =>
      let r := p.runAction name action
      r.1.send (.slashCommandResult command r.2.1 none r.2.2.1 r.2.2.2 false)
    | .error e => p.send (.slashCommandResult command false none none (some e) false)

def parentSignal (viewer : ℕ) : ParentSignalType → Process
  | .parentExiting => { p with exitWhenDone := true }.send (.parentSignalReceived .parentExiting)
  | .shutdown => { p with agent := p.agent.disconnect viewer }
  | .detached => p.send (.parentSignalReceived .detached)

/-! ## Plan mode -/

def planModeStatus (focus : Option String) : String :=
  "Plan Mode - Focus: " ++ focus.getD "general planning"

def enterPlanMode (focus : Option String) (stored : Except String (Option PlanModeState))
    (systemPrompt : String) : Process :=
  if p.isPlanMode then p.send (.error "Already in plan mode" false)
  else
    let q := { p with
      savedMainContext := some (p.agent.messages,p.agent.conversationHistory,p.agent.status) }
    match stored with
    | .error e => q.send (.error ("Failed to enter plan mode: " ++ e) false)
    | .ok existing =>
      let plan : PlanModeState := match existing with
        | some plan => { plan with focus := focus <|> plan.focus }
        | none => ⟨[],[],focus⟩
      { q with
        planModeState := some plan
        isPlanMode := true
        agent := { p.agent with
          messages := plan.messages
          conversationHistory := ⟨⟨.system,.text systemPrompt⟩,none⟩ :: plan.conversationHistory
          status := planModeStatus focus } }.send (.planModeEntered plan.messages)

/-- The state of the plan as it is saved. -/
def savedPlan : Option PlanModeState :=
  p.planModeState.map (fun plan => { plan with
    messages := p.agent.messages
    conversationHistory :=
      p.agent.conversationHistory.filter (fun e => e.message.role ≠ .system) })

def exitPlanMode (saved : Except String Unit) : Process :=
  if !p.isPlanMode then p.send (.error "Not in plan mode" false)
  else
    let q := { p with planModeState := p.savedPlan }
    match saved with
    | .error e => q.send (.error ("Failed to exit plan mode: " ++ e) false)
    | .ok () =>
      let agent := match p.savedMainContext with
        | some (messages,conversationHistory,status) =>
          { p.agent with messages, conversationHistory, status }
        | none => { p.agent with status := "Ready - Model: " ++ p.agent.model }
      { q with agent, savedMainContext := none, isPlanMode := false }.send .planModeExited

/-- A message of the plan, in the conversation and in the plan's own state. -/
def addPlanMessage (role content : String) (message : Message) : Process :=
  let shown : DisplayMessage := ⟨p.agent.messages.length,role,content⟩
  let entry : Entry := ⟨message,none⟩
  let q : Process := { p with
    agent := { p.agent with
      messages := p.agent.messages ++ [shown]
      conversationHistory := p.agent.conversationHistory ++ [entry] }
    planModeState := p.planModeState.map (fun plan => { plan with
      messages := plan.messages ++ [shown]
      conversationHistory := plan.conversationHistory ++ [entry] }) }
  q.send (.planModeMessageAdded shown)

/-- `process_plan_mode_input`, under the lock from its first step to its last. -/
def processPlanModeInput (content : String) (stream : PlanModeStream) : Process :=
  if !p.isPlanMode then p.send (.error "Plan mode error: Not in plan mode" false)
  else
    let asked := p.addPlanMessage "user" content (.user content)
    let busy := { asked with agent := { asked.agent with isBusy := true } }.send
      (.statusUpdate "Plan Mode - Thinking...")
    let streamed := stream.updates.foldl send busy
    let response := String.join stream.texts
    let answered := if response = "" then streamed
      else streamed.addPlanMessage "assistant" response (.assistant response)
    { answered with agent := { answered.agent with isBusy := false } }.send
      (.statusUpdate (planModeStatus (p.planModeState.bind PlanModeState.focus)))

/-- What is sent changes what the viewers have received. -/
theorem foldl_send_eq (updates : List AgentMessage) : updates.foldl send p =
    { p with agent := { p.agent with viewers := (updates.foldl send p).agent.viewers } } := by
  induction updates generalizing p with
  | nil => rfl
  | cons update updates ih => exact ih (p.send update)

/-! ## The machine -/

def Enabled : ProcessEvent → Prop
  | .chat e => p.agent.Enabled e
  | .detach viewer _ | .exit viewer | .slashCommand viewer _ _ _ | .parentSignal viewer _
  | .enterPlanMode viewer _ _ _ | .exitPlanMode viewer _ | .planModeUserInput viewer _ =>
    p.agent.Listens viewer
  | .processPlanModeInput content _ => content ∈ p.planInputs

instance : ∀ e, Decidable (p.Enabled e)
  | .chat e => inferInstanceAs (Decidable (p.agent.Enabled e))
  | .detach viewer _ | .exit viewer | .slashCommand viewer _ _ _ | .parentSignal viewer _
  | .enterPlanMode viewer _ _ _ | .exitPlanMode viewer _ | .planModeUserInput viewer _ =>
    inferInstanceAs (Decidable (p.agent.Listens viewer))
  | .processPlanModeInput content _ => inferInstanceAs (Decidable (content ∈ p.planInputs))

def next : ProcessEvent → Process
  | .chat e => { p with agent := p.agent.next e }
  | .detach _ exitWhenDone => p.detach exitWhenDone
  | .exit viewer => p.exit viewer
  | .slashCommand _ command blocked result => p.slashCommand command blocked result
  | .parentSignal viewer signal => p.parentSignal viewer signal
  | .enterPlanMode _ focus stored systemPrompt => p.enterPlanMode focus stored systemPrompt
  | .exitPlanMode _ saved => p.exitPlanMode saved
  | .planModeUserInput _ content => { p with planInputs := p.planInputs ++ [content] }
  | .processPlanModeInput content stream =>
    { p with planInputs := p.planInputs.erase content }.processPlanModeInput content stream

/-- A process that has loaded its conversation. -/
def new (sessionId model systemPrompt : String) (stored : List (String × String)) : Process :=
  { sessionId, agent := .new model systemPrompt stored }

end Process

def process : Machine Process ProcessEvent where
  enabled := Process.Enabled
  next := Process.next

instance (p : Process) (e : ProcessEvent) : Decidable (process.enabled p e) :=
  inferInstanceAs (Decidable (p.Enabled e))

end Rullama.Agent
