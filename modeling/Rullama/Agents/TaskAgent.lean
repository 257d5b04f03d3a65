import Rullama.Agent.Messages
import Rullama.Tools.FilePaths
import Rullama.Transition.Machine

/-! # A run of a task agent

`TaskAgent::execute` as a machine: one step for each call that the environment answers. The
provider, the tools, validation and the checkpoint store are external; so are the communication hub
and the file locks, of which the agent's own registration and its own lock are kept.
-/
namespace Rullama.Agents
open Agent (Message MessageContent ContentBlock)
open Tools (ToolUse ToolResult LockType getLockRequirement)
open Transition (Machine)

inductive Status where
  | idle
  | working (description : String)
  | waitingForLock (path : String)
  | paused (reason : String)
  | completed (summary : String)
  | failed (error : String)
deriving DecidableEq

structure Task where
  id : String
  description : String
  iterations : ℕ := 0
deriving DecidableEq

/-- A limit that is `none` is not checked. -/
structure Config where
  maxIterations : ℕ := 100
  validation : Bool := true
  maxTotalTokens : Option ℕ := none
  timeoutSecs : Option ℕ := none
  sessionBudget : Bool := false
deriving DecidableEq

/-- `text` is what `Message::text` finds in the message. -/
structure ChatResponse where
  message : Message
  text : Option String := none
  finishReason : Option String := none
  totalTokens : ℕ := 0

/-- `AgentMessage::TaskResult` -/
structure TaskResult where
  taskId : String
  success : Bool
  result : String
deriving DecidableEq

structure TaskAgentResult where
  agentId : String
  taskId : String
  success : Bool
  summary : String
  iterations : ℕ
deriving DecidableEq

/-- What the run waits for. -/
inductive Phase where
  | idle
  | looping
  | calling
  | recording (response : ChatResponse)
  | checking (response : ChatResponse)
  | completing (messageText : String)
  | tools (pending : List ToolUse)
  | locking (toolUse : ToolUse) (path : String) (lockType : LockType) (pending : List ToolUse)
  | executing (toolUse : ToolUse) (pending : List ToolUse)
  | returned (result : Except String TaskAgentResult)

/-- The agent with the locals of `execute`. `lock` is the guard of a lock that it holds, and
`results` what it broadcast as the result of its task. -/
structure TaskAgent where
  id : String
  task : Task
  config : Config
  status : Status := .idle
  history : List Message := []
  registered : Bool := false
  results : List TaskResult := []
  lock : Option (String × LockType) := none
  phase : Phase := .idle
  iterations : ℕ := 0
  totalTokensUsed : ℕ := 0
  /-- of the workflow checkpoint, where there is one -/
  completedToolIds : Option (List String) := none

inductive Event where
  | start (registers : Except String Unit) (checkpoint : Option (List String))
  | iterate (elapsedSecs : ℕ) (helpResponse : Option (String × String))
  | respond (response : Except String ChatResponse)
  | record
  | check (error : Option String)
  | validate (feedback : Option String)
  | nextTool
  | lock (outcome : Except String Unit)
  | toolDone (outcome : Except String ToolResult) (persisted : Bool)

def toolUses (message : Message) : List ToolUse :=
  match message.content with
  | .text _ => []
  | .blocks blocks => blocks.filterMap (fun
    | .toolUse call => some call
    | _ => none)

/-- The answer to a tool use, as a message of the user. -/
def toolResultMessage (toolUseId content : String) : Message :=
  ⟨.user,.blocks [.toolResult toolUseId content]⟩

namespace TaskAgent

variable (a : TaskAgent)

def push (m : Message) : TaskAgent := { a with history := a.history ++ [m] }

/-- The checkpoint holds the tool calls of a prior run, and of this one. -/
def isCompleted (toolUseId : String) : Bool :=
  match a.completedToolIds with
  | none => false
  | some ids => ids.contains toolUseId

/-! ## The exits -/

/-- A `?` leaves `execute` at once; the guard of a lock is dropped. -/
def leave (error : String) : TaskAgent := { a with lock := none,phase := .returned (.error error) }

/-- The end of a task: the status, the broadcast, `unregister_agent`, `release_all_locks`. -/
def finish (status : Status) (success : Bool) (summary : String) (iterations : ℕ) : TaskAgent :=
  { a with
    status := status
    results := a.results ++ [⟨a.task.id,success,summary⟩]
    registered := false
    lock := none
    phase := .returned (.ok ⟨a.id,a.task.id,success,summary,iterations⟩) }

def failAgent (error : String) : TaskAgent := a.finish (.failed error) false error a.iterations

/-! ## The loop -/

def start (registers : Except String Unit) (checkpoint : Option (List String)) : TaskAgent :=
  match a.registered,registers with
  | false,.error e => a.leave e
  | _,_ =>
    { a.push (.user a.task.description) with
      registered := true
      status := .working a.task.description
      completedToolIds := checkpoint
      iterations := 0
      totalTokensUsed := 0
      phase := .looping }

def helped (helpResponse : Option (String × String)) : TaskAgent :=
  match helpResponse with
  | none => a
  | some (requestId,response) =>
    a.push (.user ("Response to help request " ++ requestId ++ ": " ++ response))

def timedOut (elapsedSecs : ℕ) : Bool :=
  match a.config.timeoutSecs with
  | none => false
  | some timeoutSecs => timeoutSecs ≤ elapsedSecs

def iterate (elapsedSecs : ℕ) (helpResponse : Option (String × String)) : TaskAgent :=
  let a := { a with
    iterations := a.iterations + 1
    task := { a.task with iterations := a.task.iterations + 1 } }
  if a.timedOut elapsedSecs then
    a.failAgent ("Agent " ++ a.id ++ " timed out after " ++
      toString (a.config.timeoutSecs.getD 0) ++ "s")
  else if a.config.maxIterations ≤ a.iterations then
    a.failAgent ("Agent " ++ a.id ++ " exceeded maximum iterations (" ++
      toString a.config.maxIterations ++ ")")
  else { a.helped helpResponse with phase := .calling }

/-- What follows the budget checks. -/
def process (response : ChatResponse) : TaskAgent :=
  let messageText := response.text.getD "Task completed"
  let uses := toolUses response.message
  if response.finishReason = some "end_turn" ∨ response.finishReason = some "stop" ∨ uses = [] then
    { a with phase := .completing messageText }
  else { a.push response.message with phase := .tools uses }

def overTokens : Bool :=
  match a.config.maxTotalTokens with
  | none => false
  | some limit => limit < a.totalTokensUsed

def respond (response : Except String ChatResponse) : TaskAgent :=
  match response with
  | .error e => a.leave e
  | .ok response =>
    let a := { a with totalTokensUsed := a.totalTokensUsed + response.totalTokens }
    if a.overTokens then
      a.failAgent ("Agent " ++ a.id ++ " exceeded token budget (" ++ toString a.totalTokensUsed ++
        " > " ++ toString (a.config.maxTotalTokens.getD 0) ++ ")")
    else if a.config.sessionBudget then { a with phase := .recording response }
    else a.process response

def check (response : ChatResponse) (error : Option String) : TaskAgent :=
  match error with
  | some e => a.failAgent ("Agent " ++ a.id ++ " stopped: session budget — " ++ e)
  | none => a.process response

/-- `attempt_validated_completion`; an error of the validation itself is as if it passed. -/
def validate (messageText : String) (feedback : Option String) : TaskAgent :=
  match feedback with
  | some text =>
    if a.config.validation then { a.push (.user text) with phase := .looping }
    else a.finish (.completed messageText) true messageText a.task.iterations
  | none => a.finish (.completed messageText) true messageText a.task.iterations

/-! ## The tools -/

/-- A tool call that the checkpoint names is skipped. -/
def nextTool (pending : List ToolUse) : TaskAgent :=
  match pending with
  | [] => { a with phase := .looping }
  | t :: pending =>
    if a.isCompleted t.id then { a with phase := .tools pending }
    else
      match getLockRequirement t with
      | some (path,lockType) =>
        { a with status := .waitingForLock path,phase := .locking t path lockType pending }
      | none =>
        { a with status := .working ("Executing " ++ t.name),phase := .executing t pending }

def locked (t : ToolUse) (path : String) (lockType : LockType) (pending : List ToolUse)
    (outcome : Except String Unit) : TaskAgent :=
  match outcome with
  | .ok _ =>
    { a with
      status := .working ("Executing " ++ t.name)
      lock := some (path,lockType)
      phase := .executing t pending }
  | .error e =>
    { a.push (toolResultMessage t.id ("Could not acquire file lock: " ++ e)) with
      phase := .tools pending }

def toolDone (t : ToolUse) (pending : List ToolUse) (outcome : Except String ToolResult)
    (persisted : Bool) : TaskAgent :=
  match outcome with
  | .error e => a.leave e
  | .ok result =>
    { a.push (toolResultMessage result.toolUseId result.content) with
      completedToolIds :=
        if !result.isError && persisted then some (a.completedToolIds.getD [] ++ [t.id])
        else a.completedToolIds
      lock := none
      phase := .tools pending }

def next : Event → TaskAgent
  | .start registers checkpoint => a.start registers checkpoint
  | .iterate elapsedSecs helpResponse => a.iterate elapsedSecs helpResponse
  | .respond response => a.respond response
  | .record =>
    match a.phase with
    | .recording response => { a with phase := .checking response }
    | _ => a
  | .check error =>
    match a.phase with
    | .checking response => a.check response error
    | _ => a
  | .validate feedback =>
    match a.phase with
    | .completing messageText => a.validate messageText feedback
    | _ => a
  | .nextTool =>
    match a.phase with
    | .tools pending => a.nextTool pending
    | _ => a
  | .lock outcome =>
    match a.phase with
    | .locking t path lockType pending => a.locked t path lockType pending outcome
    | _ => a
  | .toolDone outcome persisted =>
    match a.phase with
    | .executing t pending => a.toolDone t pending outcome persisted
    | _ => a

/-- A provider answers as the assistant, and a tool under the id that it is given. -/
def enabled : Event → Bool
  | .start _ _ => match a.phase with
    | .idle => true
    | _ => false
  | .iterate _ _ => match a.phase with
    | .looping => true
    | _ => false
  | .respond response => match a.phase,response with
    | .calling,.ok response => response.message.role = .assistant
    | .calling,.error _ => true
    | _,_ => false
  | .record => match a.phase with
    | .recording _ => true
    | _ => false
  | .check _ => match a.phase with
    | .checking _ => true
    | _ => false
  | .validate _ => match a.phase with
    | .completing _ => true
    | _ => false
  | .nextTool => match a.phase with
    | .tools _ => true
    | _ => false
  | .lock _ => match a.phase with
    | .locking _ _ _ _ => true
    | _ => false
  | .toolDone outcome _ => match a.phase,outcome with
    | .executing t _,.ok result => result.toolUseId = t.id
    | .executing _ _,.error _ => true
    | _,_ => false

end TaskAgent

def machine : Machine TaskAgent Event := ⟨fun a e => a.enabled e = true,TaskAgent.next⟩

instance (a : TaskAgent) (e : Event) : Decidable (machine.enabled a e) :=
  inferInstanceAs (Decidable (a.enabled e = true))

/-! ## What a step does -/

/-- Every event belongs to one phase, and a step with it is what `next` makes of that phase. -/
inductive TaskAgent.Step (a : TaskAgent) : Event → TaskAgent → Prop
  | start (registers : Except String Unit) (checkpoint : Option (List String)) :
    a.phase = .idle → a.Step (.start registers checkpoint) (a.start registers checkpoint)
  | iterate (elapsedSecs : ℕ) (helpResponse : Option (String × String)) :
    a.phase = .looping →
      a.Step (.iterate elapsedSecs helpResponse) (a.iterate elapsedSecs helpResponse)
  | respond (response : Except String ChatResponse) : a.phase = .calling →
    (∀ r, response = .ok r → r.message.role = .assistant) →
      a.Step (.respond response) (a.respond response)
  | record (response : ChatResponse) : a.phase = .recording response →
    a.Step .record { a with phase := .checking response }
  | check (response : ChatResponse) (error : Option String) : a.phase = .checking response →
    a.Step (.check error) (a.check response error)
  | validate (messageText : String) (feedback : Option String) :
    a.phase = .completing messageText → a.Step (.validate feedback) (a.validate messageText feedback)
  | nextTool (pending : List ToolUse) : a.phase = .tools pending →
    a.Step .nextTool (a.nextTool pending)
  | lock (t : ToolUse) (path : String) (lockType : LockType) (pending : List ToolUse)
    (outcome : Except String Unit) : a.phase = .locking t path lockType pending →
      a.Step (.lock outcome) (a.locked t path lockType pending outcome)
  | toolDone (t : ToolUse) (pending : List ToolUse) (outcome : Except String ToolResult)
    (persisted : Bool) : a.phase = .executing t pending →
      (∀ r, outcome = .ok r → r.toolUseId = t.id) →
        a.Step (.toolDone outcome persisted) (a.toolDone t pending outcome persisted)

theorem step_of_enabled {a : TaskAgent} {e : Event} (he : machine.enabled a e) :
    a.Step e (machine.next a e) := by
  have he' : a.enabled e = true := he
  cases e with
  | start registers checkpoint =>
    cases ha : a.phase <;> simp only [TaskAgent.enabled,ha,Bool.false_eq_true] at he'
    exact .start registers checkpoint ha
  | iterate elapsedSecs helpResponse =>
    cases ha : a.phase <;> simp only [TaskAgent.enabled,ha,Bool.false_eq_true] at he'
    exact .iterate elapsedSecs helpResponse ha
  | respond response =>
    cases ha : a.phase <;> simp only [TaskAgent.enabled,ha,Bool.false_eq_true] at he'
    refine .respond response ha ?_
    rintro r rfl
    exact of_decide_eq_true he'
  | record =>
    cases ha : a.phase <;> simp only [TaskAgent.enabled,ha,Bool.false_eq_true] at he'
    simp only [machine,TaskAgent.next,ha]
    exact .record _ ha
  | check error =>
    cases ha : a.phase <;> simp only [TaskAgent.enabled,ha,Bool.false_eq_true] at he'
    simp only [machine,TaskAgent.next,ha]
    exact .check _ error ha
  | validate feedback =>
    cases ha : a.phase <;> simp only [TaskAgent.enabled,ha,Bool.false_eq_true] at he'
    simp only [machine,TaskAgent.next,ha]
    exact .validate _ feedback ha
  | nextTool =>
    cases ha : a.phase <;> simp only [TaskAgent.enabled,ha,Bool.false_eq_true] at he'
    simp only [machine,TaskAgent.next,ha]
    exact .nextTool _ ha
  | lock outcome =>
    cases ha : a.phase <;> simp only [TaskAgent.enabled,ha,Bool.false_eq_true] at he'
    simp only [machine,TaskAgent.next,ha]
    exact .lock _ _ _ _ outcome ha
  | toolDone outcome persisted =>
    cases ha : a.phase <;> simp only [TaskAgent.enabled,ha,Bool.false_eq_true] at he'
    simp only [machine,TaskAgent.next,ha]
    refine .toolDone _ _ outcome persisted ha ?_
    rintro r rfl
    exact of_decide_eq_true he'

/-- Nothing is enabled once `execute` has returned. -/
theorem not_enabled_of_returned {a : TaskAgent} {result : Except String TaskAgentResult}
    (h : a.phase = .returned result) (e : Event) : ¬ machine.enabled a e := by
  intro he
  have he' : a.enabled e = true := he
  cases e <;> simp only [TaskAgent.enabled,h,Bool.false_eq_true] at he'

end Rullama.Agents
