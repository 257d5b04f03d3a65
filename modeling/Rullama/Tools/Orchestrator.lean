import Rullama.Tools.Gate

/-! # Scripts and their executors

`execute_script` runs a script that calls tools by name. The tools it can call are closures
registered with the orchestrator, each with its own parameter checks; the script itself and
what the calls return are arbitrary.
-/
namespace Rullama.Tools

/-- `split_whitespace().next().unwrap_or("")` -/
def firstWord (s : String) : String :=
  .ofList ((s.toList.dropWhile isWhitespace).takeWhile (fun c => !isWhitespace c))

/-- A closure registered with the orchestrator: what it checks before it does its work.
The flag says that a tokio runtime is there to run asynchronous work on. -/
structure Executor where
  name : String
  check : Bool → Value → Except String Unit

def requires (name : String) : List String → Value → Except String Unit
  | [], _ => .ok ()
  | param :: params, input =>
    match input.str param with
    | some _ => requires name params input
    | none => .error (name ++ " requires '" ++ param ++ "' parameter")

/-- An executor that works in place. -/
def Executor.inPlace (name : String) (params : List String) : Executor where
  name
  check _ input := requires name params input

/-- An executor that blocks on asynchronous work. -/
def Executor.blocking (name : String) (params : List String) : Executor where
  name
  check runtime input := do
    requires name params input
    if runtime then .ok () else .error "No tokio runtime available"

def safePrefixes : List String :=
  ["ls", "cat", "head", "tail", "wc", "grep", "rg", "find", "echo", "pwd", "date", "which",
    "file", "stat"]

def isSafe (command : String) : Bool := safePrefixes.any (startsWith command)

/-- The executor of `execute_command`, which hands the command to `sh -c`. -/
def commandExecutor : Executor where
  name := "execute_command"
  check _ input :=
    match input.str "command" with
    | none => .error "execute_command requires 'command' parameter"
    | some command =>
      if isSafe command then .ok ()
      else .error ("Command '" ++ firstWord command ++
        "' not allowed in orchestrator context. Safe commands: [" ++
        ", ".intercalate (safePrefixes.map (fun p => "\"" ++ p ++ "\"")) ++ "]")

/-! ## Registration -/

open Executor

def fileOpsExecutors : List Executor :=
  [inPlace "read_file" ["path"], inPlace "list_directory" [],
    inPlace "write_file" ["path", "content"], inPlace "edit_file" ["path", "old_text", "new_text"],
    inPlace "create_directory" ["path"], inPlace "delete_file" ["path"]]

def searchExecutors : List Executor :=
  [inPlace "search_files" ["pattern"], inPlace "search_code" ["pattern"]]

def gitExecutors : List Executor :=
  [inPlace "git_status" [], inPlace "git_diff" [], inPlace "git_log" [], inPlace "git_show" []]

def semanticSearchExecutors : List Executor :=
  [blocking "query_codebase" ["query"], blocking "index_codebase" ["path"],
    blocking "search_with_filters" [], blocking "get_rag_statistics" [],
    blocking "search_git_history" []]

def agentPoolExecutors : List Executor :=
  [blocking "agent_spawn" ["description"], blocking "agent_status" ["agent_id"],
    blocking "agent_list" [], blocking "agent_stop" ["agent_id"],
    blocking "agent_await" ["agent_id"], blocking "agent_pool_stats" [],
    blocking "agent_file_locks" []]

def taskManagerExecutors : List Executor :=
  [blocking "task_create" ["description"], blocking "task_start" ["task_id"],
    blocking "task_complete" ["task_id"], blocking "task_fail" ["task_id"],
    blocking "task_tree" [], blocking "task_ready" [], blocking "task_stats" []]

/-- What the executor was configured with when the orchestrator was initialised. -/
structure Registration where
  mcpTools : List String := []
  agentPool : Bool := false
  taskManager : Bool := false
  provider : Bool := false
  runtime : Bool := true

/-- `initialize_orchestrator` -/
def Registration.executors (r : Registration) : List Executor :=
  fileOpsExecutors ++ searchExecutors ++ gitExecutors ++ [commandExecutor] ++
    semanticSearchExecutors ++ [blocking "recall_context" ["query"]] ++
    [blocking "execute_code" ["language", "code"]] ++ r.mcpTools.map (blocking · []) ++
    (if r.agentPool then agentPoolExecutors else []) ++
    (if r.taskManager then taskManagerExecutors else []) ++
    (if r.provider then [blocking "plan_task" ["task"]] else []) ++
    [blocking "fetch_url" ["url"]] ++ [inPlace "search_tools" ["query"]]

/-! ## Scripts -/

structure Call where
  name : String
  input : Value

/-- A script: it ends, or calls a tool and goes on with what the call returned. -/
inductive Script where
  | done (content : String)
  | call (c : Call) (next : Except String String → Script)

namespace Registration
variable (r : Registration)

def check (c : Call) : Except String Unit :=
  match r.executors.find? (·.name == c.name) with
  | none => .error ("Function not found: " ++ c.name)
  | some x => x.check r.runtime c.input

/-- The call passes the checks of the executor registered under its name. -/
def Accepts (c : Call) : Prop := r.check c = .ok ()

instance (c : Call) : Decidable (r.Accepts c) :=
  match h : r.check c with
  | .ok () => .isTrue h
  | .error _ => .isFalse (by simp [Accepts,h])

/-- The calls that were performed, where the `n`-th of them returned `returns n`. -/
def perform (returns : ℕ → Except String String) : ℕ → Script → List Call
  | _, .done _ => []
  | n, .call c next =>
    match r.check c with
    | .error e => perform returns n (next (.error e))
    | .ok _ => c :: perform returns (n + 1) (next (returns n))

/-- The calls that the script tried. -/
def attempts (returns : ℕ → Except String String) : ℕ → Script → List Call
  | _, .done _ => []
  | n, .call c next =>
    match r.check c with
    | .error e => c :: attempts returns n (next (.error e))
    | .ok _ => c :: attempts returns (n + 1) (next (returns n))

theorem perform_eq (returns : ℕ → Except String String) (n : ℕ) (script : Script) :
    r.perform returns n script = (r.attempts returns n script).filter (r.Accepts ·) := by
  induction script generalizing n with
  | done content => rfl
  | call c next ih =>
    cases hc : r.check c with
    | error e =>
      have ha : ¬ r.Accepts c := by simp [Accepts,hc]
      simp only [perform,attempts,hc]
      rw [List.filter_cons_of_neg (by simpa using ha)]
      exact ih (.error e) n
    | ok u =>
      have ha : r.Accepts c := hc
      simp only [perform,attempts,hc]
      rw [List.filter_cons_of_pos (by simpa using ha),ih (returns n) (n + 1)]

end Registration

namespace ToolExecutor
variable (self : ToolExecutor) (ext : External) (r : Registration)

/-- What one `execute_script` run performs: nothing unless `execute` reaches `route_tool`. -/
def executeScript (id : String) (input : Value) (context : ToolContext) (script : Script)
    (returns : ℕ → Except String String) : List Call :=
  if (self.execute ext ⟨id,"execute_script",input⟩ context).routed then r.perform returns 0 script
  else []

/-- `execute` would refuse the call by the block list, a deny rule or the permission mode. -/
def Refuses (c : Call) : Prop :=
  (self.orgRefusal c.name).isSome = true ∨ (self.settingsRefusal ⟨"",c.name,c.input⟩).isSome = true ∨
    ∃ tool ∈ self.registry c.name, (self.readOnlyRefusal tool c.name).isSome = true

theorem execute_of_refuses {c : Call} (h : self.Refuses c) (id : String) (context : ToolContext) :
    (self.execute ext ⟨id,c.name,c.input⟩ context).routed = false := by
  by_contra hr
  obtain ⟨tool,ht,hn,-⟩ := execute_routed (Bool.not_eq_false _ ▸ hr)
  simp only [refusal,Option.or_eq_none_iff] at hn
  obtain ⟨⟨⟨⟨ho,hs⟩,-⟩,-⟩,hm⟩ := hn
  rcases h with h | h | ⟨tool',ht',h⟩
  · simp [ho] at h
  · have hs : self.settingsRefusal ⟨"",c.name,c.input⟩ = none := hs
    simp [hs] at h
  · cases ht.symm.trans ht'
    simp [hm] at h

/-- The gate judges the `execute_script` call alone. Once that is let through, a call of the
script is performed exactly when its executor's own checks accept it. -/
theorem executeScript_performs (id : String) (input : Value) (context : ToolContext)
    (script : Script) (returns : ℕ → Except String String) :
    self.executeScript ext r id input context script returns =
      if (self.execute ext ⟨id,"execute_script",input⟩ context).routed then
        (r.attempts returns 0 script).filter (r.Accepts ·)
      else [] := by
  rw [executeScript,r.perform_eq]

end ToolExecutor

/-- The organisation has blocked `delete_file`, and a deny rule names it as well. -/
def blockingExecutor : ToolExecutor where
  registry := fun _ => some ⟨"a tool",false⟩
  orgBlockedTools := ["delete_file"]
  permissions := some { deny := ["delete_file"] }

def deletion : Call := ⟨"delete_file",.object [("path",.string "notes.txt")]⟩

/-- A script deletes the file all the same. -/
theorem blockingExecutor_bypassed :
    ¬ ∀ (self : ToolExecutor) (ext : External) (r : Registration) (id : String) (input : Value)
      (context : ToolContext) (script : Script) (returns : ℕ → Except String String),
      ∀ c ∈ self.executeScript ext r id input context script returns, ¬ self.Refuses c := by
  intro h
  have hp : blockingExecutor.executeScript quietExternal {} "t1" .null {}
      (.call deletion (fun _ => .done "")) (fun _ => .ok "") = [deletion] := rfl
  refine h blockingExecutor quietExternal {} "t1" .null {} (.call deletion (fun _ => .done ""))
    (fun _ => .ok "") deletion ?_ (.inl (by decide))
  rw [hp]
  exact List.mem_singleton.mpr rfl

end Rullama.Tools
