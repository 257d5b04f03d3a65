import Rullama.Replay.Asking
import Rullama.Tools.Json

/-! # Orchestration of tools by a script

The model writes a script whose tool calls are looked up in a cache. A run that misses some
returns them, the caller invokes them and runs the script again. The scripting engine and
the caller's JSON library are parameters; what a script does is a computation that asks for
the results of its calls and gets an error, which it may catch, where there is none.
-/
namespace Rullama.Native
open Replay (Asking)
open Tools (trim)

/-- A tool's name and its argument, the empty text for a call without one. -/
abbrev ToolCall := String × String

/-- It ends with the text of its value or of its error. -/
abbrev Script (V : Type*) := Asking ToolCall V (Except String String)

/-- The evaluation of a script's text, with functions registered under these names. -/
structure Rhai (V : Type*) where
  eval : String → List String → Script V

structure JsonLibrary (V : Type*) where
  parse : String → Option V
  create : String → V
  serialize : String → String

abbrev Cache (V : Type*) := String → Option V

variable {V : Type*}

/-! ## One pass -/

def cacheKey (c : ToolCall) : String := c.1 ++ "\x01" ++ c.2

def registeredNames (toolNames : String) : List String :=
  ((toolNames.toList.splitOn ',').map (fun name => trim (.ofList name))).filter (fun name => name ≠ "")

inductive Envelope where
  | needed (calls : List ToolCall)
  | final (value : String)
  | error (message : String)

def runOrchestrator (rhai : Rhai V) (script : String) (cache : Cache V) (toolNames : String) :
    Envelope :=
  match (rhai.eval script (registeredNames toolNames)).replay (fun c => cache (cacheKey c)) with
  | (.ok value,[]) => .final value
  | (.error message,[]) => .error message
  | (_,c :: calls) => .needed (c :: calls)

/-! ## The caller -/

/-- A tool's result is JSON text; invoking it can throw. -/
structure ITool where
  name : String
  invoke : String → Except String String

def toolNamesCsv (tools : List ITool) : String := ",".intercalate (tools.map ITool.name)

variable (json : JsonLibrary V) (tools : List ITool)

def safeInvoke (tool : ITool) (arg : String) : String :=
  match tool.invoke arg with
  | .ok text => text
  | .error message => json.serialize ("(error in " ++ tool.name ++ ": " ++ message ++ ")")

def parseOrString (text : String) : V := (json.parse text).getD (json.create text)

/-- The result of a call, as the script gets it. -/
def resolve (c : ToolCall) : V :=
  parseOrString json (match tools.find? (fun tool => tool.name = c.1) with
    | none => json.serialize ("(unknown tool '" ++ c.1 ++ "')")
    | some tool => safeInvoke json tool c.2)

def storeResults (cache : Cache V) (calls : List ToolCall) : Cache V :=
  calls.foldl (fun cache c => Function.update cache (cacheKey c) (some (resolve json tools c))) cache

variable (rhai : Rhai V) (script : String)

/-- The passes that are left: the value or the error, and the calls that are invoked. -/
def runPasses (maxPasses : ℕ) : ℕ → Cache V → Except String String × List ToolCall
  | 0, _ =>
    (.error ("orchestrator did not converge in " ++ toString maxPasses ++ " passes"),[])
  | n + 1, cache =>
    match runOrchestrator rhai script cache (toolNamesCsv tools) with
    | .final value => (.ok value,[])
    | .error message => (.error message,[])
    | .needed calls =>
      if calls = [] then (.error "orchestrator returned no progress",[])
      else (runPasses maxPasses n (storeResults json tools cache calls)).map id (calls ++ ·)

def runAsync (maxPasses : ℕ) : Except String String × List ToolCall :=
  runPasses json tools rhai script maxPasses maxPasses (fun _ => none)

/-- The evaluation of the script with the tools called directly. -/
def directly : Except String String × List ToolCall :=
  (rhai.eval script (registeredNames (toolNamesCsv tools))).answered (resolve json tools)

end Rullama.Native
