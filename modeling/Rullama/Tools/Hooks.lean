import Rullama.Tools.Settings

/-! # Hook dispatcher

User-supplied shell commands run before and after a tool. What the shell of the `n`-th
command of a dispatch ends with is an argument, as is the decoding of its standard error.
-/
namespace Rullama.Tools

structure HookCommand where
  kind : String := "command"
  command : String
  timeoutMs : Option ℕ := none
deriving DecidableEq

structure HookMatcher where
  matcher : Option String := none
  hooks : List HookCommand := []

inductive HookOutcome where
  | continue
  | block (reason : String)
  | softError (text : String)
deriving DecidableEq

/-- How running the command ended; `code` is `-1` where the process was killed. -/
inductive HookExit where
  | serialiseFailed (error : String)
  | spawnFailed (error : String)
  | waitFailed (error : String)
  | timedOut
  | exited (code : Int) (stderr : String)

def defaultHookTimeoutMs : ℕ := 5000

def matcherApplies (matcher : Option String) (toolName : String) : Bool :=
  match matcher with
  | none => true
  | some "*" => true
  | some s => toolNameMatches s toolName

def runHookCommand (hook : HookCommand) (ended : HookExit) : HookOutcome :=
  if hook.kind ≠ "command" then .softError ("unknown hook kind: " ++ hook.kind)
  else
    match ended with
    | .serialiseFailed e => .softError ("failed to serialise payload: " ++ e)
    | .spawnFailed e => .softError ("failed to spawn hook: " ++ e)
    | .waitFailed e => .softError ("hook error: " ++ e)
    | .timedOut => .softError ("hook timed out after " ++
        toString (hook.timeoutMs.getD defaultHookTimeoutMs) ++ "ms: " ++ hook.command)
    | .exited code stderr =>
      if code = 0 then .continue
      else if code = 2 then .block (if stderr.isEmpty then "blocked by hook" else stderr)
      else .softError ("hook exited with code " ++ toString code ++ ": " ++
        if stderr.isEmpty then "(no stderr)" else stderr)

/-- The loops of `run_matchers` over the commands of the matchers that apply: the commands
run, with their outcomes, and what the dispatch returns. -/
def runHooks (ends : ℕ → HookExit) : ℕ → List HookCommand →
    List (HookCommand × HookOutcome) × HookOutcome
  | _, [] => ([],.continue)
  | n, hook :: hooks =>
    match runHookCommand hook (ends n) with
    | .continue =>
      let r := runHooks ends (n + 1) hooks
      ((hook,.continue) :: r.1,r.2)
    | blocking => ([(hook,blocking)],blocking)

def runMatchers (ends : ℕ → HookExit) (matchers : List HookMatcher) (toolName : String) :
    List (HookCommand × HookOutcome) × HookOutcome :=
  runHooks ends 0 ((matchers.filter (fun m => matcherApplies m.matcher toolName)).flatMap (·.hooks))

variable {ends : ℕ → HookExit}

/-- The dispatch returns the first outcome that is not `continue`: a command that has
blocked is what it returns. -/
theorem runHooks_block {n : ℕ} {hooks : List HookCommand} {hook : HookCommand} {reason : String}
    (h : (hook,.block reason) ∈ (runHooks ends n hooks).1) :
    (runHooks ends n hooks).2 = .block reason := by
  induction hooks generalizing n with
  | nil => cases h
  | cons x xs ih =>
    simp only [runHooks] at h ⊢
    split at h
    · rcases List.mem_cons.mp h with h | h
      · cases h
      · exact ih h
    · exact (Prod.mk.inj (List.mem_singleton.mp h)).2.symm

theorem runMatchers_block {matchers : List HookMatcher} {toolName : String} {hook : HookCommand}
    {reason : String} (h : (hook,.block reason) ∈ (runMatchers ends matchers toolName).1) :
    (runMatchers ends matchers toolName).2 = .block reason := runHooks_block h

end Rullama.Tools
