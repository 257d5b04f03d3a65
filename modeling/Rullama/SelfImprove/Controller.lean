import Mathlib.Algebra.GroupWithZero.Nat
import Rullama.Transition.Machine
import Mathlib.Algebra.Ring.Rat

/-! # The self-improvement loop

Each task is tried by two paths that work in one and the same working tree, from which
everything is committed. A guard with four counters is asked before each cycle. What
`git diff --stat` prints is a parameter, of which the code uses the number of lines.
-/
namespace Rullama.SelfImprove
open Transition (Machine)

structure SelfImprovementConfig where
  maxCycles : ℕ := 10
  maxBudget : ℚ := 10
  dryRun : Bool := false
  maxDiffPerTask : ℕ := 200
  maxTotalDiff : ℕ := 1000
  noBridge : Bool := false
  noDirect : Bool := false
  circuitBreakerThreshold : ℕ := 3

/-! ## The guard -/

inductive SafetyStop where
  | budgetExceeded (cost : ℚ)
  | cycleLimitReached (cycles : ℕ)
  | circuitBreakerTripped (failures : ℕ)
  | diffLimitExceeded (lines : ℕ)

/-- `record_cost`, which would add to the cost, is called nowhere. -/
structure SafetyGuard where
  consecutiveFailures : ℕ := 0
  totalCost : ℚ := 0
  totalDiffLines : ℕ := 0
  cyclesCompleted : ℕ := 0

namespace SafetyGuard
variable (g : SafetyGuard) (cfg : SelfImprovementConfig)

def checkCanContinue : Except SafetyStop Unit :=
  if cfg.maxBudget ≤ g.totalCost then .error (.budgetExceeded g.totalCost)
  else if cfg.maxCycles ≤ g.cyclesCompleted then .error (.cycleLimitReached g.cyclesCompleted)
  else if cfg.circuitBreakerThreshold ≤ g.consecutiveFailures then
    .error (.circuitBreakerTripped g.consecutiveFailures)
  else if cfg.maxTotalDiff ≤ g.totalDiffLines then .error (.diffLimitExceeded g.totalDiffLines)
  else .ok ()

/-- The sum of changed lines is a `u32` that wraps. -/
def recordSuccess (diffLines : ℕ) : SafetyGuard :=
  { g with
    consecutiveFailures := 0
    totalDiffLines := (g.totalDiffLines + diffLines) % UInt32.size
    cyclesCompleted := g.cyclesCompleted + 1 }

def recordFailure : SafetyGuard :=
  { g with
    consecutiveFailures := g.consecutiveFailures + 1
    cyclesCompleted := g.cyclesCompleted + 1 }

end SafetyGuard

/-! ## The working tree -/

inductive Path where
  | direct
  | bridge
deriving DecidableEq

/-- One path of one cycle, the first cycle being number 0. -/
structure Attempt where
  cycle : ℕ
  path : Path
deriving DecidableEq

structure Edit where
  file : String
  tracked : Bool
  lines : ℕ
deriving DecidableEq

/-- An uncommitted change; those that were there before the loop come from no attempt. -/
structure Change extends Edit where
  origin : Option Attempt
deriving DecidableEq

structure Repo where
  staged : List Change := []
  unstaged : List Change := []
  /-- the commits of the loop, oldest first -/
  commits : List (List Change) := []

namespace Repo
variable (r : Repo)

def tree : List Change := r.staged ++ r.unstaged

/-- An attempt keeps some of the changes that it finds and makes its own. -/
def edit (attempt : Attempt) (kept : Change → Bool) (made : List Edit) : Repo :=
  { r with
    staged := r.staged.filter kept
    unstaged := r.unstaged.filter kept ++ made.map (fun e => { e with origin := some attempt }) }

def addAll : Repo := { r with staged := r.tree, unstaged := [] }

def commit : Repo := { r with staged := [], commits := r.commits ++ [r.staged] }

end Repo

/-- How the commands of a commit end. -/
structure GitOutcome where
  add : Except String Unit
  status : Except String Unit
  commit : Except String Unit
  revParse : Except String String

def commitChanges (r : Repo) (o : GitOutcome) : Repo × Except String String :=
  match o.add with
  | .error e => (r,.error e)
  | .ok () =>
    let r := r.addAll
    match o.status with
    | .error e => (r,.error e)
    | .ok () =>
      if r.staged = [] then (r,.error "No changes to commit")
      else
        match o.commit with
        | .error e => (r,.error e)
        | .ok () => (r.commit,o.revParse)

/-! ## A cycle -/

inductive PathRun where
  /-- no provider could be created -/
  | error (e : String)
  | failed (e : String)
  | finished (success : Bool) (iterations : ℕ) (summary : String)

/-- What a path meets: its directory, its run with the edits and the cost of the provider
calls, whether `git diff --stat` can be read, and the validation. -/
structure PathOutcome where
  worktree : Except String Unit
  run : PathRun
  kept : Change → Bool
  made : List Edit
  cost : ℚ
  diff : Except String Unit
  validated : Except String Unit

/-- A task, as what its cycle meets. -/
structure Cycle where
  repoPath : Except String Unit
  direct : PathOutcome
  bridge : PathOutcome
  git : GitOutcome

structure PathResult where
  success : Bool
  iterations : ℕ
  diffLines : ℕ
  error : Option String

def PathResult.failure (error : String) : PathResult := ⟨false,0,0,some error⟩

structure CycleResult where
  directResult : Option PathResult
  bridgeResult : Option PathResult
  committed : Bool
  commitHash : Option String

structure World where
  repo : Repo
  /-- what the provider calls have cost -/
  spent : ℚ := 0

def World.work (w : World) (attempt : Attempt) (o : PathOutcome) : World where
  repo := w.repo.edit attempt o.kept o.made
  spent := w.spent + o.cost

variable (diffStatLines : Repo → ℕ) (cfg : SelfImprovementConfig)

/-- `execute_direct_path` and `execute_bridge_path`, the latter of which has no error -/
def executePath (attempt : Attempt) (w : World) (o : PathOutcome) :
    World × Except String PathResult :=
  match o.run with
  | .error e => (w,.error e)
  | .failed e => (w.work attempt o,.ok (.failure e))
  | .finished success iterations summary =>
    let w := w.work attempt o
    let diffLines := match o.diff with
      | .ok () => diffStatLines w.repo % UInt32.size
      | .error _ => 0
    (w,.ok ⟨success,iterations,diffLines,if success then none else some summary⟩)

/-- What is made of a path's outcome when its changes have been validated. -/
def pathResult (result : Except String PathResult) (validated : Except String Unit) : PathResult :=
  match result with
  | .error e => .failure e
  | .ok result =>
    if result.success then
      match validated with
      | .ok () => result
      | .error _ => .failure "Validation failed"
    else result

/-- A path of a cycle, in the worktree that `setup_worktree` makes: the current directory. -/
def runPath (disabled : Bool) (attempt : Attempt) (w : World) (o : PathOutcome) :
    World × Except String (Option PathResult) :=
  if disabled then (w,.ok none)
  else
    match o.worktree with
    | .error e => (w,.error e)
    | .ok () =>
      let ran := executePath diffStatLines attempt w o
      (ran.1,.ok (some (pathResult ran.2 o.validated)))

def winningResult (direct bridge : Option PathResult) : Option PathResult :=
  direct.filter PathResult.success <|> bridge.filter PathResult.success

def commitWinner (r : Repo) (direct bridge : Option PathResult) (o : GitOutcome) :
    Repo × CycleResult :=
  match winningResult direct bridge with
  | none => (r,⟨direct,bridge,false,none⟩)
  | some result =>
    if result.diffLines ≤ cfg.maxDiffPerTask then
      match commitChanges r o with
      | (r,.ok hash) => (r,⟨direct,bridge,true,some hash⟩)
      | (r,.error _) => (r,⟨direct,bridge,false,none⟩)
    else (r,⟨direct,bridge,false,none⟩)

def runCycle (cycle : ℕ) (w : World) (c : Cycle) : World × Except String CycleResult :=
  match c.repoPath with
  | .error e => (w,.error e)
  | .ok () =>
    match runPath diffStatLines cfg.noDirect ⟨cycle,.direct⟩ w c.direct with
    | (w,.error e) => (w,.error e)
    | (w,.ok direct) =>
      match runPath diffStatLines cfg.noBridge ⟨cycle,.bridge⟩ w c.bridge with
      | (w,.error e) => (w,.error e)
      | (w,.ok bridge) =>
        let committed := commitWinner cfg w.repo direct bridge c.git
        ({ w with repo := committed.1 },.ok committed.2)

/-! ## The loop -/

namespace CycleResult
variable (r : CycleResult)

def success : Bool :=
  r.directResult.any PathResult.success || r.bridgeResult.any PathResult.success

def diffLines : ℕ :=
  max ((r.directResult.map PathResult.diffLines).getD 0)
    ((r.bridgeResult.map PathResult.diffLines).getD 0)

end CycleResult

def SafetyGuard.record (g : SafetyGuard) : Except String CycleResult → SafetyGuard
  | .ok result => if result.success then g.recordSuccess result.diffLines else g.recordFailure
  | .error _ => g.recordFailure

structure Controller where
  safety : SafetyGuard := {}
  world : World
  /-- the cycles so far, oldest first -/
  past : List Cycle := []

namespace Controller

def cycle (s : Controller) (c : Cycle) : Controller :=
  let ran := runCycle diffStatLines cfg s.past.length s.world c
  { safety := s.safety.record ran.2, world := ran.1, past := s.past ++ [c] }

/-- The tasks in turn, until the guard stops the loop. -/
def runTasks (s : Controller) : List Cycle → Controller × Option SafetyStop
  | [] => (s,none)
  | c :: cs =>
    match s.safety.checkCanContinue cfg with
    | .error reason => (s,some reason)
    | .ok () => (s.cycle diffStatLines cfg c).runTasks cs

def run (s : Controller) (tasks : List Cycle) : Controller × Option SafetyStop :=
  if cfg.dryRun then (s,none) else s.runTasks diffStatLines cfg tasks

end Controller

/-- The loop, a cycle at a time. -/
def improvement : Machine Controller Cycle where
  enabled := fun s _ => cfg.dryRun = false ∧ s.safety.checkCanContinue cfg = .ok ()
  next := Controller.cycle diffStatLines cfg

end Rullama.SelfImprove
