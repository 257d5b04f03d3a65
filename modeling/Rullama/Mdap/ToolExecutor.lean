import Mathlib.Algebra.GroupWithZero.Nat
import Mathlib.Data.List.Count
import Rullama.Tools.Json

/-! # The executor of microagent tools

Every execution of an intent raises a counter of the executor and lowers it on each of its ways
out, which bounds how deep executions nest. Intents are executed one after the other, or at the
same time where their tools only read. A future may be dropped where it awaits its tool, and then
the counter is not lowered.
-/
namespace Rullama.Mdap.ToolExecutor

open Rullama.Tools (Value)

inductive ToolCategory
  | fileRead
  | fileWrite
  | search
  | semanticSearch
  | bash
  | git
  | web
  | agentPool
  | taskManager
  | mcp
  deriving DecidableEq

def ToolCategory.all : List ToolCategory :=
  [.fileRead,.fileWrite,.search,.semanticSearch,.bash,.git,.web,.agentPool,.taskManager,.mcp]

def ToolCategory.debug : ToolCategory → String
  | .fileRead => "FileRead"
  | .fileWrite => "FileWrite"
  | .search => "Search"
  | .semanticSearch => "SemanticSearch"
  | .bash => "Bash"
  | .git => "Git"
  | .web => "Web"
  | .agentPool => "AgentPool"
  | .taskManager => "TaskManager"
  | .mcp => "Mcp"

structure ToolIntent where
  toolName : String
  arguments : Value

inductive MdapError
  | toolRecursionLimit (depth maxDepth : ℕ)
  | toolNotAllowed (tool category : String)
  | toolExecutionFailed (tool reason : String)
  deriving DecidableEq

structure MicroagentToolConfig where
  maxDepth : ℕ := 3
  allowedCategories : List ToolCategory

/-- What the framework knows of tools: the categories that a tool is in, and those that only
read. -/
structure Catalog where
  containsTool : ToolCategory → String → Bool
  readOnlyCategories : List ToolCategory

variable (config : MicroagentToolConfig) (catalog : Catalog)

def isToolAllowed (toolName : String) : Bool :=
  config.allowedCategories.any (fun cat => catalog.containsTool cat toolName)

def getToolCategory (toolName : String) : Option ToolCategory :=
  ToolCategory.all.find? (fun cat => catalog.containsTool cat toolName)

def validateTool (intent : ToolIntent) : Option MdapError :=
  if isToolAllowed config catalog intent.toolName then none
  else some (.toolNotAllowed intent.toolName
    (((getToolCategory catalog intent.toolName).map ToolCategory.debug).getD "Unknown"))

/-- The checks of `execute_intent`, which has seen this depth. -/
def check (depth : ℕ) (intent : ToolIntent) : Option MdapError :=
  if depth ≥ config.maxDepth then some (.toolRecursionLimit depth config.maxDepth)
  else validateTool config catalog intent

variable {R : Type*}

def toolResult (intent : ToolIntent) : Except String R → Except MdapError R
  | .ok r => .ok r
  | .error reason => .error (.toolExecutionFailed intent.toolName reason)

/-- `execute_intent` where the tool answers in this way. -/
def executeIntent (tool : ToolIntent → Except String R) (depth : ℕ) (intent : ToolIntent) :
    Except MdapError R :=
  match check config catalog depth intent with
  | some e => .error e
  | none => toolResult intent (tool intent)

/-- `execute_intents` -/
def executeIntents (tool : ToolIntent → Except String R) (depth : ℕ) :
    List ToolIntent → Except MdapError (List R)
  | [] => .ok []
  | intent :: intents =>
    match executeIntent config catalog tool depth intent with
    | .error e => .error e
    | .ok r => (executeIntents tool depth intents).map (r :: ·)

inductive Mode
  | sequence
  | parallel
  deriving DecidableEq

def allReadOnly (intents : List ToolIntent) : Bool :=
  intents.all (fun intent =>
    ((getToolCategory catalog intent.toolName).map catalog.readOnlyCategories.contains).getD false)

/-- How `execute_intents_parallel` executes its intents. -/
def parallelMode (intents : List ToolIntent) : Mode :=
  if !allReadOnly catalog intents || intents.length ≤ 1 then .sequence else .parallel

/-! ## Executions -/

/-- How far the future of an `execute_intent` has come. -/
inductive Execution (R : Type*)
  | waiting
  /-- the counter is raised, and this depth was seen -/
  | entered (depth : ℕ)
  /-- it awaits its tool -/
  | running
  | finished (result : Except MdapError R)

abbrev Child (R : Type*) := ToolIntent × Execution R

def Execution.inProgress : Execution R → Bool
  | .entered _ | .running => true
  | _ => false

/-- No await comes between raising the counter and the checks, and a failure is the last thing
that a call meets. -/
def Execution.quiet : Execution R → Bool
  | .entered _ | .finished (.error _) => false
  | _ => true

def Quiet (children : List (Child R)) : Prop := ∀ child ∈ children, child.2.quiet = true

def inProgress (children : List (Child R)) : ℕ := children.countP (fun child => child.2.inProgress)

/-- The next intent comes when those before are done, or were started. -/
def MayEnter : Mode → List (Child R) → Prop
  | .sequence,before => ∀ child ∈ before, ∃ r, child.2 = .finished (.ok r)
  | .parallel,before => ∀ child ∈ before, child.2 ≠ .waiting

variable (answers : ToolIntent → Except String R → Prop) (mode : Mode)

/-- One step of one execution of a call, with the counter before and after it. -/
inductive CallStep : ℕ → List (Child R) → ℕ → List (Child R) → Prop
  | enter {depth : ℕ} {before after : List (Child R)} {intent : ToolIntent} :
      Quiet before → Quiet after → MayEnter mode before →
      CallStep depth (before ++ (intent,.waiting) :: after)
        (depth + 1) (before ++ (intent,.entered depth) :: after)
  | validate {depth seen : ℕ} {before after : List (Child R)} {intent : ToolIntent} :
      check config catalog seen intent = none →
      CallStep depth (before ++ (intent,.entered seen) :: after)
        depth (before ++ (intent,.running) :: after)
  | reject {depth seen : ℕ} {before after : List (Child R)} {intent : ToolIntent}
      {e : MdapError} : check config catalog seen intent = some e →
      CallStep (depth + 1) (before ++ (intent,.entered seen) :: after)
        depth (before ++ (intent,.finished (.error e)) :: after)
  | finish {depth : ℕ} {before after : List (Child R)} {intent : ToolIntent}
      {r : Except String R} : Quiet before → Quiet after → answers intent r →
      CallStep (depth + 1) (before ++ (intent,.running) :: after)
        depth (before ++ (intent,.finished (toolResult intent r)) :: after)

/-- A call returns all results, or an error when there is one. The join of the parallel call does
not wait for its other futures then, and drops them. -/
inductive Returns : List (Child R) → Except MdapError (List R) → Prop
  | ok {children : List (Child R)} {results : List R} :
      children.map Prod.snd = results.map (fun r => .finished (.ok r)) →
      Returns children (.ok results)
  | error {before after : List (Child R)} {intent : ToolIntent} {e : MdapError} :
      Quiet before → Quiet after →
      Returns (before ++ (intent,.finished (.error e)) :: after) (.error e)

/-! ## The executor -/

/-- An `execute_intent` is a call with one intent. -/
structure Call (R : Type*) where
  mode : Mode
  children : List (Child R)

structure System (R : Type*) where
  depth : ℕ := 0
  calls : List (Call R) := []

def Call.start (mode : Mode) (intents : List ToolIntent) : Call R where
  mode := mode
  children := intents.map (fun intent => (intent,.waiting))

def System.inProgress (s : System R) : ℕ :=
  (s.calls.map (fun c => ToolExecutor.inProgress c.children)).sum

/-- A step of the executor, with the number of executions that it drops while they run. -/
inductive Step : System R → ℕ → System R → Prop
  | call {depth : ℕ} {calls : List (Call R)} (mode : Mode) (intents : List ToolIntent) :
      Step ⟨depth,calls⟩ 0 ⟨depth,calls ++ [Call.start mode intents]⟩
  | within {depth depth' : ℕ} {l r : List (Call R)} {mode : Mode}
      {children children' : List (Child R)} :
      CallStep config catalog answers mode depth children depth' children' →
      Step ⟨depth,l ++ ⟨mode,children⟩ :: r⟩ 0 ⟨depth',l ++ ⟨mode,children'⟩ :: r⟩
  | returned {depth : ℕ} {l r : List (Call R)} {mode : Mode} {children : List (Child R)}
      {result : Except MdapError (List R)} : Returns children result →
      Step ⟨depth,l ++ ⟨mode,children⟩ :: r⟩ (ToolExecutor.inProgress children) ⟨depth,l ++ r⟩
  | dropped {depth : ℕ} {l r : List (Call R)} {mode : Mode} {children : List (Child R)} :
      (∀ child ∈ children, ∀ seen, child.2 ≠ .entered seen) →
      Step ⟨depth,l ++ ⟨mode,children⟩ :: r⟩ (ToolExecutor.inProgress children) ⟨depth,l ++ r⟩

/-- Steps one after the other, each with what it drops and the state that it leads to. -/
inductive Walk : System R → List (ℕ × System R) → Prop
  | done {s : System R} : Walk s []
  | step {s s' : System R} {lost : ℕ} {trail : List (ℕ × System R)} :
      Step config catalog answers s lost s' → Walk s' trail → Walk s ((lost,s') :: trail)

/-! ## The counter -/

variable {config catalog answers mode} {s s' : System R} {lost depth depth' : ℕ}
  {children children' : List (Child R)}

theorem inProgress_middle (before after : List (Child R)) (child : Child R) :
    inProgress (before ++ child :: after) =
      inProgress before + (if child.2.inProgress then 1 else 0) + inProgress after := by
  rw [inProgress,List.countP_append,List.countP_cons,inProgress,inProgress]
  omega

theorem CallStep.depth_eq (h : CallStep config catalog answers mode depth children depth' children') :
    depth' + inProgress children = depth + inProgress children' := by
  cases h <;> simp only [inProgress_middle,Execution.inProgress,if_true,Bool.false_eq_true,if_false]
  · omega
  · omega
  · omega

theorem inProgress_start (mode : Mode) (intents : List ToolIntent) :
    inProgress (Call.start (R := R) mode intents).children = 0 := by
  rw [inProgress,Call.start,List.countP_eq_zero]
  intro child hchild
  obtain ⟨intent,-,rfl⟩ := List.mem_map.mp hchild
  exact Bool.false_ne_true

theorem System.inProgress_middle (depth : ℕ) (l r : List (Call R)) (c : Call R) :
    (System.mk depth (l ++ c :: r)).inProgress =
      (System.mk depth (l ++ r)).inProgress + ToolExecutor.inProgress c.children := by
  simp only [System.inProgress,List.map_append,List.map_cons,List.sum_append,List.sum_cons]
  omega

/-- The counter follows the executions in progress, but for those that are dropped. -/
theorem Step.depth_eq (h : Step config catalog answers s lost s') :
    s'.depth + s.inProgress = s.depth + s'.inProgress + lost := by
  cases h with
  | call mode intents =>
    simp only [System.inProgress,List.map_append,List.map_cons,List.map_nil,List.sum_append,
      List.sum_cons,List.sum_nil,inProgress_start]
    omega
  | within hstep =>
    have := hstep.depth_eq
    rw [System.inProgress_middle,System.inProgress_middle]
    simp only [System.inProgress] at this ⊢
    omega
  | returned =>
    rw [System.inProgress_middle]
    simp only [System.inProgress]
    omega
  | dropped =>
    rw [System.inProgress_middle]
    simp only [System.inProgress]
    omega

/-- The counter is the number of executions in progress all along a walk exactly where none of
them is dropped. -/
theorem Walk.depth_eq_iff {trail : List (ℕ × System R)} (h : Walk config catalog answers s trail)
    (hs : s.depth = s.inProgress) :
    (∀ p ∈ trail, p.2.depth = p.2.inProgress) ↔ ∀ p ∈ trail, p.1 = 0 := by
  induction h with
  | done => exact iff_of_true (List.forall_mem_nil _) (List.forall_mem_nil _)
  | @step s s' lost trail hstep _ ih =>
    have hdepth := hstep.depth_eq
    rw [List.forall_mem_cons,List.forall_mem_cons]
    constructor
    · rintro ⟨hnext,hrest⟩
      refine ⟨?_,(ih hnext).mp hrest⟩
      simp only at hnext ⊢
      omega
    · rintro ⟨hlost,hrest⟩
      have hnext : s'.depth = s'.inProgress := by
        simp only at hlost
        omega
      exact ⟨hnext,(ih hnext).mpr hrest⟩

/-! ## One call by itself -/

/-- Steps of one call after each other. -/
inductive CallRun (config : MicroagentToolConfig) (catalog : Catalog)
    (answers : ToolIntent → Except String R → Prop) (mode : Mode) :
    ℕ → List (Child R) → ℕ → List (Child R) → Prop
  | refl {depth : ℕ} {children : List (Child R)} :
      CallRun config catalog answers mode depth children depth children
  | tail {depth depth' depth'' : ℕ} {children children' children'' : List (Child R)} :
      CallRun config catalog answers mode depth children depth' children' →
      CallStep config catalog answers mode depth' children' depth'' children'' →
      CallRun config catalog answers mode depth children depth'' children''

/-- The call can return this when nothing else happens and its tools answer so. -/
def Outcome (config : MicroagentToolConfig) (catalog : Catalog)
    (tool : ToolIntent → Except String R) (mode : Mode) (depth : ℕ) (intents : List ToolIntent)
    (result : Except MdapError (List R)) : Prop :=
  ∃ depth' children, CallRun config catalog (fun intent r => r = tool intent) mode depth
    (Call.start (R := R) mode intents).children depth' children ∧ Returns children result

/-- A sequence is one of the orders that a parallel call may take. -/
theorem CallStep.parallel
    (h : CallStep config catalog answers .sequence depth children depth' children') :
    CallStep config catalog answers .parallel depth children depth' children' := by
  cases h with
  | enter hbefore hafter hmay =>
    refine .enter hbefore hafter fun child hchild hwaiting => ?_
    obtain ⟨r,hr⟩ := hmay child hchild
    rw [hr] at hwaiting
    cases hwaiting
  | validate h => exact .validate h
  | reject h => exact .reject h
  | finish hbefore hafter h => exact .finish hbefore hafter h

theorem CallRun.parallel
    (h : CallRun config catalog answers .sequence depth children depth' children') :
    CallRun config catalog answers .parallel depth children depth' children' := by
  induction h with
  | refl => exact .refl
  | tail _ hstep ih => exact .tail ih hstep.parallel

theorem CallRun.trans {depth'' : ℕ} {children'' : List (Child R)}
    (h : CallRun config catalog answers mode depth children depth' children')
    (h' : CallRun config catalog answers mode depth' children' depth'' children'') :
    CallRun config catalog answers mode depth children depth'' children'' := by
  induction h' with
  | refl => exact h
  | tail _ hstep ih => exact .tail (ih h) hstep

theorem CallRun.invariant {I : ℕ → List (Child R) → Prop}
    (hstep : ∀ {depth children depth' children'}, CallStep config catalog answers mode depth
      children depth' children' → I depth children → I depth' children')
    (h : CallRun config catalog answers mode depth children depth' children')
    (h0 : I depth children) : I depth' children' := by
  induction h with
  | refl => exact h0
  | tail _ hs ih => exact hstep hs (ih h0)

/-! ### A sequence -/

variable {tool : ToolIntent → Except String R} {intents : List ToolIntent}

def waiting (intents : List ToolIntent) : List (Child R) :=
  intents.map (fun intent => (intent,.waiting))

theorem quiet_waiting (intents : List ToolIntent) : Quiet (waiting (R := R) intents) := by
  intro child hchild
  obtain ⟨intent,-,rfl⟩ := List.mem_map.mp hchild
  rfl

/-- Children with these results. -/
def Finished (children : List (Child R)) (results : List R) : Prop :=
  children.map Prod.snd = results.map (fun r => .finished (.ok r))

theorem Finished.exists_ok {results : List R} (h : Finished children results) :
    ∀ child ∈ children, ∃ r, child.2 = .finished (.ok r) := by
  intro child hchild
  have hmem := List.mem_map_of_mem (f := Prod.snd) hchild
  rw [h] at hmem
  obtain ⟨r,-,hr⟩ := List.mem_map.mp hmem
  exact ⟨r,hr.symm⟩

theorem quiet_of_ok (h : ∀ child ∈ children, ∃ r, child.2 = .finished (.ok r)) :
    Quiet children := by
  intro child hchild
  obtain ⟨r,hr⟩ := h child hchild
  rw [hr]
  rfl

/-- The rest of a sequence is run to its end. -/
theorem exists_run_sequence {done : List (Child R)} {results : List R}
    (hdone : Finished done results) :
    ∃ depth' children, CallRun config catalog (fun intent r => r = tool intent) .sequence depth
        (done ++ waiting intents) depth' children ∧
      Returns children ((executeIntents config catalog tool depth intents).map (results ++ ·)) := by
  induction intents generalizing done results with
  | nil =>
    refine ⟨depth,done,?_,?_⟩
    · rw [waiting,List.map_nil,List.append_nil]
      exact .refl
    · rw [executeIntents,Except.map,List.append_nil]
      exact .ok hdone
  | cons intent intents ih =>
    have hquiet := quiet_of_ok hdone.exists_ok
    have hrest := quiet_waiting (R := R) intents
    have henter : CallRun config catalog (fun intent r => r = tool intent) .sequence depth
        (done ++ waiting (intent :: intents)) (depth + 1)
        (done ++ (intent,.entered depth) :: waiting intents) :=
      .tail .refl (.enter hquiet hrest hdone.exists_ok)
    rw [executeIntents]
    cases hcheck : check config catalog depth intent with
    | some e =>
      refine ⟨_,_,henter.tail (.reject hcheck),?_⟩
      rw [executeIntent,hcheck]
      exact .error hquiet hrest
    | none =>
      have hrun := (henter.tail (.validate hcheck)).tail (.finish hquiet hrest rfl)
      rw [executeIntent,hcheck]
      simp only
      cases hresult : toolResult intent (tool intent) with
      | error e =>
        rw [hresult] at hrun
        exact ⟨_,_,hrun,.error hquiet hrest⟩
      | ok r =>
        rw [hresult] at hrun
        have hdone' : Finished (done ++ [(intent,.finished (.ok r))]) (results ++ [r]) := by
          rw [Finished,List.map_append,List.map_append,← hdone]
          rfl
        obtain ⟨depth',children,hnext,hreturns⟩ := ih hdone'
        rw [List.append_assoc,List.singleton_append] at hnext
        refine ⟨depth',children,hrun.trans hnext,?_⟩
        cases hall : executeIntents config catalog tool depth intents with
        | error e =>
          rw [hall] at hreturns
          exact hreturns
        | ok rs =>
          rw [hall] at hreturns
          simp only [Except.map,List.append_assoc,List.singleton_append] at hreturns ⊢
          exact hreturns

theorem outcome_sequence : Outcome config catalog tool .sequence depth intents
    (executeIntents config catalog tool depth intents) := by
  have hnil : Finished ([] : List (Child R)) [] := rfl
  obtain ⟨depth',children,hrun,hreturns⟩ : ∃ depth' children,
      CallRun config catalog (fun intent r => r = tool intent) .sequence depth
        ([] ++ waiting intents) depth' children ∧
      Returns children ((executeIntents config catalog tool depth intents).map ([] ++ ·)) :=
    exists_run_sequence hnil
  refine ⟨depth',children,hrun,?_⟩
  cases hall : executeIntents config catalog tool depth intents with
  | error e =>
    rw [hall] at hreturns
    exact hreturns
  | ok rs =>
    rw [hall] at hreturns
    exact hreturns

/-! ### What a call tracks -/

/-- What is known of an execution that can only have seen such depths. -/
def Tracked (config : MicroagentToolConfig) (catalog : Catalog)
    (tool : ToolIntent → Except String R) (Seen : ℕ → Prop) (intent : ToolIntent) :
    Execution R → Prop
  | .waiting => True
  | .entered seen => Seen seen
  | .running => ∃ seen, Seen seen ∧ check config catalog seen intent = none
  | .finished r => ∃ seen, Seen seen ∧ r = executeIntent config catalog tool seen intent

structure Tracks (config : MicroagentToolConfig) (catalog : Catalog)
    (tool : ToolIntent → Except String R) (Seen : ℕ → Prop) (start : ℕ)
    (intents : List ToolIntent) (depth : ℕ) (children : List (Child R)) : Prop where
  intents : children.map Prod.fst = intents
  depth : depth = start + inProgress children
  each : ∀ child ∈ children, Tracked config catalog tool Seen child.1 child.2

variable {Seen : ℕ → Prop} {start : ℕ}

theorem tracks_start : Tracks config catalog tool Seen start intents start (waiting intents) := by
  refine ⟨?_,?_,fun child hchild => ?_⟩
  · rw [waiting,List.map_map]
    exact List.map_id _
  · exact (Nat.add_zero _).symm.trans (congrArg _ (inProgress_start .sequence intents).symm)
  · obtain ⟨intent,-,rfl⟩ := List.mem_map.mp hchild
    trivial

/-- One execution goes on. -/
theorem Tracks.replace {before after : List (Child R)} {intent : ToolIntent}
    {execution execution' : Execution R}
    (h : Tracks config catalog tool Seen start intents depth (before ++ (intent,execution) :: after))
    (hdepth : depth' + inProgress (before ++ (intent,execution) :: after) =
      depth + inProgress (before ++ (intent,execution') :: after))
    (hnew : Tracked config catalog tool Seen intent execution') :
    Tracks config catalog tool Seen start intents depth'
      (before ++ (intent,execution') :: after) := by
  refine ⟨?_,?_,fun child hchild => ?_⟩
  · have hintents := h.intents
    rw [List.map_append,List.map_cons] at hintents ⊢
    exact hintents
  · have := h.depth
    omega
  · rw [List.mem_append,List.mem_cons] at hchild
    rcases hchild with hchild | rfl | hchild
    · exact h.each child (List.mem_append_left _ hchild)
    · exact hnew
    · exact h.each child (List.mem_append_right _ (List.mem_cons_of_mem _ hchild))

/-- A call keeps to depths that it can see when it enters an execution. -/
theorem CallStep.tracks
    (hstep : CallStep config catalog (fun intent r => r = tool intent) mode depth children depth'
      children')
    (h : Tracks config catalog tool Seen start intents depth children)
    (henter : ∀ before intent after, children = before ++ (intent,.waiting) :: after →
      Quiet before → Quiet after → MayEnter mode before → Seen depth) :
    Tracks config catalog tool Seen start intents depth' children' := by
  have hdepth := hstep.depth_eq
  cases hstep with
  | enter hbefore hafter hmay => exact h.replace hdepth (henter _ _ _ rfl hbefore hafter hmay)
  | @validate _ seen before after intent hcheck =>
    have hseen := h.each (intent,.entered seen) (by simp)
    exact h.replace hdepth ⟨seen,hseen,hcheck⟩
  | @reject _ seen before after intent e hcheck =>
    have hseen := h.each (intent,.entered seen) (by simp)
    refine h.replace hdepth ⟨seen,hseen,?_⟩
    rw [executeIntent,hcheck]
  | @finish _ before after intent r hbefore hafter hr =>
    obtain ⟨seen,hseen,hcheck⟩ := h.each (intent,.running) (by simp)
    refine h.replace hdepth ⟨seen,hseen,?_⟩
    rw [executeIntent,hcheck,hr]

/-- Every result of a call is that of its intent at the start. -/
def Faithful (config : MicroagentToolConfig) (catalog : Catalog)
    (tool : ToolIntent → Except String R) (start : ℕ) (children : List (Child R)) : Prop :=
  ∀ child ∈ children, ∀ r, child.2 = .finished r →
    r = executeIntent config catalog tool start child.1

theorem executeIntents_of_finished {results : List R} (h : Finished children results)
    (hfaithful : Faithful config catalog tool start children) :
    executeIntents config catalog tool start (children.map Prod.fst) = .ok results := by
  induction children generalizing results with
  | nil =>
    cases results with
    | nil => rfl
    | cons r results => cases h
  | cons child children ih =>
    cases results with
    | nil => cases h
    | cons r results =>
      rw [Finished,List.map_cons,List.map_cons,List.cons.injEq] at h
      have hone := hfaithful child List.mem_cons_self _ h.1
      have hrest := ih h.2 fun c hc => hfaithful c (List.mem_cons_of_mem _ hc)
      rw [List.map_cons,executeIntents,← hone,hrest]
      rfl

theorem executeIntents_of_error {e : MdapError} {before after : List ToolIntent}
    {intent : ToolIntent}
    (hbefore : ∀ a ∈ before, ∀ e', executeIntent config catalog tool start a = .error e' → e' = e)
    (hintent : executeIntent config catalog tool start intent = .error e) :
    executeIntents config catalog tool start (before ++ intent :: after) = .error e := by
  induction before with
  | nil => rw [List.nil_append,executeIntents,hintent]
  | cons a before ih =>
    rw [List.cons_append,executeIntents]
    cases ha : executeIntent config catalog tool start a with
    | error e' => rw [hbefore a List.mem_cons_self e' ha]
    | ok r =>
      rw [ih fun b hb => hbefore b (List.mem_cons_of_mem _ hb)]
      rfl

theorem inProgress_eq_zero (h : ∀ child ∈ children, child.2.inProgress = false) :
    inProgress children = 0 := by
  rw [inProgress,List.countP_eq_zero]
  intro child hchild
  rw [h child hchild]
  exact Bool.false_ne_true

/-! ### What a sequence returns -/

/-- An intent begins when those before it are done. -/
def Ordered (children : List (Child R)) : Prop :=
  children.Pairwise (fun a b => b.2 ≠ .waiting → ∃ r, a.2 = .finished (.ok r))

theorem Ordered.before {before after : List (Child R)} {child : Child R}
    (h : Ordered (before ++ child :: after)) (hchild : child.2 ≠ .waiting) :
    ∀ a ∈ before, ∃ r, a.2 = .finished (.ok r) :=
  fun a ha => (List.pairwise_append.mp h).2.2 a ha child List.mem_cons_self hchild

theorem Ordered.after {before after : List (Child R)} {child : Child R}
    (h : Ordered (before ++ child :: after)) (hchild : ∀ r, child.2 ≠ .finished (.ok r)) :
    ∀ b ∈ after, b.2 = .waiting := by
  intro b hb
  by_contra hne
  obtain ⟨r,hr⟩ := (List.pairwise_cons.mp (List.pairwise_append.mp h).2.1).1 b hb hne
  exact hchild r hr

theorem Ordered.replace {before after : List (Child R)} {child child' : Child R}
    (h : Ordered (before ++ child :: after)) (hchild : ∀ r, child.2 ≠ .finished (.ok r))
    (hbefore : ∀ a ∈ before, ∃ r, a.2 = .finished (.ok r)) :
    Ordered (before ++ child' :: after) := by
  obtain ⟨hleft,hright,hcross⟩ := List.pairwise_append.mp h
  refine List.pairwise_append.mpr ⟨hleft,List.pairwise_cons.mpr ⟨fun b hb hne => ?_,
    (List.pairwise_cons.mp hright).2⟩,fun a ha b hb _ => hbefore a ha⟩
  exact absurd (h.after hchild b hb) hne

theorem ordered_waiting (intents : List ToolIntent) : Ordered (waiting (R := R) intents) := by
  refine List.pairwise_map.mpr (List.pairwise_of_forall fun a b hne => ?_)
  exact absurd rfl hne

theorem CallStep.ordered (hstep : CallStep config catalog answers .sequence depth children depth'
    children') (h : Ordered children) : Ordered children' := by
  cases hstep with
  | enter _ _ hmay => exact h.replace (fun _ hr => (nomatch hr)) hmay
  | validate _ => exact h.replace (fun _ hr => (nomatch hr)) (h.before fun hw => (nomatch hw))
  | reject _ => exact h.replace (fun _ hr => (nomatch hr)) (h.before fun hw => (nomatch hw))
  | finish _ _ _ => exact h.replace (fun _ hr => (nomatch hr)) (h.before fun hw => (nomatch hw))

theorem Tracks.sequence_step
    (h : Tracks config catalog tool (· = start) start intents depth children)
    (hstep : CallStep config catalog (fun intent r => r = tool intent) .sequence depth children
      depth' children')
    (hordered : Ordered children) :
    Tracks config catalog tool (· = start) start intents depth' children' := by
  refine hstep.tracks h ?_
  rintro before intent after rfl hbefore hafter hmay
  have hleft : inProgress before = 0 := inProgress_eq_zero fun child hchild => by
    obtain ⟨r,hr⟩ := hmay child hchild
    rw [hr]
    rfl
  have hright : inProgress after = 0 := inProgress_eq_zero fun child hchild => by
    rw [hordered.after (fun _ hr => (nomatch hr)) child hchild]
    rfl
  have hdepth := h.depth
  rw [inProgress_middle,hleft,hright] at hdepth
  exact hdepth

theorem Tracks.faithful (h : Tracks config catalog tool Seen start intents depth children)
    (hseen : ∀ seen intent, Seen seen → executeIntent config catalog tool seen intent =
      executeIntent config catalog tool start intent) :
    Faithful config catalog tool start children := by
  intro child hchild r hr
  have htracked := h.each child hchild
  rw [hr] at htracked
  obtain ⟨seen,hs,hr⟩ := htracked
  rw [hr,hseen seen child.1 hs]

/-- What a call returns is what a sequence of its intents gives, if its results are those of its
intents and an error is the one that the sequence meets. -/
theorem Returns.eq_executeIntents {result : Except MdapError (List R)}
    (h : Returns children result)
    (hfaithful : Faithful config catalog tool start children)
    (herror : ∀ before child after e, children = before ++ child :: after →
      child.2 = .finished (.error e) → ∀ a ∈ before, ∀ e',
        executeIntent config catalog tool start a.1 = .error e' → e' = e) :
    result = executeIntents config catalog tool start (children.map Prod.fst) := by
  cases h with
  | ok hfinished => exact (executeIntents_of_finished hfinished hfaithful).symm
  | @error before after intent e hbefore hafter =>
    rw [List.map_append,List.map_cons]
    refine (executeIntents_of_error (fun a ha => ?_) ?_).symm
    · obtain ⟨child,hchild,rfl⟩ := List.mem_map.mp ha
      exact herror before (intent,.finished (.error e)) after e rfl rfl child hchild
    · exact (hfaithful (intent,.finished (.error e)) (by simp) _ rfl).symm

theorem outcome_sequence_iff {result : Except MdapError (List R)} :
    Outcome config catalog tool .sequence start intents result ↔
      result = executeIntents config catalog tool start intents := by
  constructor
  · rintro ⟨depth',children,hrun,hreturns⟩
    obtain ⟨htracks,hordered⟩ := hrun.invariant
      (I := fun depth children => Tracks config catalog tool (· = start) start intents depth
        children ∧ Ordered children)
      (fun hstep h => ⟨h.1.sequence_step hstep h.2,hstep.ordered h.2⟩)
      ⟨tracks_start,ordered_waiting intents⟩
    have hfaithful := htracks.faithful fun seen intent hseen => by rw [hseen]
    rw [← htracks.intents]
    refine hreturns.eq_executeIntents hfaithful ?_
    rintro before child after e rfl hchild a ha e' he'
    obtain ⟨r,hr⟩ := hordered.before (by rw [hchild]; exact fun h => (nomatch h)) a ha
    have hok := hfaithful a (List.mem_append_left _ ha) _ hr
    rw [he'] at hok
    cases hok
  · rintro rfl
    exact outcome_sequence

/-! ### What a parallel call returns -/

theorem executeIntent_of_ge {seen : ℕ} (h : config.maxDepth ≤ seen) (intent : ToolIntent) :
    executeIntent config catalog tool seen intent =
      .error (.toolRecursionLimit seen config.maxDepth) := by
  rw [executeIntent,check,if_pos h]

theorem executeIntent_of_lt {seen : ℕ} (h : seen < config.maxDepth)
    (hstart : start < config.maxDepth) (intent : ToolIntent) :
    executeIntent config catalog tool seen intent =
      executeIntent config catalog tool start intent := by
  rw [executeIntent,executeIntent,check,check,if_neg (Nat.not_le.mpr h),
    if_neg (Nat.not_le.mpr hstart)]

/-- All intents that fail do so in the same way. -/
def FailAlike (config : MicroagentToolConfig) (catalog : Catalog)
    (tool : ToolIntent → Except String R) (start : ℕ) (intents : List ToolIntent) : Prop :=
  ∀ a ∈ intents, ∀ b ∈ intents, ∀ e e', executeIntent config catalog tool start a = .error e →
    executeIntent config catalog tool start b = .error e' → e = e'

theorem length_children (h : Tracks config catalog tool Seen start intents depth children) :
    children.length = intents.length := by
  rw [← h.intents,List.length_map]

/-- The depths that the intents can see among themselves. -/
def Room (start : ℕ) (intents : List ToolIntent) (seen : ℕ) : Prop :=
  start ≤ seen ∧ seen < start + intents.length

/-- There is room for all intents at once. -/
theorem Tracks.step_of_room (h : Tracks config catalog tool (Room start intents) start
      intents depth children)
    (hstep : CallStep config catalog (fun intent r => r = tool intent) mode depth children depth'
      children') :
    Tracks config catalog tool (Room start intents) start intents depth' children' := by
  refine hstep.tracks h ?_
  rintro before intent after rfl - - -
  have hlength := length_children h
  have hdepth := h.depth
  have hbefore : inProgress before ≤ before.length := List.countP_le_length
  have hafter : inProgress after ≤ after.length := List.countP_le_length
  rw [inProgress_middle] at hdepth
  rw [List.length_append,List.length_cons] at hlength
  simp only [Execution.inProgress,Bool.false_eq_true,if_false] at hdepth
  constructor
  · omega
  · omega

/-- No execution is let through. -/
theorem Tracks.step_of_full (hfull : config.maxDepth ≤ start)
    (h : Tracks config catalog tool (· = start) start intents depth children)
    (hstep : CallStep config catalog (fun intent r => r = tool intent) mode depth children depth'
      children') : Tracks config catalog tool (· = start) start intents depth' children' := by
  refine hstep.tracks h ?_
  rintro before intent after rfl hbefore hafter -
  have hidle : ∀ child ∈ before ++ (intent,.waiting) :: after, child.2.inProgress = false := by
    intro child hchild
    have hquiet : child.2.quiet = true := by
      rw [List.mem_append,List.mem_cons] at hchild
      rcases hchild with hchild | rfl | hchild
      · exact hbefore child hchild
      · rfl
      · exact hafter child hchild
    have htracked := h.each child hchild
    cases hexec : child.2 with
    | waiting => rfl
    | finished r => rfl
    | entered seen =>
      rw [hexec] at hquiet
      cases hquiet
    | running =>
      rw [hexec] at htracked
      obtain ⟨seen,rfl,hcheck⟩ := htracked
      rw [check,if_pos hfull] at hcheck
      cases hcheck
  have hdepth := h.depth
  rw [inProgress_eq_zero hidle] at hdepth
  exact hdepth

theorem Outcome.eq_of_failAlike {result : Except MdapError (List R)}
    (h : Outcome config catalog tool mode start intents result)
    (hseen : config.maxDepth ≤ start ∨ start + intents.length ≤ config.maxDepth)
    (halike : FailAlike config catalog tool start intents) :
    result = executeIntents config catalog tool start intents := by
  obtain ⟨depth',children,hrun,hreturns⟩ := h
  have hfaithful : Faithful config catalog tool start children ∧
      children.map Prod.fst = intents := by
    rcases hseen with hfull | hroom
    · have htracks := hrun.invariant
        (I := fun depth children => Tracks config catalog tool (· = start) start intents depth
          children) (fun hstep h => h.step_of_full hfull hstep) tracks_start
      exact ⟨htracks.faithful fun seen intent hseen => by rw [hseen],htracks.intents⟩
    · have htracks := hrun.invariant
        (I := fun depth children => Tracks config catalog tool (Room start intents) start
          intents depth children) (fun hstep h => h.step_of_room hstep) tracks_start
      refine ⟨htracks.faithful fun seen intent hseen => ?_,htracks.intents⟩
      obtain ⟨hle,hlt⟩ := hseen
      exact executeIntent_of_lt (by omega) (by omega) intent
  obtain ⟨hfaithful,hintents⟩ := hfaithful
  rw [← hintents] at halike ⊢
  refine hreturns.eq_executeIntents hfaithful ?_
  rintro before child after e rfl hchild a ha e' he'
  have hfailed := hfaithful child (by simp) _ hchild
  refine halike a.1 ?_ child.1 ?_ e' e he' hfailed.symm
  · exact List.mem_map_of_mem (List.mem_append_left _ ha)
  · exact List.mem_map_of_mem (List.mem_append_right _ List.mem_cons_self)

theorem failAlike_of_ge (h : config.maxDepth ≤ start) :
    FailAlike config catalog tool start intents := by
  intro a _ b _ e e' ha hb
  rw [executeIntent_of_ge h] at ha hb
  cases ha
  cases hb
  rfl

/-! ### Orders in which a parallel call goes wrong -/

def running (intents : List ToolIntent) : List (Child R) :=
  intents.map (fun intent => (intent,.running))

theorem quiet_running (intents : List ToolIntent) : Quiet (running (R := R) intents) := by
  intro child hchild
  obtain ⟨intent,-,rfl⟩ := List.mem_map.mp hchild
  rfl

theorem running_append (first rest : List ToolIntent) :
    running (R := R) (first ++ rest) = running first ++ running rest := List.map_append

theorem check_of_allowed {intent : ToolIntent} (h : depth < config.maxDepth)
    (hallowed : isToolAllowed config catalog intent.toolName = true) :
    check config catalog depth intent = none := by
  rw [check,if_neg (Nat.not_le.mpr h),validateTool,if_pos hallowed]

/-- As many intents as there is room for are started, and none of them ends yet. -/
theorem exists_run_running {done first rest : List ToolIntent}
    (hallowed : ∀ intent ∈ first, isToolAllowed config catalog intent.toolName = true)
    (hroom : depth + first.length ≤ config.maxDepth) :
    CallRun config catalog (R := R) answers .parallel depth (running done ++ waiting (first ++ rest))
      (depth + first.length) (running (done ++ first) ++ waiting rest) := by
  induction first generalizing done depth with
  | nil =>
    rw [List.append_nil]
    exact .refl
  | cons intent first ih =>
    rw [List.length_cons] at hroom
    have hlt : depth < config.maxDepth := by omega
    have henter : CallRun config catalog (R := R) answers .parallel depth
        (running done ++ waiting (intent :: first ++ rest)) (depth + 1)
        (running done ++ (intent,.entered depth) :: waiting (first ++ rest)) := by
      refine .tail .refl (.enter (quiet_running done) (quiet_waiting _) fun child hchild => ?_)
      obtain ⟨a,-,rfl⟩ := List.mem_map.mp hchild
      exact fun hw => (nomatch hw)
    have hrun := henter.tail (.validate (check_of_allowed hlt (hallowed _ List.mem_cons_self)))
    have hnext : CallRun config catalog (R := R) answers .parallel (depth + 1)
        (running (done ++ [intent]) ++ waiting (first ++ rest)) (depth + 1 + first.length)
        (running (done ++ [intent] ++ first) ++ waiting rest) :=
      ih (fun a ha => hallowed a (List.mem_cons_of_mem _ ha)) (by omega)
    rw [running_append,List.append_assoc,List.append_assoc] at hnext
    have hlength : depth + 1 + first.length = depth + (intent :: first).length := by
      rw [List.length_cons]
      omega
    rw [hlength] at hnext
    exact hrun.trans hnext

theorem exists_run_started {first rest : List ToolIntent}
    (hallowed : ∀ intent ∈ first, isToolAllowed config catalog intent.toolName = true)
    (hroom : depth + first.length ≤ config.maxDepth) :
    CallRun config catalog (R := R) answers .parallel depth (waiting (first ++ rest))
      (depth + first.length) (running first ++ waiting rest) := by
  have hrun : CallRun config catalog (R := R) answers .parallel depth
      (running [] ++ waiting (first ++ rest)) (depth + first.length)
      (running ([] ++ first) ++ waiting rest) := exists_run_running hallowed hroom
  exact hrun

theorem executeIntent_ne_limit {intent : ToolIntent} (hstart : start < config.maxDepth)
    (hallowed : isToolAllowed config catalog intent.toolName = true) (seen max : ℕ) :
    executeIntent config catalog tool start intent ≠ .error (.toolRecursionLimit seen max) := by
  rw [executeIntent,check_of_allowed hstart hallowed]
  simp only
  cases tool intent with
  | ok r => exact fun h => (nomatch h)
  | error reason => exact fun h => (nomatch h)

theorem executeIntents_ne_limit (hstart : start < config.maxDepth)
    (hallowed : ∀ intent ∈ intents, isToolAllowed config catalog intent.toolName = true)
    (seen max : ℕ) :
    executeIntents config catalog tool start intents ≠ .error (.toolRecursionLimit seen max) := by
  induction intents with
  | nil => exact fun h => (nomatch h)
  | cons intent intents ih =>
    have hne : executeIntent config catalog tool start intent ≠
        .error (.toolRecursionLimit seen max) :=
      executeIntent_ne_limit hstart (hallowed _ List.mem_cons_self) seen max
    have hrest := ih fun a ha => hallowed a (List.mem_cons_of_mem _ ha)
    rw [executeIntents]
    cases hone : executeIntent config catalog tool start intent with
    | error e =>
      rw [hone] at hne
      intro h
      cases h
      exact hne rfl
    | ok r =>
      simp only
      cases hall : executeIntents config catalog tool start intents with
      | error e =>
        rw [hall] at hrest
        intro h
        cases h
        exact hrest rfl
      | ok rs => exact fun h => (nomatch h)

/-- The siblings that run can take all the room that there is. -/
theorem outcome_limit
    (hallowed : ∀ intent ∈ intents, isToolAllowed config catalog intent.toolName = true)
    (hstart : start < config.maxDepth) (hover : config.maxDepth < start + intents.length) :
    Outcome config catalog tool .parallel start intents
      (.error (.toolRecursionLimit config.maxDepth config.maxDepth)) := by
  obtain ⟨first,intent,after,rfl,hfirst⟩ : ∃ first intent after,
      intents = first ++ intent :: after ∧ start + first.length = config.maxDepth := by
    have hlt : config.maxDepth - start < intents.length := by omega
    refine ⟨intents.take (config.maxDepth - start),intents[config.maxDepth - start],
      intents.drop (config.maxDepth - start + 1),?_,?_⟩
    · rw [List.getElem_cons_drop,List.take_append_drop]
    · rw [List.length_take]
      omega
  have hrun : CallRun config catalog (fun intent r => r = tool intent) .parallel start
      (waiting (first ++ intent :: after)) (start + first.length)
      (running first ++ waiting (intent :: after)) :=
    exists_run_started (fun a ha => hallowed a (List.mem_append_left _ ha)) hfirst.le
  rw [hfirst] at hrun
  have henter := hrun.tail (.enter (quiet_running first) (quiet_waiting after) fun child hchild => by
    obtain ⟨a,-,rfl⟩ := List.mem_map.mp hchild
    exact fun hw => (nomatch hw))
  have hcheck : check config catalog config.maxDepth intent =
      some (.toolRecursionLimit config.maxDepth config.maxDepth) := by
    rw [check,if_pos (Nat.le_refl _)]
  exact ⟨_,_,henter.tail (.reject hcheck),.error (quiet_running first) (quiet_waiting after)⟩

/-- The tool of any intent can be the first one to answer. -/
theorem outcome_of_error {intent : ToolIntent} {e : MdapError}
    (hallowed : ∀ intent ∈ intents, isToolAllowed config catalog intent.toolName = true)
    (hroom : start + intents.length ≤ config.maxDepth) (hintent : intent ∈ intents)
    (he : executeIntent config catalog tool start intent = .error e) :
    Outcome config catalog tool .parallel start intents (.error e) := by
  have hrun : CallRun config catalog (fun intent r => r = tool intent) .parallel start
      (waiting intents) (start + intents.length) (running intents) := by
    have hall : CallRun config catalog (R := R) (fun intent r => r = tool intent) .parallel start
        (waiting (intents ++ [])) (start + intents.length) (running intents ++ []) :=
      exists_run_started hallowed hroom
    rw [List.append_nil,List.append_nil] at hall
    exact hall
  have hpos := List.length_pos_of_mem hintent
  have hresult : toolResult intent (tool intent) = .error e := by
    rw [executeIntent,check_of_allowed (by omega) (hallowed intent hintent)] at he
    exact he
  obtain ⟨before,after,rfl⟩ := List.append_of_mem hintent
  obtain ⟨depth,hdepth⟩ : ∃ depth, start + (before ++ intent :: after).length = depth + 1 :=
    ⟨_,(Nat.succ_pred_eq_of_pos (by omega)).symm⟩
  rw [hdepth,running_append] at hrun
  have hfinish := hrun.tail (.finish (quiet_running before) (quiet_running after) rfl)
  rw [hresult] at hfinish
  exact ⟨_,_,hfinish,.error (quiet_running before) (quiet_running after)⟩

theorem parallelMode_of_le_one (h : intents.length ≤ 1) :
    parallelMode catalog intents = .sequence := by
  rw [parallelMode,decide_eq_true h,Bool.or_true,if_pos rfl]

theorem parallelMode_of_readOnly (hread : allReadOnly catalog intents = true)
    (h : 1 < intents.length) : parallelMode catalog intents = .parallel := by
  rw [parallelMode,hread,decide_eq_false (Nat.not_le.mpr h)]
  rfl

/-- At the same time and one after the other give the same exactly where at most one intent is
there, none is let through, or there is room for all and those that fail do so alike. -/
theorem outcome_eq_iff
    (hallowed : ∀ intent ∈ intents, isToolAllowed config catalog intent.toolName = true)
    (hread : allReadOnly catalog intents = true) :
    (∀ r r', Outcome config catalog tool (parallelMode catalog intents) start intents r →
      Outcome config catalog tool .sequence start intents r' → r = r') ↔
    intents.length ≤ 1 ∨ config.maxDepth ≤ start ∨
      (start + intents.length ≤ config.maxDepth ∧
        FailAlike config catalog tool start intents) := by
  constructor
  · intro h
    by_contra hnot
    rw [not_or,not_or,not_and,Nat.not_le,Nat.not_le] at hnot
    obtain ⟨hlength,hstart,halike⟩ := hnot
    rw [parallelMode_of_readOnly hread hlength] at h
    rcases Nat.lt_or_ge config.maxDepth (start + intents.length) with hover | hroom
    · have hlimit := h _ _ (outcome_limit hallowed hstart hover) outcome_sequence
      exact executeIntents_ne_limit hstart hallowed _ _ hlimit.symm
    · refine halike hroom fun a ha b hb e e' he he' => ?_
      have hfirst := h _ _ (outcome_of_error hallowed hroom ha he) outcome_sequence
      have hsecond := h _ _ (outcome_of_error hallowed hroom hb he') outcome_sequence
      exact Except.error.inj (hfirst.trans hsecond.symm)
  · intro h r r' hr hr'
    rw [outcome_sequence_iff.mp hr']
    rcases h with hlength | hfull | ⟨hroom,halike⟩
    · rw [parallelMode_of_le_one hlength] at hr
      exact outcome_sequence_iff.mp hr
    · exact hr.eq_of_failAlike (.inl hfull) (failAlike_of_ge hfull)
    · exact hr.eq_of_failAlike (.inr hroom) halike

/-! ## The laws of the executor -/

/-- The counter tells how many executions are in progress all along a walk exactly where none of
these is dropped. Allowed intents that only read give at the same time what they give one after
the other exactly where they cannot crowd each other out and those that fail do so alike. -/
theorem executor_laws (config : MicroagentToolConfig) (catalog : Catalog) :
    (∀ (answers : ToolIntent → Except String R → Prop) (trail : List (ℕ × System R)),
      Walk config catalog answers {} trail →
        ((∀ p ∈ trail, p.2.depth = p.2.inProgress) ↔ ∀ p ∈ trail, p.1 = 0)) ∧
    ∀ (tool : ToolIntent → Except String R) (start : ℕ) (intents : List ToolIntent),
      (∀ intent ∈ intents, isToolAllowed config catalog intent.toolName = true) →
      allReadOnly catalog intents = true →
      ((∀ r r', Outcome config catalog tool (parallelMode catalog intents) start intents r →
        Outcome config catalog tool .sequence start intents r' → r = r') ↔
      intents.length ≤ 1 ∨ config.maxDepth ≤ start ∨
        (start + intents.length ≤ config.maxDepth ∧
          FailAlike config catalog tool start intents)) :=
  ⟨fun _ _ hwalk => hwalk.depth_eq_iff rfl,fun _ _ _ hallowed hread =>
    outcome_eq_iff hallowed hread⟩

def fileReads : Catalog where
  containsTool cat toolName := decide (cat = .fileRead ∧ toolName = "read_file")
  readOnlyCategories := [.fileRead,.search,.semanticSearch]

def readFile : ToolIntent where
  toolName := "read_file"
  arguments := .null

def onlyReads : MicroagentToolConfig where
  allowedCategories := [.fileRead]

theorem Step.alone
    (h : CallStep config catalog answers mode depth children depth' children') :
    Step config catalog answers ⟨depth,[⟨mode,children⟩]⟩ 0 ⟨depth',[⟨mode,children'⟩]⟩ :=
  @Step.within _ _ _ _ _ _ [] [] _ _ _ h

/-- The states of an execution that comes to its tool. -/
def started : List (ℕ × System String) :=
  [(0,⟨0,[⟨.sequence,[(readFile,.waiting)]⟩]⟩),(0,⟨1,[⟨.sequence,[(readFile,.entered 0)]⟩]⟩),
    (0,⟨1,[⟨.sequence,[(readFile,.running)]⟩]⟩)]

theorem walk_started {answers : ToolIntent → Except String String → Prop}
    {trail : List (ℕ × System String)}
    (h : Walk onlyReads fileReads answers ⟨1,[⟨.sequence,[(readFile,.running)]⟩]⟩ trail) :
    Walk onlyReads fileReads answers {} (started ++ trail) := by
  have hnone : Quiet ([] : List (Child String)) := List.forall_mem_nil _
  have henter : CallStep onlyReads fileReads answers .sequence 0 [(readFile,.waiting)] 1
      [(readFile,.entered 0)] := .enter hnone hnone (List.forall_mem_nil _)
  have hvalidate : CallStep onlyReads fileReads answers .sequence 1 [(readFile,.entered 0)] 1
      [(readFile,.running)] :=
    @CallStep.validate _ _ _ _ _ 1 0 [] [] readFile rfl
  refine .step (.call .sequence [readFile]) (.step ?_ (.step ?_ h))
  · exact .alone henter
  · exact .alone hvalidate

theorem executor_laws_of_reads :
    (∀ p ∈ started ++ [((0 : ℕ),(⟨0,[⟨.sequence,[(readFile,.finished (.ok "text"))]⟩]⟩ :
      System String)),(0,⟨0,[]⟩)], p.2.depth = p.2.inProgress) ∧
    ∀ r r', Outcome onlyReads fileReads (fun _ => .ok "text")
        (parallelMode fileReads [readFile,readFile]) 0 [readFile,readFile] r →
      Outcome onlyReads fileReads (fun _ => .ok "text") .sequence 0 [readFile,readFile] r' →
        r = r' := by
  have hlaws := executor_laws (R := String) onlyReads fileReads
  constructor
  · refine (hlaws.1 (fun _ r => r = .ok "text") _ (walk_started ?_)).mpr ?_
    · have hnone : Quiet ([] : List (Child String)) := List.forall_mem_nil _
      have hfinish : CallStep onlyReads fileReads (fun _ r => r = .ok "text") .sequence 1
          [(readFile,.running)] 0 [(readFile,.finished (.ok "text"))] :=
        @CallStep.finish _ _ _ _ _ 0 [] [] readFile (.ok "text") hnone hnone rfl
      have hreturned : Returns [(readFile,.finished (.ok "text"))] (.ok ["text"]) := .ok rfl
      refine .step (.alone hfinish) (.step ?_ .done)
      exact @Step.returned _ _ _ _ 0 [] [] .sequence _ _ hreturned
    · simp only [started,List.cons_append,List.nil_append,List.forall_mem_cons,true_and]
      exact List.forall_mem_nil _
  · refine (hlaws.2 (fun _ => .ok "text") 0 [readFile,readFile] (by decide) (by decide)).mpr ?_
    refine .inr (.inr ⟨by decide,?_⟩)
    intro a ha b hb e e' he
    have hok : executeIntent onlyReads fileReads (fun _ => .ok "text") 0 readFile = .ok "text" :=
      rfl
    have hread : a = readFile := by simpa using ha
    rw [hread,hok] at he
    cases he

/-- Where an execution is dropped while its tool runs, the counter is left raised. Of four
intents at once, one is turned away. -/
theorem executor_departs :
    (∃ trail : List (ℕ × System String),
      Walk onlyReads fileReads (fun _ _ => True) {} trail ∧ (1,⟨1,[]⟩) ∈ trail) ∧
    Outcome onlyReads fileReads (fun _ => .ok "text")
      (parallelMode fileReads (List.replicate 4 readFile)) 0 (List.replicate 4 readFile)
      (.error (.toolRecursionLimit 3 3)) ∧
    Outcome onlyReads fileReads (fun _ => .ok "text") .sequence 0
      (List.replicate 4 readFile) (.ok (List.replicate 4 "text")) := by
  refine ⟨⟨started ++ [(1,⟨1,[]⟩)],walk_started (.step ?_ .done),by simp⟩,?_,?_⟩
  · have hawaits : ∀ child ∈ [((readFile,.running) : Child String)],
        ∀ seen, child.2 ≠ .entered seen := by
      intro child hchild seen hseen
      rw [List.mem_singleton] at hchild
      rw [hchild] at hseen
      cases hseen
    exact @Step.dropped _ _ _ _ 1 [] [] .sequence _ hawaits
  · exact outcome_limit (by decide) (by decide) (by decide)
  · exact outcome_sequence_iff.mpr rfl

end Rullama.Mdap.ToolExecutor
