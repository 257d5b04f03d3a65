import Rullama.Tools.Layers

/-! # Hooks that guard a tool

Before a tool runs, the commands of the matchers that apply to it are run one after the other, up
to the first that does not end well. A command guards the tool by exiting with code 2.
-/
namespace Rullama.Tools

def HookOutcome.isBlock : HookOutcome → Bool
  | block _ => true
  | _ => false

def dispatchPreTool (ends : ℕ → HookExit) (hooks : Hooks) (toolName : String) :
    List (HookCommand × HookOutcome) × HookOutcome :=
  if hooks.preToolUse.isEmpty then ([],.continue)
  else runMatchers ends hooks.preToolUse toolName

/-- The commands, each with how it ends if it is run. -/
def endings (ends : ℕ → HookExit) : ℕ → List HookCommand → List (HookCommand × HookExit)
  | _, [] => []
  | n, hook :: hooks => (hook,ends n) :: endings ends (n + 1) hooks

/-- The commands that apply to the tool, in the order of the settings. -/
def applying (ends : ℕ → HookExit) (hooks : Hooks) (toolName : String) :
    List (HookCommand × HookExit) :=
  endings ends 0
    ((hooks.preToolUse.filter (fun m => matcherApplies m.matcher toolName)).flatMap (·.hooks))

def Passes (e : HookCommand × HookExit) : Prop :=
  e.1.kind = "command" ∧ ∃ stderr, e.2 = .exited 0 stderr

def Refuses (e : HookCommand × HookExit) : Prop :=
  e.1.kind = "command" ∧ ∃ stderr, e.2 = .exited 2 stderr

/-- The dispatch blocks exactly if a command refuses, and runs every command that none before it
has blocked. -/
structure Guards (commands : List (HookCommand × HookExit))
    (dispatched : List (HookCommand × HookOutcome) × HookOutcome) : Prop where
  blocks : dispatched.2.isBlock = true ↔ ∃ e ∈ commands, Refuses e
  runs : ∀ before e after, commands = before ++ e :: after → (∀ x ∈ before, ¬Refuses x) →
    before.map Prod.fst ++ [e.1] <+: dispatched.1.map Prod.fst

/-- A command that neither passes nor refuses is the last one, or one before it refuses. -/
def NoneCutOff (commands : List (HookCommand × HookExit)) : Prop :=
  ∀ before e after, commands = before ++ e :: after → ¬Passes e → ¬Refuses e →
    after = [] ∨ ∃ x ∈ before, Refuses x

variable {ends : ℕ → HookExit} {n : ℕ} {hook : HookCommand} {ended : HookExit}
  {commands : List (HookCommand × HookExit)}

theorem Passes.not_refuses {e : HookCommand × HookExit} (h : Passes e) : ¬Refuses e := by
  rintro ⟨-,stderr,htwo⟩
  obtain ⟨-,_,hzero⟩ := h
  rw [hzero] at htwo
  cases htwo

/-- A command passes, refuses or fails softly. -/
theorem runHookCommand_cases (hook : HookCommand) (ended : HookExit) :
    (Passes (hook,ended) ∧ runHookCommand hook ended = .continue) ∨
    (Refuses (hook,ended) ∧ ∃ reason, runHookCommand hook ended = .block reason) ∨
    (¬Passes (hook,ended) ∧ ¬Refuses (hook,ended) ∧
      ∃ text, runHookCommand hook ended = .softError text) := by
  by_cases hkind : hook.kind = "command"
  · cases ended with
    | exited code stderr =>
      by_cases hzero : code = 0
      · subst hzero
        exact .inl ⟨⟨hkind,stderr,rfl⟩,by simp [runHookCommand,hkind]⟩
      · by_cases htwo : code = 2
        · subst htwo
          exact .inr (.inl ⟨⟨hkind,stderr,rfl⟩,by simp [runHookCommand,hkind]⟩)
        · refine .inr (.inr ⟨?_,?_,by simp [runHookCommand,hkind,hzero,htwo]⟩)
          · rintro ⟨-,_,h⟩
            cases h
            exact hzero rfl
          · rintro ⟨-,_,h⟩
            cases h
            exact htwo rfl
    | _ =>
      refine .inr (.inr ⟨?_,?_,by simp [runHookCommand,hkind]⟩)
      · rintro ⟨-,_,h⟩
        cases h
      · rintro ⟨-,_,h⟩
        cases h
  · refine .inr (.inr ⟨fun h => hkind h.1,fun h => hkind h.1,?_⟩)
    simp [runHookCommand,hkind]

/-! ## The loop -/

theorem runHooks_of_passes {hooks : List HookCommand} (h : Passes (hook,ends n)) :
    runHooks ends n (hook :: hooks) = ((hook,.continue) :: (runHooks ends (n + 1) hooks).1,
      (runHooks ends (n + 1) hooks).2) := by
  rcases runHookCommand_cases hook (ends n) with ⟨-,hrun⟩ | ⟨hrefuses,-⟩ | ⟨hnot,-⟩
  · rw [runHooks,hrun]
  · exact absurd hrefuses h.not_refuses
  · exact absurd h hnot

theorem runHooks_of_not_passes {hooks : List HookCommand} (h : ¬Passes (hook,ends n)) :
    runHooks ends n (hook :: hooks) =
      ([(hook,runHookCommand hook (ends n))],runHookCommand hook (ends n)) := by
  rcases runHookCommand_cases hook (ends n) with ⟨hpasses,-⟩ | ⟨-,reason,hrun⟩ | ⟨-,-,text,hrun⟩
  · exact absurd hpasses h
  · rw [runHooks,hrun]
  · rw [runHooks,hrun]

theorem isBlock_runHookCommand :
    (runHookCommand hook ended).isBlock = true ↔ Refuses (hook,ended) := by
  rcases runHookCommand_cases hook ended with ⟨hpasses,hrun⟩ | ⟨hrefuses,_,hrun⟩ | ⟨-,hnot,_,hrun⟩
  · rw [hrun]
    exact iff_of_false Bool.false_ne_true hpasses.not_refuses
  · rw [hrun]
    exact iff_of_true rfl hrefuses
  · rw [hrun]
    exact iff_of_false Bool.false_ne_true hnot

/-- A command that passes makes no difference. -/
theorem guards_cons_of_passes {e : HookCommand × HookExit} {outcome : HookOutcome}
    {dispatched : List (HookCommand × HookOutcome) × HookOutcome} (h : Passes e) :
    Guards (e :: commands) ((e.1,outcome) :: dispatched.1,dispatched.2) ↔
      Guards commands dispatched := by
  have hblocks : (∃ x ∈ e :: commands, Refuses x) ↔ ∃ x ∈ commands, Refuses x := by
    rw [List.exists_mem_cons_iff,or_iff_right h.not_refuses]
  constructor
  · intro hguards
    refine ⟨hguards.blocks.trans hblocks,fun before x after hsplit hnone => ?_⟩
    have hrun := hguards.runs (e :: before) x after (congrArg (e :: ·) hsplit)
      (List.forall_mem_cons.mpr ⟨h.not_refuses,hnone⟩)
    exact (List.cons_prefix_cons.mp hrun).2
  · intro hguards
    refine ⟨hguards.blocks.trans hblocks.symm,fun before x after hsplit hnone => ?_⟩
    cases before with
    | nil =>
      cases hsplit
      exact List.cons_prefix_cons.mpr ⟨rfl,List.nil_prefix⟩
    | cons y before =>
      cases hsplit
      exact List.cons_prefix_cons.mpr
        ⟨rfl,hguards.runs before x after rfl (List.forall_mem_cons.mp hnone).2⟩

theorem noneCutOff_cons_of_passes {e : HookCommand × HookExit} (h : Passes e) :
    NoneCutOff (e :: commands) ↔ NoneCutOff commands := by
  constructor
  · intro hnone before x after hsplit hpasses hrefuses
    refine (hnone (e :: before) x after (congrArg (e :: ·) hsplit) hpasses hrefuses).imp_right ?_
    rw [List.exists_mem_cons_iff,or_iff_right h.not_refuses]
    exact id
  · intro hnone before x after hsplit hpasses hrefuses
    cases before with
    | nil =>
      cases hsplit
      exact absurd h hpasses
    | cons y before =>
      cases hsplit
      refine (hnone before x after rfl hpasses hrefuses).imp_right ?_
      rintro ⟨z,hz,hzr⟩
      exact ⟨z,.tail _ hz,hzr⟩

theorem guards_of_refuses (h : Refuses (hook,ended)) :
    Guards ((hook,ended) :: commands)
      ([(hook,runHookCommand hook ended)],runHookCommand hook ended) := by
  refine ⟨iff_of_true (isBlock_runHookCommand.mpr h) ⟨_,.head _,h⟩,?_⟩
  intro before x after hsplit hnone
  cases before with
  | nil =>
    cases hsplit
    exact List.prefix_rfl
  | cons y before =>
    cases hsplit
    exact absurd h (hnone _ (.head _))

theorem noneCutOff_of_refuses {e : HookCommand × HookExit} (h : Refuses e) :
    NoneCutOff (e :: commands) := by
  intro before x after hsplit hpasses hrefuses
  cases before with
  | nil =>
    cases hsplit
    exact absurd h hrefuses
  | cons y before =>
    cases hsplit
    exact .inr ⟨e,.head _,h⟩

/-- A command that fails softly guards only if it is the last one. -/
theorem guards_of_fails (hpasses : ¬Passes (hook,ended)) (hrefuses : ¬Refuses (hook,ended)) :
    Guards ((hook,ended) :: commands)
      ([(hook,runHookCommand hook ended)],runHookCommand hook ended) ↔
      NoneCutOff ((hook,ended) :: commands) := by
  constructor
  · intro hguards
    have hnil : commands = [] := by
      cases commands with
      | nil => rfl
      | cons e commands =>
        -- the second command would have to be run
        have hrun := hguards.runs [(hook,ended)] e commands rfl
          (List.forall_mem_singleton.mpr hrefuses)
        exact absurd hrun.length_le (by simp)
    subst hnil
    intro before x after hsplit hx hx'
    left
    cases before with
    | nil =>
      cases hsplit
      rfl
    | cons y before => simp at hsplit
  · intro hnone
    rcases hnone [] _ _ rfl hpasses hrefuses with rfl | ⟨x,hx,-⟩
    · refine ⟨iff_of_false (isBlock_runHookCommand.not.mpr hrefuses) ?_,?_⟩
      · rintro ⟨x,hx,hxr⟩
        rw [List.mem_singleton.mp hx] at hxr
        exact hrefuses hxr
      · intro before x after hsplit hnone
        cases before with
        | nil =>
          cases hsplit
          exact List.prefix_rfl
        | cons y before => simp at hsplit
    · cases hx

theorem runHooks_guards_iff (n : ℕ) (hooks : List HookCommand) :
    Guards (endings ends n hooks) (runHooks ends n hooks) ↔ NoneCutOff (endings ends n hooks) := by
  induction hooks generalizing n with
  | nil =>
    refine iff_of_true ⟨iff_of_false Bool.false_ne_true ?_,?_⟩ ?_
    · rintro ⟨x,hx,-⟩
      cases hx
    · intro before x after hsplit
      simp [endings] at hsplit
    · intro before x after hsplit
      simp [endings] at hsplit
  | cons hook hooks ih =>
    rw [endings]
    by_cases hpasses : Passes (hook,ends n)
    · rw [runHooks_of_passes hpasses,guards_cons_of_passes hpasses,
        noneCutOff_cons_of_passes hpasses]
      exact ih (n + 1)
    · rw [runHooks_of_not_passes hpasses]
      by_cases hrefuses : Refuses (hook,ends n)
      · exact iff_of_true (guards_of_refuses hrefuses) (noneCutOff_of_refuses hrefuses)
      · exact guards_of_fails hpasses hrefuses

/-- The hooks of a tool guard it exactly when none fails softly before another one, unless one
before it refuses. -/
theorem dispatchPreTool_guards_iff (ends : ℕ → HookExit) (hooks : Hooks) (toolName : String) :
    Guards (applying ends hooks toolName) (dispatchPreTool ends hooks toolName) ↔
      NoneCutOff (applying ends hooks toolName) := by
  rw [dispatchPreTool]
  split
  · rename_i hempty
    have hnil : runHooks ends 0 ((hooks.preToolUse.filter
        (fun m => matcherApplies m.matcher toolName)).flatMap (·.hooks)) = ([],.continue) := by
      rw [List.isEmpty_iff.mp hempty]
      rfl
    rw [← hnil]
    exact runHooks_guards_iff 0 _
  · exact runHooks_guards_iff 0 _

/-- A hook whose script is broken, before one that guards. -/
def brokenFirst : Hooks where
  preToolUse := [⟨none,[⟨"command","lint",none⟩]⟩,⟨some "Bash",[⟨"command","guard",none⟩]⟩]

/-- The second hook would refuse, and is not run. -/
theorem brokenFirst_not_guards : ¬ ∀ (ends : ℕ → HookExit) (hooks : Hooks) (toolName : String),
    Guards (applying ends hooks toolName) (dispatchPreTool ends hooks toolName) := by
  intro h
  let ends (n : ℕ) : HookExit := if n = 0 then .exited 127 "lint: not found" else .exited 2 "no"
  have hguards := h ends brokenFirst "execute_command"
  have hrefuses : Refuses (⟨"command","guard",none⟩,ends 1) := ⟨rfl,"no",rfl⟩
  have hmem : (⟨"command","guard",none⟩,ends 1) ∈ applying ends brokenFirst "execute_command" :=
    .tail _ (.head _)
  have hblock := hguards.blocks.mpr ⟨_,hmem,hrefuses⟩
  exact absurd hblock Bool.false_ne_true

end Rullama.Tools
