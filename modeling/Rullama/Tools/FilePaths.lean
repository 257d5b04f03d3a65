import Rullama.Tools.Executor

/-! # The path of a file tool

Five places read a path from the input of a file tool, under the keys `path` and `file_path`
in different orders. They agree where `file_path` is absent or reads like `path`; for the
tools whose path only the lock looks for under the second key, also where `path` is present.
-/
namespace Rullama.Tools

inductive LockType where
  | read
  | write
deriving DecidableEq

/-- The path that a lock is taken on: the first of the two keys that is present. -/
def lockPath (input : Value) : Option String :=
  ((input.get "path").or (input.get "file_path")).bind Value.asStr

def lockType : String → Option LockType
  | "read_file" | "list_directory" | "search_code" => some .read
  | "write_file" | "edit_file" | "patch_file" | "delete_file" | "create_directory" => some .write
  | _ => none

def getLockRequirement (toolUse : ToolUse) : Option (String × LockType) :=
  (lockPath toolUse.input).bind (fun path => (lockType toolUse.name).map (path,·))

def isFileOperation (toolName : String) : Bool :=
  ["read_file", "write_file", "edit_file", "append_to_file", "delete_file"].contains toolName

def extractFilePath (toolUse : ToolUse) : Option String :=
  ((toolUse.input.get "file_path").or (toolUse.input.get "path")).bind Value.asStr

/-- The path that an approval dialog shows, for the actions that have one. -/
def ApprovalAction.path : ApprovalAction → Option String
  | .writeFile path | .editFile path | .deleteFile path | .createDirectory path => some path
  | _ => none

/-- The tools whose rules can name a path. -/
def hasRulePath (toolName : String) : Bool :=
  ["read_file", "write_file", "edit_file", "delete_file"].contains toolName

/-- Every place that judges or shows a path of this tool use takes `path` for it. -/
structure OnePath (toolUse : ToolUse) (path : Option String) : Prop where
  rules : hasRulePath toolUse.name = true → rulePath toolUse.input = path
  gate : gatePath toolUse.input = path
  dialog : ∀ shown ∈ (createApprovalAction toolUse.name toolUse.input).path,
    shown = path.getD "<unknown>"
  lock : (lockType toolUse.name).isSome = true → (getLockRequirement toolUse).map Prod.fst = path
  workingSet : isFileOperation toolUse.name = true → extractFilePath toolUse = path

/-- The tools with a path argument that the lock, the dialog, the working set or the rules
look at; those of the second list are only locked. -/
def recordedTools : List String :=
  ["read_file", "write_file", "edit_file", "delete_file", "append_to_file"]

def lockedTools : List String := ["patch_file", "create_directory", "list_directory", "search_code"]

/-- The keys of the input name one path. -/
def KeysAgree (toolUse : ToolUse) : Prop :=
  if toolUse.name ∈ lockedTools then
    (toolUse.input.get "path").isSome = true ∨ toolUse.input.str "file_path" = none
  else (toolUse.input.get "file_path").isNone = true ∨
    toolUse.input.str "file_path" = toolUse.input.str "path"

instance (toolUse : ToolUse) : Decidable (KeysAgree toolUse) :=
  inferInstanceAs (Decidable (ite _ _ _))

variable {input : Value} {toolUse : ToolUse}

theorem rulePath_eq_iff : rulePath input = gatePath input ↔
    input.str "file_path" = none ∨ input.str "file_path" = input.str "path" := by
  rw [rulePath,gatePath]
  cases input.str "file_path" with
  | none => simp
  | some f => simp

theorem lockPath_eq_iff : lockPath input = gatePath input ↔
    (input.get "path").isSome = true ∨ input.str "file_path" = none := by
  simp only [lockPath,gatePath,Value.str]
  cases input.get "path" with
  | none => simp
  | some v => simp

theorem extractFilePath_eq_iff : extractFilePath toolUse = gatePath toolUse.input ↔
    (toolUse.input.get "file_path").isNone = true ∨
      toolUse.input.str "file_path" = toolUse.input.str "path" := by
  simp only [extractFilePath,gatePath,Value.str]
  cases toolUse.input.get "file_path" with
  | none => simp
  | some v => simp

theorem lockRequirement_fst (h : (lockType toolUse.name).isSome = true) :
    (getLockRequirement toolUse).map Prod.fst = lockPath toolUse.input := by
  obtain ⟨t,ht⟩ := Option.isSome_iff_exists.mp h
  rw [getLockRequirement,ht]
  cases lockPath toolUse.input with
  | none => rfl
  | some path => rfl

theorem approvalAction_path (toolName : String) (input : Value) : (createApprovalAction toolName input).path = none ∨
    (createApprovalAction toolName input).path = some (approvalPath input) := by
  simp only [createApprovalAction]
  split <;> simp [ApprovalAction.path]

/-- The dialog shows what the gate judges. -/
theorem dialog_gatePath : ∀ shown ∈ (createApprovalAction toolUse.name toolUse.input).path,
    shown = (gatePath toolUse.input).getD "<unknown>" := by
  intro shown hs
  rcases approvalAction_path toolUse.name toolUse.input with h | h
  · rw [h] at hs
    cases hs
  · rw [h] at hs
    cases hs
    rfl

/-- All places take one path exactly when the lock, the rules and the working set, where the
tool has them, take the one of the gate. -/
theorem onePath_iff : (∃ path, OnePath toolUse path) ↔
    (hasRulePath toolUse.name = true → rulePath toolUse.input = gatePath toolUse.input) ∧
    ((lockType toolUse.name).isSome = true → lockPath toolUse.input = gatePath toolUse.input) ∧
    (isFileOperation toolUse.name = true → extractFilePath toolUse = gatePath toolUse.input) := by
  constructor
  · rintro ⟨path,h⟩
    cases h.gate
    refine ⟨h.rules,fun hl => ?_,h.workingSet⟩
    rw [← lockRequirement_fst hl]
    exact h.lock hl
  · rintro ⟨hr,hl,hw⟩
    refine ⟨gatePath toolUse.input,hr,rfl,dialog_gatePath,fun ht => ?_,hw⟩
    rw [lockRequirement_fst ht]
    exact hl ht

theorem recorded_onePath_iff (h : toolUse.name ∈ recordedTools) :
    (∃ path, OnePath toolUse path) ↔ (toolUse.input.get "file_path").isNone = true ∨
      toolUse.input.str "file_path" = toolUse.input.str "path" := by
  have hw : isFileOperation toolUse.name = true := by
    rw [isFileOperation,List.contains_iff_mem]
    simp only [recordedTools,List.mem_cons] at h ⊢
    tauto
  rw [onePath_iff]
  constructor
  · rintro ⟨-,-,hx⟩
    exact extractFilePath_eq_iff.mp (hx hw)
  · intro hk
    refine ⟨fun _ => rulePath_eq_iff.mpr ?_,fun _ => lockPath_eq_iff.mpr ?_,
      fun _ => extractFilePath_eq_iff.mpr hk⟩
    · rcases hk with hn | he
      · exact .inl (by simp [Value.str,Option.isNone_iff_eq_none.mp hn])
      · exact .inr he
    · rcases hk with hn | he
      · exact .inr (by simp [Value.str,Option.isNone_iff_eq_none.mp hn])
      · cases hp : toolUse.input.get "path" with
        | none =>
          rw [he,Value.str,hp]
          exact .inr rfl
        | some v => exact .inl rfl

theorem locked_onePath_iff (h : toolUse.name ∈ lockedTools) :
    (∃ path, OnePath toolUse path) ↔
      (toolUse.input.get "path").isSome = true ∨ toolUse.input.str "file_path" = none := by
  simp only [lockedTools,List.mem_cons,List.not_mem_nil,or_false] at h
  have hr : hasRulePath toolUse.name = false ∧ (lockType toolUse.name).isSome = true ∧
      isFileOperation toolUse.name = false := by
    rcases h with h | h | h | h <;> rw [h] <;> decide
  rw [onePath_iff,hr.1,hr.2.1,hr.2.2,lockPath_eq_iff]
  simp

/-- For every use of a file tool all checks take one path exactly when the keys agree. -/
theorem fileTool_onePath_iff (h : toolUse.name ∈ recordedTools ++ lockedTools) :
    (∃ path, OnePath toolUse path) ↔ KeysAgree toolUse := by
  by_cases hl : toolUse.name ∈ lockedTools
  · rw [KeysAgree,if_pos hl]
    exact locked_onePath_iff hl
  · rw [KeysAgree,if_neg hl]
    exact recorded_onePath_iff ((List.mem_append.mp h).resolve_right hl)

/-- Both keys, and they name one file. -/
def plainWrite : ToolUse :=
  ⟨"t1","write_file",.object [("path",.string "notes.txt"), ("content",.string "x"),
    ("file_path",.string "notes.txt")]⟩

theorem plainWrite_onePath : (∃ path, OnePath plainWrite path) ↔ KeysAgree plainWrite :=
  fileTool_onePath_iff (by decide)

/-- The second key names another file, which the rules look at instead. -/
def shadowedWrite : ToolUse :=
  ⟨"t1","write_file",.object [("path",.string ".env"), ("content",.string "x"),
    ("file_path",.string "notes.txt")]⟩

example : (Permissions.decide { deny := ["Write(.env)"] } shadowedWrite.name shadowedWrite.input) =
    .unset := by decide

theorem shadowedWrite_twoPaths :
    ¬ ∀ toolUse : ToolUse, toolUse.name ∈ recordedTools ++ lockedTools →
      ∃ path, OnePath toolUse path := by
  intro h
  obtain ⟨path,hp⟩ := h shadowedWrite (by decide)
  have hr : rulePath shadowedWrite.input = some "notes.txt" := by decide
  have hg : gatePath shadowedWrite.input = some ".env" := by decide
  have he := (hp.rules rfl).trans hp.gate.symm
  rw [hr,hg] at he
  exact absurd he (by decide)

end Rullama.Tools
