import Rullama.Tools.Json

/-! # Layered permission settings

The permission part of `settings.json`: rules are written `Tool` or `Tool(argspec)`, the
layers are concatenated, and `deny` wins over `ask` over `allow`.
-/
namespace Rullama.Tools

/-! ## Globs -/

/-- What a piece of the regex stands for that a glob is translated to. -/
inductive GlobPiece where
  | deep
  | star
  | one
  | literal (c : Char)

def globPieces : List Char → List GlobPiece
  | [] => []
  | '*' :: '*' :: '/' :: cs => .deep :: globPieces cs
  | '*' :: '*' :: cs => .deep :: globPieces cs
  | '*' :: cs => .star :: globPieces cs
  | '?' :: cs => .one :: globPieces cs
  | c :: cs => .literal c :: globPieces cs

/-- The rests of a text after the characters that a run of `ok` characters can take. -/
def restsAfter (ok : Char → Bool) : List Char → List (List Char)
  | [] => [[]]
  | c :: cs => (c :: cs) :: if ok c then restsAfter ok cs else []

/-- The rests of a text that one piece can leave: `.*`, `[^/]*`, `[^/]` or the character. -/
def GlobPiece.rests : GlobPiece → List Char → List (List Char)
  | .deep, text => restsAfter (· != '\n') text
  | .star, text => restsAfter (· != '/') text
  | .one, c :: cs => if c != '/' then [cs] else []
  | .literal d, c :: cs => if c == d then [cs] else []
  | _, [] => []

def globMatches (pattern path : String) : Bool :=
  pattern == "*" ||
    ((globPieces pattern.toList).foldl (fun rests piece => rests.flatMap piece.rests)
      [path.toList]).any List.isEmpty

/-! ## Rules -/

/-- The text before the last `c`. -/
def beforeLast (c : Char) : List Char → Option (List Char)
  | [] => none
  | d :: ds =>
    match beforeLast c ds with
    | some text => some (d :: text)
    | none => if d = c then some [] else none

def splitPattern (raw : String) : String × Option String :=
  match raw.toList.dropWhile (· != '(') with
  | [] => (raw,none)
  | _ :: rest =>
    match beforeLast ')' rest with
    | some spec => (.ofList (raw.toList.takeWhile (· != '(')),some (.ofList spec))
    | none => (raw,none)

def canonicalToolName : String → String
  | "Bash" => "execute_command"
  | "Read" => "read_file"
  | "Write" => "write_file"
  | "Edit" => "edit_file"
  | "Glob" => "glob"
  | "Grep" => "search"
  | "WebFetch" => "web_fetch"
  | "WebSearch" => "web_search"
  | other => other

def toolNameMatches (pattern toolName : String) : Bool :=
  match stripSuffix (canonicalToolName pattern) "*" with
  | some text => startsWith toolName text
  | none => canonicalToolName pattern == toolName

/-- `"ls:*"` is the command `ls` or one that begins with `"ls "`. -/
def commandMatches (spec command : String) : Bool :=
  if spec == "*" then true
  else
    match stripSuffix spec ":*" with
    | some text => command == text || startsWith command (text ++ " ")
    | none => spec == command

/-- The path that a rule for a file tool is matched against. -/
def rulePath (args : Value) : Option String := (args.str "file_path").or (args.str "path")

def argMatches (toolName spec : String) (args : Value) : Bool :=
  match toolName with
  | "execute_command" | "run_command" =>
    match args.str "command" with
    | some command => commandMatches spec command
    | none => false
  | "read_file" | "write_file" | "edit_file" | "delete_file" =>
    match rulePath args with
    | some path => globMatches spec path
    | none => false
  | _ => false

/-- `PermissionMatcher::matches` -/
def ruleMatches (raw toolName : String) (args : Value) : Bool :=
  toolNameMatches (splitPattern raw).1 toolName &&
    match (splitPattern raw).2 with
    | none => true
    | some spec => argMatches toolName spec args

structure Permissions where
  allow : List String := []
  deny : List String := []
  ask : List String := []

inductive PermissionDecision where
  | unset
  | allow
  | ask
  | deny (reason : String)
deriving DecidableEq

namespace Permissions

def decide (p : Permissions) (toolName : String) (args : Value) : PermissionDecision :=
  match p.deny.find? (ruleMatches · toolName args) with
  | some rule => .deny ("denied by settings rule '" ++ rule ++ "'")
  | none =>
    if p.ask.any (ruleMatches · toolName args) then .ask
    else if p.allow.any (ruleMatches · toolName args) then .allow
    else .unset

/-- The permission part of `Settings::merge`. -/
def merge (me them : Permissions) : Permissions where
  allow := me.allow ++ them.allow
  deny := me.deny ++ them.deny
  ask := me.ask ++ them.ask

variable {p : Permissions} {toolName : String} {args : Value}

theorem decide_allow : p.decide toolName args = .allow →
    (∀ rule ∈ p.deny, ruleMatches rule toolName args = false) ∧
    (∀ rule ∈ p.ask, ruleMatches rule toolName args = false) ∧
    ∃ rule ∈ p.allow, ruleMatches rule toolName args = true := by
  intro h
  simp only [decide] at h
  split at h
  · cases h
  rename_i hd
  split at h
  · cases h
  rename_i ha
  split at h
  · rename_i hw
    refine ⟨by simpa using hd,by simpa using ha,?_⟩
    simpa using hw
  · cases h

/-- A deny rule of any layer denies under the merged settings. -/
theorem decide_merge_deny (q : Permissions) {rule : String} (hr : rule ∈ p.deny ∨ rule ∈ q.deny)
    (hm : ruleMatches rule toolName args = true) :
    ∃ reason, (p.merge q).decide toolName args = .deny reason := by
  have hs : ((p.merge q).deny.find? (ruleMatches · toolName args)).isSome := by
    rw [List.find?_isSome]
    exact ⟨rule,List.mem_append.mpr hr,hm⟩
  obtain ⟨found,hf⟩ := Option.isSome_iff_exists.mp hs
  exact ⟨_,by rw [decide,hf]⟩

end Permissions
end Rullama.Tools
