import Rullama.Tools.Orchestrator
import Rullama.Shell.FirstCommand

/-! # Command rules and the shell

A rule `Bash(text:*)` and the whitelist of the orchestrator are tests of how a command line
begins. They say what its first simple command is; behind a separator, or in a substitution,
the shell starts whatever stands there.
-/
namespace Rullama.Tools
open Rullama.Shell

/-! ## Rules -/

def bashRule (text : String) : String := "Bash(" ++ text ++ ":*)"

/-- The command line is the text, or goes on behind a blank. -/
def Continues (text command : String) : Prop :=
  command = text ∨ ∃ more, command = text ++ " " ++ more

theorem beforeLast_append (c : Char) (text : List Char) : beforeLast c (text ++ [c]) = some text := by
  induction text with
  | nil => simp [beforeLast]
  | cons d ds ih => simp [beforeLast,ih]

theorem splitPattern_bashRule (text : String) :
    splitPattern (bashRule text) = ("Bash",some (text ++ ":*")) := by
  have hl : (bashRule text).toList = "Bash(".toList ++ ((text ++ ":*").toList ++ [')']) := by
    simp [bashRule]
  have hd : (bashRule text).toList.dropWhile (· != '(') = '(' :: ((text ++ ":*").toList ++ [')']) := by
    rw [hl]
    rfl
  have ht : (bashRule text).toList.takeWhile (· != '(') = "Bash".toList := by
    rw [hl]
    rfl
  rw [splitPattern,hd]
  simp only [beforeLast_append,ht,String.ofList_toList]

theorem commandMatches_iff {text command : String} :
    commandMatches (text ++ ":*") command = true ↔ Continues text command := by
  have hs : stripSuffix (text ++ ":*") ":*" = some text := stripSuffix_eq_some.mpr rfl
  have hn : (text ++ ":*" == "*") = false := by
    rw [beq_eq_false_iff_ne]
    intro he
    have hlen := congrArg String.length he
    rw [String.length_append,show ":*".length = 2 from rfl,show "*".length = 1 from rfl] at hlen
    omega
  rw [commandMatches,hn,hs]
  simp only [Bool.false_eq_true,if_false,Bool.or_eq_true,beq_iff_eq,startsWith_iff]
  rfl

theorem ruleMatches_bashRule {text : String} {args : Value} :
    ruleMatches (bashRule text) "execute_command" args = true ↔
      ∃ command ∈ args.str "command", Continues text command := by
  have hn : toolNameMatches "Bash" "execute_command" = true := by decide
  simp only [ruleMatches,splitPattern_bashRule,hn,Bool.true_and,argMatches]
  cases args.str "command" with
  | none => simp
  | some command => simp [commandMatches_iff]

/-- The allow entries for `execute_command` are all of the form `Bash(text:*)`. -/
def CommandRules (p : Permissions) : Prop :=
  ∀ rule ∈ p.allow, toolNameMatches (splitPattern rule).1 "execute_command" = true →
    ∃ text, rule = bashRule text

def lsRules : Permissions where
  allow := [bashRule "ls"]
  deny := [bashRule "rm"]

theorem lsRules_commandRules : CommandRules lsRules := by
  intro rule hr _
  exact ⟨"ls",List.mem_singleton.mp hr⟩

def commandInput (command : String) : Value := .object [("command",.string command)]

/-- The simple command is the one of the text, with or without arguments. -/
def Names (text : String) (c : Command) : Prop :=
  ∃ simple args, IsSimple text.toList simple ∧ c = simple ++ args

def plainWord (s : String) : Token := .word (s.toList.map (·,false))

theorem commandExecutor_check {runtime : Bool} {input : Value} {command : String}
    (h : input.str "command" = some command) :
    commandExecutor.check runtime input = .ok () ↔ isSafe command = true := by
  simp only [commandExecutor,h]
  split
  · simpa
  · simp [*]

/-- The program of the simple command, if it starts one, is a listed one. -/
def Listed (c : Command) : Prop := ∀ w ∈ program c, String.ofList w.text ∈ safePrefixes

instance (c : Command) : Decidable (Listed c) :=
  inferInstanceAs (Decidable (∀ w ∈ program c, String.ofList w.text ∈ safePrefixes))

/-- What of a simple command is left to look at when its first word is known to begin with the
listed name: the program behind an assignment, else whether the word goes on after the name. -/
def EndsThere (name : String) : Command → Prop
  | .word w :: args => if isAssignment w then Listed args else w.length ≤ name.length
  | _ => True

instance (name : String) : ∀ c, Decidable (EndsThere name c)
  | .word _ :: _ => inferInstanceAs (Decidable (ite _ _ _))
  | .redirect :: _ => .isTrue trivial
  | [] => .isTrue trivial

/-- The string is refused; or its first word stops where a listed name does that the string
begins with, and all simple commands but the first have a listed program. -/
def StopsAtName (command : String) : Prop :=
  isSafe command = false ∨ (∃ name ∈ safePrefixes, startsWith command name = true ∧
      ∀ c ∈ (outerCommands command.toList).head?, EndsThere name c) ∧
    ∀ c ∈ (simpleCommands command.toList).tail, Listed c

instance (command : String) : Decidable (StopsAtName command) :=
  inferInstanceAs (Decidable (_ ∨ (∃ name ∈ safePrefixes, startsWith command name = true ∧
    ∀ c ∈ (outerCommands command.toList).head?, EndsThere name c) ∧
      ∀ c ∈ (simpleCommands command.toList).tail, Listed c))

/-- No listed name is the beginning of another one. -/
theorem safePrefixes_distinct : ∀ name ∈ safePrefixes, ∀ name' ∈ safePrefixes,
    name.toList.isPrefixOf name'.toList → name = name' := by
  decide

theorem safePrefixes_read : ∀ name ∈ safePrefixes,
    (Lexer.read name.toList).first = ([],some (name.toList.map (·,false))) ∧
      (name.toList.map ((·,false) : Char → Char × Bool)).all isDigit = false := by
  decide

/-- The first word of an accepted string begins with the listed name. -/
theorem safe_head {command name : String} (hn : name ∈ safePrefixes)
    (hs : startsWith command name = true) : ∃ w args, name.toList <+: w.text ∧
      (outerCommands command.toList).head? = some (.word w :: args) := by
  obtain ⟨more,rfl⟩ := startsWith_iff.mp hs
  obtain ⟨hr,hd⟩ := safePrefixes_read name hn
  obtain ⟨w,args,hp,hh⟩ := outerCommands_of_word more.toList hr hd
  refine ⟨w,args,?_,by simpa using hh⟩
  obtain ⟨r,rfl⟩ := hp
  exact ⟨r.map Prod.fst,by simp [Word.text,Function.comp_def]⟩

theorem listed_word_iff {name : String} {w : Word} (hn : name ∈ safePrefixes)
    (hp : name.toList <+: w.text) : String.ofList w.text ∈ safePrefixes ↔ w.length ≤ name.length := by
  have hl : w.text.length = w.length := List.length_map _
  constructor
  · intro hm
    have he := safePrefixes_distinct name hn _ hm (by simpa using hp)
    have hw : name.length = w.length := by rw [he,String.length_ofList,hl]
    exact Nat.le_of_eq hw.symm
  · intro hle
    have he := hp.eq_of_length_le (by rw [hl,String.length_toList]; exact hle)
    rw [← he,String.ofList_toList]
    exact hn

theorem listed_head_iff {name : String} {w : Word} {args : Command} (hn : name ∈ safePrefixes)
    (hp : name.toList <+: w.text) : Listed (.word w :: args) ↔ EndsThere name (.word w :: args) := by
  simp only [Listed,program,EndsThere]
  split
  · rfl
  · simp only [Option.mem_some_iff,forall_eq']
    exact listed_word_iff hn hp

end Rullama.Tools
