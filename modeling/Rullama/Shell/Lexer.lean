import Mathlib.Data.List.Basic
import Mathlib.Tactic.Common

/-! # Simple commands of a command line

How `sh` cuts a command line into simple commands: quotes, backslashes, comments,
redirections, the separators `;`, `&`, `|` (doubled or not) and newline, subshells, and the
two forms of command substitution. Reserved words and here-documents have no meaning here:
they are read as words. The reader is a fold over the characters.
-/
namespace Rullama.Shell

/-- The characters of a word after quote removal, each with whether it was quoted. A word
that an expansion takes part in keeps the dollar sign or backquote. -/
abbrev Word := List (Char × Bool)

inductive Token where
  | word (w : Word)
  | redirect
deriving DecidableEq

/-- The words and redirections of a simple command. -/
abbrev Command := List Token

def Word.text (w : Word) : List Char := w.map Prod.fst

inductive Closer where
  | paren
  | backquote
deriving DecidableEq

/-- What has been read of a command: whole tokens, the word under way, and whether a double
quote is open. -/
structure Frame where
  tokens : Command := []
  word : Option Word := none
  double : Bool := false
deriving DecidableEq

inductive Mode where
  | plain
  | single
  | escape
  | dollar
  | redirect
  | comment
deriving DecidableEq

/-- The frames below the current one wait for its closer. Finished commands are kept apart
by whether they stood at the outermost level. -/
structure Lexer where
  mode : Mode := .plain
  frame : Frame := {}
  stack : List (Closer × Frame) := []
  top : List Command := []
  inner : List Command := []
deriving DecidableEq

def isDigit (x : Char × Bool) : Bool := x.1.isDigit && !x.2

namespace Frame

def push (f : Frame) (c : Char) (quoted : Bool) : Frame :=
  { f with word := some (f.word.getD [] ++ [(c,quoted)]) }

/-- A quote begins a word even where nothing is quoted. -/
def openWord (f : Frame) : Frame := { f with word := some (f.word.getD []) }

def endWord (f : Frame) : Frame :=
  match f.word with
  | none => f
  | some w => { f with tokens := f.tokens ++ [.word w], word := none }

/-- A number right before the operator belongs to it. -/
def redirect (f : Frame) : Frame :=
  match f.word with
  | none => { f with tokens := f.tokens ++ [.redirect] }
  | some w =>
    if w ≠ [] ∧ w.all isDigit then { f with tokens := f.tokens ++ [.redirect], word := none }
    else { f with tokens := f.tokens ++ [.word w, .redirect], word := none }

end Frame

namespace Lexer

def push (s : Lexer) (c : Char) (quoted : Bool) : Lexer :=
  { s with frame := s.frame.push c quoted }

def endCommand (s : Lexer) : Lexer :=
  match s.frame.endWord.tokens with
  | [] => { s with frame := { s.frame with tokens := [], word := none } }
  | t :: ts =>
    match s.stack with
    | [] => { s with frame := { s.frame with tokens := [], word := none }, top := s.top ++ [t :: ts] }
    | _ :: _ =>
      { s with frame := { s.frame with tokens := [], word := none }, inner := s.inner ++ [t :: ts] }

def «open» (s : Lexer) (closer : Closer) : Lexer :=
  { s with frame := {}, stack := (closer,s.frame) :: s.stack }

def close (s : Lexer) : Lexer :=
  match s.endCommand.stack with
  | [] => s.endCommand
  | (_,f) :: rest => { s.endCommand with frame := f, stack := rest }

def backquote (s : Lexer) : Lexer :=
  match s.stack with
  | (.backquote,_) :: _ => s.close
  | _ => (s.push '\x60' false).open .backquote

def rightParen (s : Lexer) : Lexer :=
  match s.stack with
  | (.paren,_) :: _ => s.close
  | _ => s.endCommand

/-- Inside double quotes. -/
def quotedChar (s : Lexer) (c : Char) : Lexer :=
  match c with
  | '"' => { s with frame := { s.frame with double := false } }
  | '\\' => { s with mode := .escape }
  | '$' => { s.push '$' true with mode := .dollar }
  | '\x60' => s.backquote
  | c => s.push c true

def bareChar (s : Lexer) (c : Char) : Lexer :=
  match c with
  | '\'' => { s with frame := s.frame.openWord, mode := .single }
  | '"' => { s with frame := { s.frame.openWord with double := true } }
  | '\\' => { s with mode := .escape }
  | '$' => { s.push '$' false with mode := .dollar }
  | '\x60' => s.backquote
  | ' ' | '\t' => { s with frame := s.frame.endWord }
  | ';' | '&' | '|' | '\n' => s.endCommand
  | '(' => s.open .paren
  | ')' => s.rightParen
  | '<' | '>' => { s with frame := s.frame.redirect, mode := .redirect }
  | '#' => if s.frame.word.isNone then { s with mode := .comment } else s.push '#' false
  | c => s.push c false

def plainChar (s : Lexer) (c : Char) : Lexer :=
  if s.frame.double then s.quotedChar c else s.bareChar c

/-- After a backslash, which inside double quotes is literal before most characters. -/
def escapedChar (s : Lexer) (c : Char) : Lexer :=
  if c = '\n' then s
  else if s.frame.double && (['$', '\x60', '"', '\\'].contains c) = false then
    (s.push '\\' true).push c true
  else s.push c true

def step (s : Lexer) (c : Char) : Lexer :=
  let plain := { s with mode := .plain }
  match s.mode with
  | .plain => s.plainChar c
  | .single => if c = '\'' then plain else s.push c true
  | .escape => plain.escapedChar c
  | .dollar => if c = '(' then plain.open .paren else plain.plainChar c
  | .redirect => if ['<', '>', '&', '|'].contains c then plain else plain.plainChar c
  | .comment => if c = '\n' then plain.plainChar c else s

def read (text : List Char) : Lexer := text.foldl step {}

/-- The end of the command line ends whatever is open. -/
def finish (s : Lexer) : Lexer := (s.stack.foldl (fun s _ => s.close) s).endCommand

end Lexer

/-- The simple commands at the outermost level, in their order. -/
def outerCommands (text : List Char) : List Command := (Lexer.read text).finish.top

/-- All simple commands that the shell would start, those in subshells and substitutions
included. -/
def simpleCommands (text : List Char) : List Command :=
  outerCommands text ++ (Lexer.read text).finish.inner

/-- `NAME=...`, none of it quoted up to the equals sign. -/
def isAssignment (w : Word) : Bool :=
  let nameChar := fun (x : Char × Bool) => !x.2 && (x.1.isAlphanum || x.1 = '_')
  match w with
  | [] => false
  | x :: _ => nameChar x && !x.1.isDigit && (w.dropWhile nameChar).head? = some ('=',false)

/-- The word that names the program: the first one that is neither an assignment nor the
target of a redirection. -/
def program : Command → Option Word
  | [] => none
  | .redirect :: .word _ :: ts => program ts
  | .redirect :: ts => program ts
  | .word w :: ts => if isAssignment w then program ts else some w

end Rullama.Shell
