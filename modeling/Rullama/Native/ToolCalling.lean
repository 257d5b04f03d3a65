import Rullama.ToolCalls.ToolCall

/-! # Tool calls in the native app

The port of the parser of the web app, on the pythonic call syntax.
-/
namespace Rullama.Native.ToolCalling
open Text

/-- `calculate` is not among them. -/
def toolParams : List (Units × List Units) :=
  [(units "set_timer",[units "duration"]),
    (units "set_reminder",[units "text",units "time"]),
    (units "get_weather",[units "location"]),
    (units "get_weather_forecast",[units "location",units "days"]),
    (units "get_air_quality",[units "location"]),
    (units "get_astronomy",[units "location"]),
    (units "search_wikipedia",[units "query"]),
    (units "search_knowledge",[units "query"]),
    (units "get_news",[units "query"])]

/-- White space here has the next-line character, but not the byte order mark. -/
def isWhiteSpace (c : UInt16) : Bool := c = 0x85 || isSpace c && c ≠ 0xFEFF

def trim (s : Units) : Units := (s.dropWhile isWhiteSpace).rdropWhile isWhiteSpace

abbrev Args := List (Units × Units)

/-- `args[key] = value` -/
def set (args : Args) (key value : Units) : Args :=
  if args.any (fun f => f.1 == key) then
    args.map (fun f => if f.1 == key then (key,value) else f)
  else args ++ [(key,value)]

def unquote (s : Units) : Units :=
  let quotedBy (q : Char) : Bool := s.head? = some (unit q) && s.getLast? = some (unit q)
  if 2 ≤ s.length && (quotedBy '"' || quotedBy '\'') then s.tail.dropLast else s

/-- The parts between the commas outside of quotes and brackets. A backslash is a character like
any other. -/
def parts (depth : ℤ) (inStr : Bool) (q : UInt16) (part : Units) : Units → List Units
  | [] => if part = [] then [] else [part]
  | c :: cs =>
    if inStr then parts depth (c ≠ q) q (part ++ [c]) cs
    else if c = unit '"' || c = unit '\'' then parts depth true c (part ++ [c]) cs
    else if c = unit '{' || c = unit '[' || c = unit '(' then
      parts (depth + 1) false q (part ++ [c]) cs
    else if c = unit '}' || c = unit ']' || c = unit ')' then
      parts (depth - 1) false q (part ++ [c]) cs
    else if c = unit ',' && depth = 0 then part :: parts depth false q [] cs
    else parts depth false q (part ++ [c]) cs

def splitArgs (s : Units) : List Units := parts 0 false (unit '"') [] s

/-- One round over the parts, with the arguments and `posIdx`. -/
def addPart (positional : List Units) (st : Args × ℕ) (raw : Units) : Args × ℕ :=
  let part := trim raw
  let left := part.takeWhile (· ≠ unit '=')
  if part = [] then st
  else if left ≠ part ∧ left ≠ [] ∧ unit '"' ∉ left then
    (set st.1 (trim left) (unquote (trim (part.drop (left.length + 1)))),st.2)
  else
    match positional[st.2]? with
    | some key => (set st.1 key (unquote part),st.2 + 1)
    | none => st

/-- `PyRegex`: the name and what stands between the brackets. -/
def matchCall (inner : Units) : Option (Units × Units) :=
  let name := inner.takeWhile isWord
  let rest := ((inner.dropWhile isWord).dropWhile isWhiteSpace).rdropWhile isWhiteSpace
  if ToolCalls.isIdentifier name = true ∧ rest.head? = some (unit '(') ∧
      rest.tail.getLast? = some (unit ')') then
    some (name,rest.tail.dropLast)
  else none

/-- The branch for JSON is taken only where the text begins with a brace. -/
def parseInner (jsonForm : Units → Option (Units × Args)) (inner : Units) : Units × Args :=
  let json := if inner.head? = some (unit '{') then jsonForm inner else none
  match json with
  | some r => r
  | none =>
    match matchCall inner with
    | some (name,argstr) =>
      let positional := (toolParams.lookup name).getD []
      (name,((splitArgs argstr).foldl (addPart positional) ([],0)).1)
    | none => ([],[])

/-! ## Calls -/

/-- A quoted literal holds its text as it is written, escapes included. -/
inductive Literal where
  | quoted (q : UInt16) (body : Units)
  | bare (t : Units)

structure Arg where
  key : Option Units
  literal : Literal
  before : Units := []
  after : Units := []

def Literal.text : Literal → Units
  | .quoted q body => q :: (body ++ [q])
  | .bare t => t

namespace Arg

def keyText (a : Arg) : Units :=
  match a.key with
  | none => []
  | some key => key ++ [unit '=']

/-- The argument without the space around it. -/
def core (a : Arg) : Units := a.keyText ++ a.literal.text

def text (a : Arg) : Units := a.before ++ (a.core ++ a.after)

end Arg

def joinArgs : List Arg → Units
  | [] => []
  | [a] => a.text
  | a :: b :: args => a.text ++ (unit ',' :: joinArgs (b :: args))

def callText (name : Units) (args : List Arg) : Units :=
  name ++ (unit '(' :: (joinArgs args ++ [unit ')']))

/-! ### Well-formed calls -/

/-- The quote does not occur but behind a backslash, and no backslash is left over. -/
def Escaped (q : UInt16) (esc : Bool) : Units → Prop
  | [] => esc = false
  | c :: cs =>
    if esc then Escaped q false cs
    else if c = unit '\\' then Escaped q true cs
    else c ≠ q ∧ Escaped q false cs

instance decidableEscaped (q : UInt16) : (esc : Bool) → (s : Units) → Decidable (Escaped q esc s)
  | esc,[] => inferInstanceAs (Decidable (esc = false))
  | esc,c :: cs =>
    have := decidableEscaped q false cs
    have := decidableEscaped q true cs
    inferInstanceAs (Decidable (if esc then Escaped q false cs
      else if c = unit '\\' then Escaped q true cs else c ≠ q ∧ Escaped q false cs))

/-- What the splitters look at. -/
def marks : Units := units "\"'()[]{},"

def isBlank (c : UInt16) : Bool := isSpace c && isWhiteSpace c

def isPadding (c : UInt16) : Bool := isSpace c || isWhiteSpace c

/-- A literal that is not quoted is a number, a boolean or any other run of ordinary units. -/
def Literal.WellFormed : Literal → Prop
  | .quoted q body => (q = unit '"' ∨ q = unit '\'') ∧ Escaped q false body
  | .bare t => t ≠ [] ∧ (∀ c ∈ t, c ∉ marks ∧ c ≠ unit '=') ∧
      (∀ c, t.head? = some c → isPadding c = false) ∧ ∀ c, t.getLast? = some c → isPadding c = false

structure Arg.WellFormed (a : Arg) : Prop where
  key : ∀ key, a.key = some key → ToolCalls.isIdentifier key = true
  literal : a.literal.WellFormed
  before : ∀ c ∈ a.before, isBlank c = true
  after : ∀ c ∈ a.after, isBlank c = true

/-! ### Agreement -/

/-- A value as a string. What JavaScript prints for a number is a parameter. -/
def valueText (number : Units → Units) : Json.Value → Units
  | .string s => s
  | .bool b => units (if b then "true" else "false")
  | .number t => number t
  | _ => units "null"

/-- The same name and the same arguments, compared as strings. -/
def Agrees (number : Units → Units) (jsonForm : Units → Option (Units × Args)) (text : Units) :
    Prop :=
  ∃ name fields args, ToolCalls.parsePythonicCall text = some (name,.object fields) ∧
    parseInner jsonForm text = (name,args) ∧
    ∀ key, (fields.lookup key).map (valueText number) = args.lookup key

/-- The splitter: its depth, whether it is in a string, and the last quote. -/
abbrev Splitter := ℤ × Bool × UInt16

/-- Where the splitter stands after a text in which it finds no comma to split at. -/
def scan (st : Splitter) : Units → Option Splitter
  | [] => some st
  | c :: cs =>
    if st.2.1 then scan (st.1,c ≠ st.2.2,st.2.2) cs
    else if c = unit '"' || c = unit '\'' then scan (st.1,true,c) cs
    else if c = unit '{' || c = unit '[' || c = unit '(' then scan (st.1 + 1,false,st.2.2) cs
    else if c = unit '}' || c = unit ']' || c = unit ')' then scan (st.1 - 1,false,st.2.2) cs
    else if c = unit ',' && st.1 = 0 then none
    else scan (st.1,false,st.2.2) cs

/-- A literal is passed over as a whole, and one that is not the last leaves the splitter outside
of quotes and brackets. Only escapes stand against it. -/
def Literal.Steady (isLast : Bool) (l : Literal) : Prop :=
  match scan (0,false,unit '"') l.text with
  | none => False
  | some (depth,inStr,_) => isLast = true ∨ depth = 0 ∧ inStr = false

instance (isLast : Bool) (l : Literal) : Decidable (l.Steady isLast) :=
  match h : scan (0,false,unit '"') l.text with
  | none => .isFalse (by simp [Literal.Steady,h])
  | some (depth,inStr,_) =>
    decidable_of_iff (isLast = true ∨ depth = 0 ∧ inStr = false) (by simp [Literal.Steady,h])

/-- A literal that is not quoted is no name of Python's for a constant, and a number is written
the way JavaScript prints it. -/
def Literal.Verbatim (number : Units → Units) : Literal → Prop
  | .quoted _ _ => True
  | .bare t => t ≠ units "True" ∧ t ≠ units "False" ∧ t ≠ units "None" ∧
      (ToolCalls.isNumeric t = true → number t = t)

/-- No text in single quotes looks like a keyword. -/
def Literal.Plain (l : Literal) : Prop :=
  let left := l.text.takeWhile (· ≠ unit '=')
  left = l.text ∨ unit '"' ∈ left

/-- The arguments from number `i` on, `pos` of those before being positional: a positional one
has only such before it, and a parameter; none is for `__proto__`. -/
def Aligned (number : Units → Units) (order : List Units) : ℕ → ℕ → List Arg → Prop
  | _,_,[] => True
  | i,pos,a :: args =>
    a.literal.Verbatim number ∧ a.literal.Steady args.isEmpty ∧
      match a.key with
      | none => pos = i ∧ i < order.length ∧ a.literal.Plain ∧
          Aligned number order (i + 1) (pos + 1) args
      | some key => key ≠ units "__proto__" ∧ Aligned number order (i + 1) pos args

end Rullama.Native.ToolCalling
