import Rullama.Text.Json

/-! # One tool call

The markers of the wire format, and what one call of a model is read as: JSON, the pythonic call
syntax, or its raw text.
-/
namespace Rullama.ToolCalls
open Text
open Text.Json (Value put)

/-! ## The wire format -/

def toolCallOpen : Units := units "<tool_call>"

def toolCallOpenPrefix : Units := units "<tool_call"

def toolCallClose : Units := units "</tool_call>"

def toolResponseClose : Units := units "</tool_response>"

def toolResponseBlock (name summary : Units) : Units :=
  units "<tool_response for=\"" ++ (name ++ (units "\">" ++ (summary ++ toolResponseClose)))

def channelOpen : Units := units "<|channel>thought"

def channelClose : Units := units "<channel|>"

/-- The parameters of the tools, in order. -/
def toolParams : List (Units × List Units) :=
  [(units "set_timer",[units "duration"]),
    (units "set_reminder",[units "text",units "time"]),
    (units "get_weather",[units "location"]),
    (units "get_weather_forecast",[units "location",units "days"]),
    (units "get_air_quality",[units "location"]),
    (units "get_astronomy",[units "location"]),
    (units "search_wikipedia",[units "query"]),
    (units "search_knowledge",[units "query"]),
    (units "get_news",[units "query"]),
    (units "calculate",[units "problem"])]

/-- A body that could not be parsed is kept in `arguments` as a string. -/
structure ToolCall where
  name : Units
  arguments : Value
  raw : Units
  pending : Bool
  result : Option Units := none

/-! ## Objects without a closer -/

/-- The text up to the brace that closes the first object, and what comes after it. -/
def balanced (depth : ℤ) (inStr esc : Bool) : Units → Option (Units × Units)
  | [] => none
  | c :: cs =>
    if inStr then
      let state :=
        if esc then (true,false)
        else if c = unit '\\' then (true,true)
        else (c ≠ unit '"',false)
      (balanced depth state.1 state.2 cs).map (fun p => (c :: p.1,p.2))
    else if c = unit '"' then (balanced depth true esc cs).map (fun p => (c :: p.1,p.2))
    else if c = unit '{' then
      (balanced (depth + 1) false esc cs).map (fun p => (c :: p.1,p.2))
    else if c = unit '}' then
      if depth - 1 = 0 then some ([c],cs)
      else (balanced (depth - 1) false esc cs).map (fun p => (c :: p.1,p.2))
    else (balanced depth false esc cs).map (fun p => (c :: p.1,p.2))

/-- The index that the source returns, as the text before it and the text after it. -/
def matchJsonEnd (s : Units) : Option (Units × Units) :=
  let body := s.dropWhile isSpace
  if body.head? = some (unit '{') then
    (balanced 0 false false body).map (fun p => (s.takeWhile isSpace ++ p.1,p.2))
  else none

/-! ## Pythonic calls -/

/-- The parts between the commas that stand outside of quotes and brackets. -/
def parts (depth : ℤ) (inStr esc : Bool) (q : UInt16) (part : Units) : Units → List Units
  | [] => [part]
  | c :: cs =>
    if inStr then
      let state :=
        if esc then (true,false)
        else if c = unit '\\' then (true,true)
        else (c ≠ q,false)
      parts depth state.1 state.2 q (part ++ [c]) cs
    else if c = unit '"' || c = unit '\'' then parts depth true esc c (part ++ [c]) cs
    else if c = unit '(' || c = unit '[' || c = unit '{' then
      parts (depth + 1) false esc q (part ++ [c]) cs
    else if c = unit ')' || c = unit ']' || c = unit '}' then
      parts (depth - 1) false esc q (part ++ [c]) cs
    else if c = unit ',' && depth = 0 then part :: parts depth false esc q [] cs
    else parts depth false esc q (part ++ [c]) cs

def splitArgs (s : Units) : List Units :=
  ((parts 0 false false 0 [] s).map trim).filter (fun x => !x.isEmpty)

def isOct (c : UInt16) : Bool := unit '0' ≤ c && c ≤ unit '7'

def isBin (c : UInt16) : Bool := c = unit '0' || c = unit '1'

def radixOk (letters : Units) (digit : UInt16 → Bool) (t : Units) : Bool :=
  match t with
  | z :: l :: ds => z = unit '0' && letters.contains l && !ds.isEmpty && ds.all digit
  | _ => false

def decimalOk (t : Units) : Bool :=
  let whole := t.takeWhile isDigit
  match t.dropWhile isDigit with
  | [] => !whole.isEmpty
  | c :: cs =>
    if c = unit '.' then
      (!whole.isEmpty || !(cs.takeWhile isDigit).isEmpty) && Json.exponentOk (cs.dropWhile isDigit)
    else !whole.isEmpty && Json.exponentOk (c :: cs)

/-- `Number(t)` of a trimmed text is not `NaN`. -/
def isNumeric (t : Units) : Bool :=
  radixOk (units "xX") isHex t || radixOk (units "oO") isOct t || radixOk (units "bB") isBin t ||
    let unsigned := match t with
      | [] => []
      | c :: cs => if c = unit '+' || c = unit '-' then cs else t
    unsigned = units "Infinity" || decimalOk unsigned

def parseScalar (v : Units) : Value :=
  let t := trim v
  let quotedBy (q : Char) : Bool := t.head? = some (unit q) && t.getLast? = some (unit q)
  if quotedBy '"' || quotedBy '\'' then .string t.tail.dropLast
  else if t = units "true" || t = units "True" then .bool true
  else if t = units "false" || t = units "False" then .bool false
  else if t = units "null" || t = units "None" then .null
  else if t ≠ [] && isNumeric t then .number t
  else .string t

def isIdentifier (s : Units) : Bool :=
  match s with
  | [] => false
  | c :: cs => isWord c && !isDigit c && cs.all isWord

/-- Assigning a value that is no object to `__proto__` does nothing. -/
def assign (fields : List (Units × Value)) (key : Units) (v : Value) : List (Units × Value) :=
  if key = units "__proto__" then fields else put fields key v

/-- `args[…] = …` for one part of the argument list. -/
def addArg (order : List Units) (args : List (Units × Value)) (part : Units × ℕ) :
    List (Units × Value) :=
  let left := part.1.takeWhile (· ≠ unit '=')
  if left ≠ part.1 ∧ left ≠ [] ∧ isIdentifier (trim left) = true then
    assign args (trim left) (parseScalar (part.1.drop (left.length + 1)))
  else
    assign args (order.getD part.2 (units "arg" ++ units (toString part.2))) (parseScalar part.1)

/-- `name(args)` up to white space around its parts. -/
def parsePythonicCall (raw : Units) : Option (Units × Value) :=
  let s := trimStart raw
  let name := s.takeWhile isWord
  let rest := trimEnd (trimStart (s.dropWhile isWord))
  if isIdentifier name = true ∧ rest.head? = some (unit '(') ∧
      rest.tail.getLast? = some (unit ')') then
    let order := (toolParams.lookup name).getD []
    let argstr := trim rest.tail.dropLast
    let args := if argstr = [] then [] else ((splitArgs argstr).zipIdx).foldl (addArg order) []
    some (name,.object args)
  else none

/-- `"name"`, a colon and a string, at the front of a text. -/
def nameAt (s : Units) : Option Units :=
  if units "\"name\"" <+: s then
    match trimStart (s.drop 6) with
    | [] => none
    | c :: cs =>
      if c = unit ':' then
        match trimStart cs with
        | [] => none
        | q :: v =>
          if q = unit '"' ∧ unit '"' ∈ v then some (v.takeWhile (· ≠ unit '"')) else none
      else none
  else none

/-- The name in a body that is not complete, or not JSON. -/
def sniffName (inner : Units) : Units := (inner.tails.findSome? nameAt).getD []

/-! ## Reading one call -/

def field (v : Value) (key : String) : Option Value :=
  match v with
  | .object fields => fields.lookup (units key)
  | _ => none

/-- A field that is a string, or the empty string. -/
def stringField (v : Value) (key : String) : Units :=
  match field v key with
  | some (.string s) => s
  | _ => []

/-- A field that is neither missing nor `null`. -/
def presentField (v : Value) (key : String) : Option Value :=
  match field v key with
  | some .null => none
  | r => r

/-- What spreads from a value into an object. -/
def ownFields (v : Value) : List (Units × Value) :=
  match v with
  | .object fields => fields
  | .array items => items.zipIdx.map (fun p => (units (toString p.2),p.1))
  | .string s => s.zipIdx.map (fun p => (units (toString p.2),.string [p.1]))
  | _ => []

def stripName (v : Value) : Value :=
  .object ((ownFields v).filter (fun f => f.1 ≠ units "name"))

def nameOf (obj : Value) : Units :=
  let name := stringField obj "name"
  if name ≠ [] then name else stringField ((field obj "function").getD .null) "name"

def argsOf (obj : Value) : Value :=
  let fn := (field obj "function").getD .null
  ((presentField obj "arguments").or ((presentField obj "parameters").or
    ((presentField obj "args").or (presentField fn "arguments")))).getD (stripName obj)

/-- What is not JSON, or `null`, whose fields cannot be read. -/
def notJson (raw : Units) (pending : Bool) : ToolCall :=
  match parsePythonicCall raw with
  | some (name,args) => ⟨name,args,raw,pending,none⟩
  | none => ⟨sniffName raw,.string raw,raw,pending,none⟩

def toCall (inner : Units) (pending : Bool) : ToolCall :=
  let raw := trim inner
  match Json.parse raw with
  | none | some .null => notJson raw pending
  | some obj =>
    let name := nameOf obj
    ⟨if name = [] then units "tool" else name,argsOf obj,raw,pending,none⟩

end Rullama.ToolCalls
