import Rullama.Text.Utf8

/-! # The nano-style editor

The lines of a file with a cursor, whose column counts bytes. Paths, scrolling, the status message
and the lines as they were saved last are left out. An operation that panics gives none.
-/
namespace Rullama.Nano
open Rullama.Text

abbrev Line := List Char

structure NanoEditorState where
  lines : List Line
  cursorRow : ℕ
  cursorCol : ℕ
  modified : Bool
  searchQuery : Option Line
  /-- rows and columns of the matches of the last search -/
  searchMatches : List (ℕ × ℕ)
  currentMatch : ℕ
  readOnly : Bool
  clipboard : List Line
  deriving DecidableEq

inductive CursorDirection where
  | up
  | down
  | left
  | right
  deriving DecidableEq

inductive Op where
  | insertChar (c : Char)
  | deleteBackward
  | deleteForward
  | insertNewline
  | moveCursor (direction : CursorDirection)
  | moveToLineBoundary (start : Bool)
  | pageMove (up : Bool) (pageSize : ℕ)
  | cutLine
  | paste
  | search (query : Line)
  | nextMatch (forward : Bool)
  deriving DecidableEq

/-! ## Opening a file -/

def MAX_EDIT_SIZE : ℕ := 1024 * 1024

/-- The pieces of a text up to and with each line feed. -/
def splitInclusive : List Char → List Line
  | [] => []
  | c :: cs =>
    if c = '\n' then [c] :: splitInclusive cs
    else
      match splitInclusive cs with
      | [] => [[c]]
      | line :: rest => (c :: line) :: rest

/-- A piece without its line feed, and without a carriage return before that. -/
def stripLineEnd (line : Line) : Line :=
  if line.getLast? = some '\n' then
    let line := line.dropLast
    if line.getLast? = some '\r' then line.dropLast else line
  else line

/-- `str::lines` -/
def linesOf (content : List Char) : List Line := (splitInclusive content).map stripLineEnd

namespace NanoEditorState

/-- `open` with the content that the file has. -/
def opened (content : List Char) : NanoEditorState where
  lines := if (linesOf content).isEmpty then [[]] else linesOf content
  cursorRow := 0
  cursorCol := 0
  modified := false
  searchQuery := none
  searchMatches := []
  currentMatch := 0
  readOnly := decide (MAX_EDIT_SIZE < byteLength content) || content.contains (Char.ofNat 0)
  clipboard := []

variable (s : NanoEditorState)

/-! ## Editing -/

/-- A character is put in at a column, none if the column is inside a character. -/
def insertAt (line : Line) (col : ℕ) (c : Char) : Option Line :=
  (splitBytes line col).map (fun p => p.1 ++ c :: p.2)

/-- The character at a column is taken out, none if there is none. -/
def removeAt (line : Line) (col : ℕ) : Option Line :=
  match splitBytes line col with
  | some (before,_ :: rest) => some (before ++ rest)
  | _ => none

def insertChar (c : Char) : Option NanoEditorState :=
  if s.readOnly then some s
  else do
    let lines := s.lines ++ List.replicate (s.cursorRow + 1 - s.lines.length) []
    let line ← lines[s.cursorRow]?
    let col := min s.cursorCol (byteLength line)
    let line ← insertAt line col c
    some { s with lines := lines.set s.cursorRow line, cursorCol := col + 1, modified := true }

def deleteBackward : Option NanoEditorState :=
  if s.readOnly then some s
  else if 0 < s.cursorCol then do
    let line ← s.lines[s.cursorRow]?
    let col := min s.cursorCol (byteLength line)
    if 0 < col then do
      let line ← removeAt line (col - 1)
      some { s with lines := s.lines.set s.cursorRow line, cursorCol := col - 1, modified := true }
    else some s
  else if 0 < s.cursorRow then do
    let currentLine ← s.lines[s.cursorRow]?
    let lines := s.lines.eraseIdx s.cursorRow
    let line ← lines[s.cursorRow - 1]?
    some { s with
      lines := lines.set (s.cursorRow - 1) (line ++ currentLine)
      cursorRow := s.cursorRow - 1
      cursorCol := byteLength line
      modified := true }
  else some s

def deleteForward : Option NanoEditorState :=
  if s.readOnly then some s
  else do
    let line ← s.lines[s.cursorRow]?
    if s.cursorCol < byteLength line then do
      let line ← removeAt line s.cursorCol
      some { s with lines := s.lines.set s.cursorRow line, modified := true }
    else if s.cursorRow + 1 < s.lines.length then do
      let nextLine ← s.lines[s.cursorRow + 1]?
      let lines := s.lines.eraseIdx (s.cursorRow + 1)
      some { s with lines := lines.set s.cursorRow (line ++ nextLine), modified := true }
    else some s

def insertNewline : Option NanoEditorState :=
  if s.readOnly then some s
  else do
    let line ← s.lines[s.cursorRow]?
    let (before,remainder) ← splitBytes line (min s.cursorCol (byteLength line))
    some { s with
      lines := (s.lines.set s.cursorRow before).insertIdx (s.cursorRow + 1) remainder
      cursorRow := s.cursorRow + 1
      cursorCol := 0
      modified := true }

/-! ## Moving -/

/-- To another row, where the column is clamped to the length of the line. -/
def toRow (row : ℕ) : Option NanoEditorState := do
  let line ← s.lines[row]?
  some { s with cursorRow := row, cursorCol := min s.cursorCol (byteLength line) }

def moveCursor : CursorDirection → Option NanoEditorState
  | .up => if 0 < s.cursorRow then s.toRow (s.cursorRow - 1) else some s
  | .down => if s.cursorRow + 1 < s.lines.length then s.toRow (s.cursorRow + 1) else some s
  | .left =>
    if 0 < s.cursorCol then some { s with cursorCol := s.cursorCol - 1 }
    else if 0 < s.cursorRow then do
      let line ← s.lines[s.cursorRow - 1]?
      some { s with cursorRow := s.cursorRow - 1, cursorCol := byteLength line }
    else some s
  | .right => do
    let line ← s.lines[s.cursorRow]?
    if s.cursorCol < byteLength line then some { s with cursorCol := s.cursorCol + 1 }
    else if s.cursorRow + 1 < s.lines.length then
      some { s with cursorRow := s.cursorRow + 1, cursorCol := 0 }
    else some s

def moveToLineBoundary (start : Bool) : Option NanoEditorState :=
  if start then some { s with cursorCol := 0 }
  else do
    let line ← s.lines[s.cursorRow]?
    some { s with cursorCol := byteLength line }

/-- The row that a page leads to. The sum wraps around. -/
def pageRow (up : Bool) (pageSize : ℕ) : ℕ :=
  if up then s.cursorRow - pageSize
  else min ((s.cursorRow + pageSize) % 18446744073709551616) (s.lines.length - 1)

def pageMove (up : Bool) (pageSize : ℕ) : Option NanoEditorState := s.toRow (s.pageRow up pageSize)

/-! ## Cutting and pasting -/

def cutLine : Option NanoEditorState :=
  if s.readOnly then some s
  else if s.lines.isEmpty then some s
  else do
    let line ← s.lines[s.cursorRow]?
    let rest := s.lines.eraseIdx s.cursorRow
    let lines := if rest.isEmpty then [[]] else rest
    { s with lines, clipboard := s.clipboard ++ [line], modified := true }.toRow
      (if lines.length ≤ s.cursorRow then lines.length - 1 else s.cursorRow)

def paste : Option NanoEditorState :=
  if s.readOnly then some s
  else if s.clipboard.isEmpty then some s
  else if s.cursorRow ≤ s.lines.length then
    some { s with
      lines := s.lines.take s.cursorRow ++ s.clipboard ++ s.lines.drop s.cursorRow
      cursorRow := s.cursorRow + s.clipboard.length
      modified := true }
  else none

/-! ## Searching -/

/-- `str::find`: the column of the first occurrence. -/
def find (query : Line) : Line → Option ℕ
  | [] => if query.isEmpty then some 0 else none
  | c :: cs => if query.isPrefixOf (c :: cs) then some 0 else (find query cs).map (· + c.utf8Size)

/-- The columns of the matches in a line from `start` on. The next search starts one byte after a
match. No line has as many matches as there is fuel. -/
def matchesFrom (query line : Line) : ℕ → ℕ → Option (List ℕ)
  | 0, _ => some []
  | fuel + 1, start => do
    let (_,rest) ← splitBytes line start
    match find query rest with
    | none => some []
    | some col => (matchesFrom query line fuel (start + col + 1)).map ((start + col) :: ·)

def lineMatches (query line : Line) : Option (List ℕ) :=
  matchesFrom query line (byteLength line + 2) 0

/-- The matches in all lines from a row on, in lower case. -/
def textMatches (lower : Line → Line) (query : Line) : ℕ → List Line → Option (List (ℕ × ℕ))
  | _, [] => some []
  | row, line :: lines => do
    let cols ← lineMatches query (lower line)
    let rest ← textMatches lower query (row + 1) lines
    some (cols.map (row,·) ++ rest)

def toMatch (found : Option (ℕ × ℕ)) : NanoEditorState :=
  match found with
  | some (row,col) => { s with cursorRow := row, cursorCol := col }
  | none => s

def search (lower : Line → Line) (query : Line) : Option NanoEditorState := do
  let found ← textMatches lower (lower query) 0 s.lines
  some ({ s with searchQuery := some query, searchMatches := found, currentMatch := 0 }.toMatch
    found.head?)

/-- The number of the match that comes next. -/
def nextIndex (forward : Bool) : ℕ :=
  if forward then (s.currentMatch + 1) % s.searchMatches.length
  else if s.currentMatch = 0 then s.searchMatches.length - 1
  else s.currentMatch - 1

def nextMatch (forward : Bool) : Option NanoEditorState :=
  if s.searchMatches.isEmpty then some s
  else do
    let found ← s.searchMatches[s.nextIndex forward]?
    some ({ s with currentMatch := s.nextIndex forward }.toMatch (some found))

def op (lower : Line → Line) : Op → Option NanoEditorState
  | .insertChar c => s.insertChar c
  | .deleteBackward => s.deleteBackward
  | .deleteForward => s.deleteForward
  | .insertNewline => s.insertNewline
  | .moveCursor direction => s.moveCursor direction
  | .moveToLineBoundary start => s.moveToLineBoundary start
  | .pageMove up pageSize => s.pageMove up pageSize
  | .cutLine => s.cutLine
  | .paste => s.paste
  | .search query => s.search lower query
  | .nextMatch forward => s.nextMatch forward

end NanoEditorState
end Rullama.Nano
