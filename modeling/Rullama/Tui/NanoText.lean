import Rullama.Transition.Machine
import Rullama.Tui.NanoEditor

/-! # Text and cursor of the editor

A reference editor does the same edits on lists of characters, at the place that the cursor points
to. The editor agrees with it as long as its cursor stays between two characters, which it leaves
where it goes by bytes.
-/
namespace Rullama.Nano
open Rullama.Text Rullama.Transition

/-- A place between two characters: the lines above, the parts of its line, the lines below. -/
structure Place where
  above : List Line
  before : Line
  after : Line
  below : List Line

namespace Place

def text (p : Place) : List Line := p.above ++ (p.before ++ p.after) :: p.below

/-- The text after an edit at the place. -/
def edit (p : Place) (clipboard : List Line) : Op → List Line
  | .insertChar c => p.above ++ (p.before ++ c :: p.after) :: p.below
  | .deleteBackward =>
    if p.before.isEmpty then
      match p.above.getLast? with
      | some line => p.above.dropLast ++ (line ++ p.after) :: p.below
      | none => p.text
    else p.above ++ (p.before.dropLast ++ p.after) :: p.below
  | .deleteForward =>
    match p.after,p.below with
    | _ :: after,below => p.above ++ (p.before ++ after) :: below
    | [],line :: below => p.above ++ (p.before ++ line) :: below
    | [],[] => p.text
  | .insertNewline => p.above ++ p.before :: p.after :: p.below
  | .cutLine => if (p.above ++ p.below).isEmpty then [[]] else p.above ++ p.below
  | .paste => p.above ++ clipboard ++ (p.before ++ p.after) :: p.below
  | _ => p.text

theorem edit_cutLine (p : Place) (clipboard : List Line) : p.edit clipboard .cutLine =
    if (p.above ++ p.below).isEmpty then [[]] else p.above ++ p.below := rfl

theorem edit_paste (p : Place) (clipboard : List Line) : p.edit clipboard .paste =
    p.above ++ clipboard ++ (p.before ++ p.after) :: p.below := rfl

theorem edit_deleteBackward (p : Place) (clipboard : List Line) :
    p.edit clipboard .deleteBackward =
      if p.before.isEmpty then
        match p.above.getLast? with
        | some line => p.above.dropLast ++ (line ++ p.after) :: p.below
        | none => p.text
      else p.above ++ (p.before.dropLast ++ p.after) :: p.below := rfl

end Place

/-- The reference editor. -/
structure Reference where
  lines : List Line
  clipboard : List Line
  readOnly : Bool

/-- Row and number of characters in front of the cursor, made a place of the text. -/
def Reference.place (r : Reference) (row k : ℕ) : Option Place :=
  r.lines[row]?.map (fun line => ⟨r.lines.take row,line.take k,line.drop k,r.lines.drop (row + 1)⟩)

def Reference.edit (r : Reference) (cursor : Option (ℕ × ℕ)) (o : Op) : Reference :=
  match cursor.bind (fun c => r.place c.1 c.2) with
  | none => r
  | some p =>
    if r.readOnly then r
    else { r with
      lines := p.edit r.clipboard o
      clipboard := if o = .cutLine then r.clipboard ++ [p.before ++ p.after] else r.clipboard }

namespace NanoEditorState

/-- The cursor by characters, if it is between two of them. -/
def cursor (s : NanoEditorState) : Option (ℕ × ℕ) :=
  (s.lines[s.cursorRow]?.bind (splitBytes · s.cursorCol)).map (fun p => (s.cursorRow,p.1.length))

def reference (s : NanoEditorState) : Reference := ⟨s.lines,s.clipboard,s.readOnly⟩

end NanoEditorState

/-- The editor, none once it has panicked, and the reference editor at the same cursor. -/
abbrev Editors := Option NanoEditorState × Reference

def editors (lower : Line → Line) : Machine Editors Op where
  enabled p _ := p.1.isSome = true
  next p o := (p.1.bind (·.op lower o),p.2.edit (p.1.bind (·.cursor)) o)

instance (lower : Line → Line) (p : Editors) (o : Op) : Decidable ((editors lower).enabled p o) :=
  inferInstanceAs (Decidable (p.1.isSome = true))

/-- The position is in the text, between two characters. -/
def Rests (lines : List Line) (row col : ℕ) : Prop := ∃ line ∈ lines[row]?, Boundary line col

instance (lines : List Line) (row col : ℕ) : Decidable (Rests lines row col) :=
  inferInstanceAs (Decidable (∃ line ∈ lines[row]?, Boundary line col))

/-- No panic so far, the cursor is in the text, and the text is that of the reference editor. -/
def Good (p : Editors) : Prop :=
  ∃ s ∈ p.1, Rests s.lines s.cursorRow s.cursorCol ∧ p.2 = s.reference

/-- The column clamped to the length of another line is between two of its characters. -/
def Clamps (lines : List Line) (row col : ℕ) : Prop :=
  ∃ line ∈ lines[row]?, Boundary line (min col (byteLength line))

instance (lines : List Line) (row col : ℕ) : Decidable (Clamps lines row col) :=
  inferInstanceAs (Decidable (∃ line ∈ lines[row]?, Boundary line (min col (byteLength line))))

/-- The first line with a match, in lower case, and the column of the match there. -/
def firstMatch (lower : Line → Line) (query : Line) : ℕ → List Line → Option (ℕ × ℕ)
  | _, [] => none
  | row, line :: lines =>
    match NanoEditorState.find query (lower line) with
    | some col => some (row,col)
    | none => firstMatch lower query (row + 1) lines

/-- The query in lower case is not empty, begins with a character of one byte unless it is found
nowhere, and its first match in the lines in lower case is at a boundary of the line itself. -/
structure Searchable (lower : Line → Line) (lines : List Line) (query : Line) : Prop where
  nonempty : lower query ≠ []
  first : firstMatch lower (lower query) 0 lines = none ∨ ∀ c ∈ (lower query).head?, c.utf8Size = 1
  found : ∀ m ∈ firstMatch lower (lower query) 0 lines, Rests lines m.1 m.2

instance decidableHeadByte (o : Option Char) : Decidable (∀ c ∈ o, c.utf8Size = 1) :=
  Option.decidableForallMem o

instance (lower : Line → Line) (lines : List Line) (query : Line) :
    Decidable (Searchable lower lines query) :=
  decidable_of_iff (lower query ≠ [] ∧
      (firstMatch lower (lower query) 0 lines = none ∨
        ∀ c ∈ (lower query).head?, c.utf8Size = 1) ∧
      ∀ m ∈ firstMatch lower (lower query) 0 lines, Rests lines m.1 m.2)
    ⟨fun h => ⟨h.1,h.2.1,h.2.2⟩,fun h => ⟨h.1,h.2,h.3⟩⟩

namespace NanoEditorState

/-- The lines without the current one, and the row of the cursor among them. -/
def cutLines (s : NanoEditorState) : List Line :=
  if (s.lines.eraseIdx s.cursorRow).isEmpty then [[]] else s.lines.eraseIdx s.cursorRow

/-- The operation moves the cursor to a place between two characters, or over one of one byte. -/
def Lands (lower : Line → Line) (s : NanoEditorState) : Op → Prop
  | .insertChar c => s.readOnly = true ∨ c.utf8Size = 1
  | .deleteBackward => s.readOnly = true ∨ s.cursorCol = 0 ∨
      Rests s.lines s.cursorRow (s.cursorCol - 1)
  | .moveCursor .up => s.cursorRow = 0 ∨ Clamps s.lines (s.cursorRow - 1) s.cursorCol
  | .moveCursor .down => s.lines.length ≤ s.cursorRow + 1 ∨
      Clamps s.lines (s.cursorRow + 1) s.cursorCol
  | .moveCursor .left => s.cursorCol = 0 ∨ Rests s.lines s.cursorRow (s.cursorCol - 1)
  | .moveCursor .right => s.lines[s.cursorRow]?.map byteLength = some s.cursorCol ∨
      Rests s.lines s.cursorRow (s.cursorCol + 1)
  | .pageMove up pageSize => Clamps s.lines (s.pageRow up pageSize) s.cursorCol
  | .cutLine => s.readOnly = true ∨
      Clamps s.cutLines (min s.cursorRow (s.cutLines.length - 1)) s.cursorCol
  | .search query => Searchable lower s.lines query
  | .nextMatch forward => ∀ m ∈ s.searchMatches[s.nextIndex forward]?, Rests s.lines m.1 m.2
  | _ => True

end NanoEditorState

/-! ## Places -/

variable {s : NanoEditorState} {p : Place} {lines above below : List Line} {line before after : Line}
  {row col : ℕ}

theorem getElem?_place (above : List Line) (line : Line) (below : List Line) :
    (above ++ line :: below)[above.length]? = some line := by
  simp

theorem getElem?_next (above : List Line) (line : Line) (below : List Line) :
    (above ++ line :: below)[above.length + 1]? = below.head? := by
  rw [List.getElem?_append_right (Nat.le_add_right _ 1),Nat.add_sub_cancel_left,
    List.getElem?_cons_succ,List.head?_eq_getElem?]

theorem eraseIdx_next (above : List Line) (line line' : Line) (below : List Line) :
    (above ++ line :: line' :: below).eraseIdx (above.length + 1) = above ++ line :: below := by
  rw [List.eraseIdx_append_of_length_le (Nat.le_add_right _ 1),Nat.add_sub_cancel_left]
  rfl

theorem set_place (above : List Line) (line line' : Line) (below : List Line) :
    (above ++ line :: below).set above.length line' = above ++ line' :: below := by
  simp

theorem eraseIdx_place (above : List Line) (line : Line) (below : List Line) :
    (above ++ line :: below).eraseIdx above.length = above ++ below := by
  rw [List.eraseIdx_append_of_length_le (Nat.le_refl _),Nat.sub_self,List.eraseIdx_zero,List.tail_cons]

theorem insertIdx_place (above : List Line) (line line' : Line) (below : List Line) :
    (above ++ line :: below).insertIdx (above.length + 1) line' = above ++ line :: line' :: below := by
  induction above with
  | nil => rfl
  | cons l above ih =>
    rw [List.cons_append,List.length_cons,List.insertIdx_succ_cons,ih]
    rfl

/-- The cursor of the editor is at the place. -/
structure NanoEditorState.At (s : NanoEditorState) (p : Place) : Prop where
  lines : s.lines = p.text
  cursorRow : s.cursorRow = p.above.length
  cursorCol : s.cursorCol = byteLength p.before

theorem rests_iff_at : Rests s.lines s.cursorRow s.cursorCol ↔ ∃ p, s.At p := by
  constructor
  · rintro ⟨line,hline,before,after,rfl,hcol⟩
    obtain ⟨hlt,hget⟩ := List.getElem?_eq_some_iff.mp hline
    refine ⟨⟨s.lines.take s.cursorRow,before,after,s.lines.drop (s.cursorRow + 1)⟩,?_,?_,hcol.symm⟩
    · rw [Place.text,← hget,← List.drop_eq_getElem_cons hlt,List.take_append_drop]
    · rw [List.length_take,Nat.min_eq_left (Nat.le_of_lt hlt)]
  · rintro ⟨p,h⟩
    rw [h.lines,h.cursorRow,h.cursorCol]
    exact ⟨_,getElem?_place _ _ _,boundary_append _ _⟩

theorem cursor_of_at (h : s.At p) : s.cursor = some (p.above.length,p.before.length) := by
  rw [NanoEditorState.cursor,h.lines,h.cursorRow,h.cursorCol,Place.text,getElem?_place,
    Option.bind_some,splitBytes_append,Option.map_some]

theorem place_of_at (h : s.At p) : s.reference.place p.above.length p.before.length = some p := by
  rw [Reference.place,NanoEditorState.reference,h.lines,Place.text,getElem?_place,Option.map_some]
  simp

/-- What the reference editor does, where the cursor of the editor is at a place. -/
theorem edit_of_at (h : s.At p) (hw : s.readOnly = false) (o : Op) :
    s.reference.edit s.cursor o = ⟨p.edit s.clipboard o,
      if o = .cutLine then s.clipboard ++ [p.before ++ p.after] else s.clipboard,false⟩ := by
  rw [Reference.edit,cursor_of_at h,Option.bind_some,place_of_at h]
  simp [NanoEditorState.reference,hw]

theorem edit_readOnly (hw : s.readOnly = true) (cursor : Option (ℕ × ℕ)) (o : Op) :
    s.reference.edit cursor o = s.reference := by
  rw [Reference.edit]
  split
  · rfl
  · simp [NanoEditorState.reference,hw]

/-- Where nothing is edited. -/
theorem edit_of_text (h : s.At p) {o : Op} (ho : o ≠ .cutLine) (hp : p.edit s.clipboard o = p.text) :
    s.reference.edit s.cursor o = s.reference := by
  cases hw : s.readOnly with
  | true => exact edit_readOnly hw _ _
  | false => rw [edit_of_at h hw,hp,if_neg ho,← h.lines,← hw,NanoEditorState.reference]

theorem good_some {r : Reference} : Good (some s,r) ↔
    Rests s.lines s.cursorRow s.cursorCol ∧ r = s.reference := by
  simp [Good]

theorem not_good_none (r : Reference) : ¬ Good (none,r) := by
  simp [Good]

/-- A step that leaves the editor as it is. -/
theorem good_same (h : s.At p) : Good (some s,s.reference) :=
  good_some.mpr ⟨rests_iff_at.mpr ⟨p,h⟩,rfl⟩

theorem good_toRow {t : NanoEditorState} {r : Reference} (hr : r = t.reference) :
    Good (t.toRow row,r) ↔ Clamps t.lines row t.cursorCol := by
  cases hline : t.lines[row]? with
  | none =>
    have hnone : t.toRow row = none := by simp [NanoEditorState.toRow,hline]
    rw [hnone]
    refine ⟨fun h => absurd h (not_good_none r),?_⟩
    rintro ⟨line,hmem,_⟩
    cases hline.symm.trans hmem
  | some line =>
    have hsome : t.toRow row =
        some { t with cursorRow := row, cursorCol := min t.cursorCol (byteLength line) } := by
      simp [NanoEditorState.toRow,hline]
    rw [hsome,good_some]
    constructor
    · rintro ⟨⟨line',hmem,hb⟩,_⟩
      obtain rfl := Option.some.inj (hline.symm.trans hmem)
      exact ⟨line,hline,hb⟩
    · rintro ⟨line',hmem,hb⟩
      obtain rfl := Option.some.inj (hline.symm.trans hmem)
      exact ⟨⟨line,hline,hb⟩,hr⟩

theorem rests_place : Rests (above ++ line :: below) above.length col ↔ Boundary line col := by
  simp only [Rests,getElem?_place,Option.mem_some_iff,exists_eq_left']

/-! ## Edits -/

theorem col_min (h : s.At p) : min s.cursorCol (byteLength (p.before ++ p.after)) = byteLength p.before := by
  rw [h.cursorCol,byteLength_append]
  exact Nat.min_eq_left (Nat.le_add_right _ _)

theorem getElem?_at (h : s.At p) : s.lines[s.cursorRow]? = some (p.before ++ p.after) := by
  rw [h.lines,h.cursorRow]
  exact getElem?_place _ _ _

def NanoEditorState.edited (s : NanoEditorState) (lines : List Line) (row col : ℕ) :
    NanoEditorState :=
  { s with lines := lines, cursorRow := row, cursorCol := col, modified := true }

/-- After an edit the text is that of the reference editor, and the cursor decides. -/
theorem good_edited (h : s.At p) (hw : s.readOnly = false) {o : Op} (ho : o ≠ .cutLine)
    (hlines : lines = p.edit s.clipboard o) :
    Good (some (s.edited lines row col),s.reference.edit s.cursor o) ↔ Rests lines row col := by
  rw [good_some,edit_of_at h hw,if_neg ho]
  refine and_iff_left ?_
  rw [NanoEditorState.reference,NanoEditorState.edited,hlines,hw]

theorem good_insertChar (h : s.At p) (c : Char) :
    Good (s.insertChar c,s.reference.edit s.cursor (.insertChar c)) ↔
      s.readOnly = true ∨ c.utf8Size = 1 := by
  cases hw : s.readOnly with
  | true =>
    rw [NanoEditorState.insertChar,hw,if_pos rfl,edit_readOnly hw]
    exact iff_of_true (good_same h) (.inl rfl)
  | false =>
    have hpad : s.lines ++ List.replicate (s.cursorRow + 1 - s.lines.length) [] = s.lines := by
      have hlt := (List.getElem?_eq_some_iff.mp (getElem?_at h)).1
      have hzero : s.cursorRow + 1 - s.lines.length = 0 := by omega
      rw [hzero,List.replicate_zero,List.append_nil]
    have hinsert : NanoEditorState.insertAt (p.before ++ p.after) (byteLength p.before) c =
        some (p.before ++ c :: p.after) := by
      rw [NanoEditorState.insertAt,splitBytes_append,Option.map_some]
    have hstep : s.insertChar c = some (s.edited (p.above ++ (p.before ++ c :: p.after) :: p.below)
        p.above.length (byteLength p.before + 1)) := by
      simp only [NanoEditorState.insertChar,hw,hpad,getElem?_at h,Option.bind_eq_bind,Option.bind_some,
        col_min h,hinsert,Bool.false_eq_true,if_false,NanoEditorState.edited]
      rw [h.lines,h.cursorRow,Place.text,set_place]
    have hne : Op.insertChar c ≠ .cutLine := fun ho => by cases ho
    have hedit : p.above ++ (p.before ++ c :: p.after) :: p.below =
        p.edit s.clipboard (.insertChar c) := rfl
    rw [hstep,good_edited h hw hne hedit,rests_place,boundary_succ_iff]
    simp only [Bool.false_eq_true,false_or]

theorem good_insertNewline (h : s.At p) :
    Good (s.insertNewline,s.reference.edit s.cursor .insertNewline) := by
  cases hw : s.readOnly with
  | true =>
    rw [NanoEditorState.insertNewline,hw,if_pos rfl,edit_readOnly hw]
    exact good_same h
  | false =>
    have hstep : s.insertNewline = some (s.edited (p.above ++ p.before :: p.after :: p.below)
        (p.above.length + 1) 0) := by
      simp only [NanoEditorState.insertNewline,hw,getElem?_at h,Option.bind_eq_bind,Option.bind_some,
        col_min h,splitBytes_append,Bool.false_eq_true,if_false,NanoEditorState.edited]
      rw [h.lines,h.cursorRow,Place.text,set_place,insertIdx_place]
    have hne : Op.insertNewline ≠ .cutLine := fun ho => by cases ho
    have hedit : p.above ++ p.before :: p.after :: p.below = p.edit s.clipboard .insertNewline := rfl
    rw [hstep,good_edited h hw hne hedit]
    refine ⟨p.after,?_,boundary_zero _⟩
    rw [Option.mem_def]
    exact getElem?_next _ _ _

theorem removeAt_append (a : Line) (c : Char) (b : Line) :
    NanoEditorState.removeAt (a ++ c :: b) (byteLength a) = some (a ++ b) := by
  rw [NanoEditorState.removeAt,splitBytes_append]

theorem removeAt_of_not_boundary (hb : ¬ Boundary line col) :
    NanoEditorState.removeAt line col = none := by
  rw [NanoEditorState.removeAt]
  cases hs : splitBytes line col with
  | none => rfl
  | some q => exact absurd (boundary_iff.mpr ⟨q,hs⟩) hb

theorem good_deleteForward (h : s.At p) :
    Good (s.deleteForward,s.reference.edit s.cursor .deleteForward) := by
  cases hw : s.readOnly with
  | true =>
    rw [NanoEditorState.deleteForward,hw,if_pos rfl,edit_readOnly hw]
    exact good_same h
  | false =>
    have hne : Op.deleteForward ≠ .cutLine := fun ho => by cases ho
    obtain ⟨above,before,after,below⟩ := p
    have hlines : s.lines = above ++ (before ++ after) :: below := h.lines
    have hrow : s.cursorRow = above.length := h.cursorRow
    have hcol : s.cursorCol = byteLength before := h.cursorCol
    have hline : s.lines[s.cursorRow]? = some (before ++ after) := getElem?_at h
    cases after with
    | cons c after =>
      have hlt : s.cursorCol < byteLength (before ++ c :: after) := by
        have hpos := c.utf8Size_pos
        rw [hcol,byteLength_append,byteLength_cons]
        omega
      have hremove : NanoEditorState.removeAt (before ++ c :: after) s.cursorCol =
          some (before ++ after) := by
        rw [hcol,removeAt_append]
      have hstep : s.deleteForward =
          some (s.edited (above ++ (before ++ after) :: below) above.length (byteLength before)) := by
        simp only [NanoEditorState.deleteForward,hw,hline,Option.bind_eq_bind,Option.bind_some,hlt,
          hremove,if_true,Bool.false_eq_true,if_false,NanoEditorState.edited]
        rw [hlines,hrow,hcol,set_place]
      have hedit : above ++ (before ++ after) :: below =
          Place.edit ⟨above,before,c :: after,below⟩ s.clipboard .deleteForward := rfl
      rw [hstep,good_edited h hw hne hedit,rests_place]
      exact boundary_append _ _
    | nil =>
      rw [List.append_nil] at hlines hline
      have hend : ¬ s.cursorCol < byteLength before := by
        rw [hcol]
        exact Nat.lt_irrefl _
      cases below with
      | nil =>
        have hlast : ¬ s.cursorRow + 1 < s.lines.length := by
          rw [hrow,hlines,List.length_append,List.length_singleton]
          exact Nat.lt_irrefl _
        have hstep : s.deleteForward = some s := by
          simp only [NanoEditorState.deleteForward,hw,hline,Option.bind_eq_bind,Option.bind_some,
            hend,hlast,Bool.false_eq_true,if_false]
        rw [hstep,edit_of_text h hne rfl]
        exact good_same h
      | cons line below =>
        have hlast : s.cursorRow + 1 < s.lines.length := by
          rw [hrow,hlines,List.length_append,List.length_cons,List.length_cons]
          omega
        have hnext : s.lines[s.cursorRow + 1]? = some line := by
          rw [hlines,hrow,getElem?_next]
          rfl
        have herase : s.lines.eraseIdx (s.cursorRow + 1) = above ++ before :: below := by
          rw [hlines,hrow,eraseIdx_next]
        have hstep : s.deleteForward =
            some (s.edited (above ++ (before ++ line) :: below) above.length (byteLength before)) := by
          simp only [NanoEditorState.deleteForward,hw,hline,Option.bind_eq_bind,Option.bind_some,
            hend,hlast,hnext,herase,if_true,Bool.false_eq_true,if_false,NanoEditorState.edited]
          rw [hrow,hcol,set_place]
        have hedit : above ++ (before ++ line) :: below =
            Place.edit ⟨above,before,[],line :: below⟩ s.clipboard .deleteForward := rfl
        rw [hstep,good_edited h hw hne hedit,rests_place]
        exact boundary_append _ _

theorem good_deleteBackward (h : s.At p) :
    Good (s.deleteBackward,s.reference.edit s.cursor .deleteBackward) ↔
      s.readOnly = true ∨ s.cursorCol = 0 ∨ Rests s.lines s.cursorRow (s.cursorCol - 1) := by
  cases hw : s.readOnly with
  | true =>
    rw [NanoEditorState.deleteBackward,hw,if_pos rfl,edit_readOnly hw]
    exact iff_of_true (good_same h) (.inl rfl)
  | false =>
    have hne : Op.deleteBackward ≠ .cutLine := fun ho => by cases ho
    have hmin := col_min h
    obtain ⟨above,before,after,below⟩ := p
    have hlines : s.lines = above ++ (before ++ after) :: below := h.lines
    have hrow : s.cursorRow = above.length := h.cursorRow
    have hcol : s.cursorCol = byteLength before := h.cursorCol
    have hline : s.lines[s.cursorRow]? = some (before ++ after) := getElem?_at h
    rcases List.eq_nil_or_concat before with rfl | ⟨before,c,rfl⟩
    · have hzero : s.cursorCol = 0 := hcol
      refine iff_of_true ?_ (.inr (.inl hzero))
      rcases List.eq_nil_or_concat above with rfl | ⟨above,line,rfl⟩
      · have hstep : s.deleteBackward = some s := by
          simp [NanoEditorState.deleteBackward,hw,hzero,hrow]
        rw [hstep,edit_of_text h hne rfl]
        exact good_same h
      · rw [List.concat_eq_append] at hlines hrow h
        rw [List.nil_append] at hlines hline
        rw [List.length_append,List.length_singleton] at hrow
        have hpos : 0 < s.cursorRow := by omega
        have herase : s.lines.eraseIdx s.cursorRow = above ++ line :: below := by
          rw [hlines,hrow,List.append_assoc]
          exact eraseIdx_next above line after below
        have hup : (above ++ line :: below)[s.cursorRow - 1]? = some line := by
          rw [hrow,Nat.add_sub_cancel,getElem?_place]
        have hstep : s.deleteBackward =
            some (s.edited (above ++ (line ++ after) :: below) above.length (byteLength line)) := by
          simp only [NanoEditorState.deleteBackward,hw,hzero,hline,hpos,herase,hup,
            Option.bind_eq_bind,Option.bind_some,if_true,Bool.false_eq_true,if_false,
            Nat.lt_irrefl,NanoEditorState.edited]
          rw [hrow,Nat.add_sub_cancel,set_place]
        have hedit : above ++ (line ++ after) :: below =
            Place.edit ⟨above ++ [line],[],after,below⟩ s.clipboard .deleteBackward := by
          simp [Place.edit_deleteBackward]
        rw [hstep,good_edited h hw hne hedit,rests_place]
        exact boundary_append _ _
    · rw [List.concat_eq_append] at hlines hcol hline h hmin
      rw [byteLength_append,byteLength_cons,byteLength_nil,Nat.add_zero] at hcol
      have hsize := c.utf8Size_pos
      have hpos : 0 < s.cursorCol := by omega
      have hne0 : s.cursorCol ≠ 0 := by omega
      have hsplit : before ++ [c] ++ after = before ++ c :: after := by simp
      have hmin' : min s.cursorCol (byteLength (before ++ c :: after)) = s.cursorCol := by
        rw [← hsplit,hmin,h.cursorCol]
      rw [hsplit] at hline
      have hrests : Rests s.lines s.cursorRow (s.cursorCol - 1) ↔ c.utf8Size = 1 := by
        rw [hlines,hsplit,hrow,rests_place,hcol,boundary_pred_iff]
      rw [hrests]
      by_cases hone : c.utf8Size = 1
      · refine iff_of_true ?_ (.inr (.inr hone))
        have hback : s.cursorCol - 1 = byteLength before := by omega
        have hstep : s.deleteBackward =
            some (s.edited (above ++ (before ++ after) :: below) above.length (byteLength before)) := by
          simp only [NanoEditorState.deleteBackward,hw,hline,hpos,hmin',hback,removeAt_append,
            Option.bind_eq_bind,Option.bind_some,if_true,Bool.false_eq_true,if_false,
            NanoEditorState.edited]
          rw [hlines,hrow,set_place]
        have hedit : above ++ (before ++ after) :: below =
            Place.edit ⟨above,before ++ [c],after,below⟩ s.clipboard .deleteBackward := by
          simp [Place.edit_deleteBackward]
        rw [hstep,good_edited h hw hne hedit,rests_place]
        exact boundary_append _ _
      · have hb : ¬ Boundary (before ++ c :: after) (s.cursorCol - 1) := by
          rw [hcol,boundary_pred_iff]
          exact hone
        have hstep : s.deleteBackward = none := by
          simp only [NanoEditorState.deleteBackward,hw,hline,hpos,hmin',removeAt_of_not_boundary hb,
            Option.bind_eq_bind,Option.bind_some,Option.bind_none,if_true,Bool.false_eq_true,if_false]
        rw [hstep]
        refine iff_of_false (not_good_none _) ?_
        rintro (hf | hz | h1)
        · cases hf
        · exact hne0 hz
        · exact hone h1

theorem good_paste (h : s.At p) : Good (s.paste,s.reference.edit s.cursor .paste) := by
  cases hw : s.readOnly with
  | true =>
    rw [NanoEditorState.paste,hw,if_pos rfl,edit_readOnly hw]
    exact good_same h
  | false =>
    have hne : Op.paste ≠ .cutLine := fun ho => by cases ho
    cases hclip : s.clipboard with
    | nil =>
      have hstep : s.paste = some s := by simp [NanoEditorState.paste,hw,hclip]
      have htext : p.edit s.clipboard .paste = p.text := by
        rw [hclip,Place.edit_paste,List.append_nil,Place.text]
      rw [hstep,edit_of_text h hne htext]
      exact good_same h
    | cons l clipboard =>
      have hle : s.cursorRow ≤ s.lines.length := by
        rw [h.cursorRow,h.lines,Place.text,List.length_append]
        exact Nat.le_add_right _ _
      have htake : s.lines.take s.cursorRow = p.above := by
        rw [h.lines,h.cursorRow,Place.text,List.take_left]
      have hdrop : s.lines.drop s.cursorRow = (p.before ++ p.after) :: p.below := by
        rw [h.lines,h.cursorRow,Place.text,List.drop_left]
      have hstep : s.paste = some (s.edited (p.above ++ s.clipboard ++ (p.before ++ p.after) :: p.below)
          (p.above ++ s.clipboard).length (byteLength p.before)) := by
        have hempty : s.clipboard.isEmpty = false := by rw [hclip]; rfl
        simp only [NanoEditorState.paste,hw,hempty,hle,htake,hdrop,if_true,Bool.false_eq_true,
          if_false,NanoEditorState.edited]
        rw [h.cursorRow,h.cursorCol,List.length_append]
      have hedit : p.above ++ s.clipboard ++ (p.before ++ p.after) :: p.below =
          p.edit s.clipboard .paste := rfl
      rw [hstep,good_edited h hw hne hedit,rests_place]
      exact boundary_append _ _

theorem good_cutLine (h : s.At p) : Good (s.cutLine,s.reference.edit s.cursor .cutLine) ↔
    s.readOnly = true ∨ Clamps s.cutLines (min s.cursorRow (s.cutLines.length - 1)) s.cursorCol := by
  cases hw : s.readOnly with
  | true =>
    rw [NanoEditorState.cutLine,hw,if_pos rfl,edit_readOnly hw]
    exact iff_of_true (good_same h) (.inl rfl)
  | false =>
    have herase : s.lines.eraseIdx s.cursorRow = p.above ++ p.below := by
      rw [h.lines,h.cursorRow,Place.text,eraseIdx_place]
    have hcut : s.cutLines = p.edit s.clipboard .cutLine := by
      rw [NanoEditorState.cutLines,herase,Place.edit_cutLine]
    have hlen : 0 < s.cutLines.length := by
      rw [NanoEditorState.cutLines]
      split
      · exact Nat.one_pos
      · rename_i hempty
        exact List.length_pos_iff.mpr (by simpa using hempty)
    have hrow : (if s.cutLines.length ≤ s.cursorRow then s.cutLines.length - 1 else s.cursorRow) =
        min s.cursorRow (s.cutLines.length - 1) := by
      split <;> omega
    have hlines : s.lines.isEmpty = false := by
      rw [h.lines,Place.text]
      simp
    have hstep : s.cutLine = NanoEditorState.toRow { s with
        lines := s.cutLines
        clipboard := s.clipboard ++ [p.before ++ p.after]
        modified := true } (min s.cursorRow (s.cutLines.length - 1)) := by
      rw [← hrow]
      simp only [NanoEditorState.cutLine,hw,hlines,getElem?_at h,Option.bind_eq_bind,
        Option.bind_some,Bool.false_eq_true,if_false]
      rfl
    have hedit : s.reference.edit s.cursor .cutLine = NanoEditorState.reference { s with
        lines := s.cutLines
        clipboard := s.clipboard ++ [p.before ++ p.after]
        modified := true } := by
      rw [edit_of_at h hw,if_pos rfl,NanoEditorState.reference,hcut,hw]
    rw [hstep,good_toRow hedit]
    simp only [Bool.false_eq_true,false_or]

/-! ## Moves -/

/-- The cursor moves in the text that is there. -/
def NanoEditorState.moved (s : NanoEditorState) (row col : ℕ) : NanoEditorState :=
  { s with cursorRow := row, cursorCol := col }

theorem good_moved : Good (some (s.moved row col),s.reference) ↔ Rests s.lines row col := by
  rw [good_some]
  exact and_iff_left rfl

theorem good_up (h : s.At p) : Good (s.moveCursor .up,s.reference) ↔
    s.cursorRow = 0 ∨ Clamps s.lines (s.cursorRow - 1) s.cursorCol := by
  by_cases hrow : 0 < s.cursorRow
  · have hstep : s.moveCursor .up = s.toRow (s.cursorRow - 1) := if_pos hrow
    have hne : s.cursorRow ≠ 0 := by omega
    rw [hstep,good_toRow rfl]
    simp only [hne,false_or]
  · have hstep : s.moveCursor .up = some s := if_neg hrow
    rw [hstep]
    exact iff_of_true (good_same h) (.inl (by omega))

theorem good_down (h : s.At p) : Good (s.moveCursor .down,s.reference) ↔
    s.lines.length ≤ s.cursorRow + 1 ∨ Clamps s.lines (s.cursorRow + 1) s.cursorCol := by
  by_cases hrow : s.cursorRow + 1 < s.lines.length
  · have hstep : s.moveCursor .down = s.toRow (s.cursorRow + 1) := if_pos hrow
    have hnot : ¬ s.lines.length ≤ s.cursorRow + 1 := by omega
    rw [hstep,good_toRow rfl]
    simp only [hnot,false_or]
  · have hstep : s.moveCursor .down = some s := if_neg hrow
    rw [hstep]
    exact iff_of_true (good_same h) (.inl (by omega))

theorem good_left (h : s.At p) : Good (s.moveCursor .left,s.reference) ↔
    s.cursorCol = 0 ∨ Rests s.lines s.cursorRow (s.cursorCol - 1) := by
  by_cases hcol : 0 < s.cursorCol
  · have hstep : s.moveCursor .left = some (s.moved s.cursorRow (s.cursorCol - 1)) := if_pos hcol
    have hne : s.cursorCol ≠ 0 := by omega
    rw [hstep,good_moved]
    simp only [hne,false_or]
  · refine iff_of_true ?_ (.inl (by omega))
    by_cases hrow : 0 < s.cursorRow
    · have hlt : s.cursorRow - 1 < s.lines.length := by
        have hlt := (List.getElem?_eq_some_iff.mp (getElem?_at h)).1
        omega
      have hline : s.lines[s.cursorRow - 1]? = some s.lines[s.cursorRow - 1] :=
        List.getElem?_eq_getElem hlt
      have hstep : s.moveCursor .left =
          some (s.moved (s.cursorRow - 1) (byteLength s.lines[s.cursorRow - 1])) := by
        simp only [NanoEditorState.moveCursor,hcol,hrow,hline,if_true,if_false,Option.bind_eq_bind,
          Option.bind_some,NanoEditorState.moved]
      rw [hstep,good_moved]
      exact ⟨_,hline,boundary_byteLength _⟩
    · have hstep : s.moveCursor .left = some s := by
        simp only [NanoEditorState.moveCursor,hcol,hrow,if_false]
      rw [hstep]
      exact good_same h

theorem good_right (h : s.At p) : Good (s.moveCursor .right,s.reference) ↔
    s.lines[s.cursorRow]?.map byteLength = some s.cursorCol ∨
      Rests s.lines s.cursorRow (s.cursorCol + 1) := by
  have hline := getElem?_at h
  have hle : s.cursorCol ≤ byteLength (p.before ++ p.after) := by
    rw [h.cursorCol,byteLength_append]
    exact Nat.le_add_right _ _
  have hend : s.lines[s.cursorRow]?.map byteLength = some s.cursorCol ↔
      ¬ s.cursorCol < byteLength (p.before ++ p.after) := by
    rw [hline,Option.map_some,Option.some.injEq]
    omega
  rw [hend]
  by_cases hlt : s.cursorCol < byteLength (p.before ++ p.after)
  · have hstep : s.moveCursor .right = some (s.moved s.cursorRow (s.cursorCol + 1)) := by
      simp only [NanoEditorState.moveCursor,hline,Option.bind_eq_bind,Option.bind_some,hlt,if_true,
        NanoEditorState.moved]
    rw [hstep,good_moved]
    simp only [hlt,not_true_eq_false,false_or]
  · refine iff_of_true ?_ (.inl hlt)
    by_cases hrow : s.cursorRow + 1 < s.lines.length
    · have hstep : s.moveCursor .right = some (s.moved (s.cursorRow + 1) 0) := by
        simp only [NanoEditorState.moveCursor,hline,Option.bind_eq_bind,Option.bind_some,hlt,hrow,
          if_true,if_false,NanoEditorState.moved]
      rw [hstep,good_moved]
      exact ⟨_,List.getElem?_eq_getElem hrow,boundary_zero _⟩
    · have hstep : s.moveCursor .right = some s := by
        simp only [NanoEditorState.moveCursor,hline,Option.bind_eq_bind,Option.bind_some,hlt,hrow,
          if_false]
      rw [hstep]
      exact good_same h

theorem good_moveToLineBoundary (h : s.At p) (start : Bool) :
    Good (s.moveToLineBoundary start,s.reference) := by
  have hline := getElem?_at h
  cases start with
  | true =>
    have hstep : s.moveToLineBoundary true = some (s.moved s.cursorRow 0) := rfl
    rw [hstep,good_moved]
    exact ⟨_,hline,boundary_zero _⟩
  | false =>
    have hstep : s.moveToLineBoundary false =
        some (s.moved s.cursorRow (byteLength (p.before ++ p.after))) := by
      simp only [NanoEditorState.moveToLineBoundary,hline,Option.bind_eq_bind,Option.bind_some,
        Bool.false_eq_true,if_false,NanoEditorState.moved]
    rw [hstep,good_moved]
    exact ⟨_,hline,boundary_byteLength _⟩

/-- The number of the current match is one of the stored matches. -/
def NanoEditorState.Indexed (s : NanoEditorState) : Prop :=
  s.searchMatches = [] ∨ s.currentMatch < s.searchMatches.length

theorem good_nextMatch (h : s.At p) (hi : s.Indexed) (forward : Bool) :
    Good (s.nextMatch forward,s.reference) ↔
      ∀ m ∈ s.searchMatches[s.nextIndex forward]?, Rests s.lines m.1 m.2 := by
  rcases hi with hnil | hi
  · have hstep : s.nextMatch forward = some s := by
      rw [NanoEditorState.nextMatch,hnil]
      rfl
    rw [hstep,hnil]
    refine iff_of_true (good_same h) ?_
    intro m hm
    simp at hm
  · have hlt : s.nextIndex forward < s.searchMatches.length := by
      rw [NanoEditorState.nextIndex]
      cases forward with
      | true => exact Nat.mod_lt _ (by omega)
      | false =>
        simp only [Bool.false_eq_true,if_false]
        split <;> omega
    have hmatch := List.getElem?_eq_getElem hlt
    have hne : s.searchMatches.isEmpty = false := by
      rw [List.isEmpty_eq_false_iff]
      exact List.ne_nil_of_length_pos (by omega)
    have hstep : s.nextMatch forward = some (NanoEditorState.moved
        { s with currentMatch := s.nextIndex forward } s.searchMatches[s.nextIndex forward].1
        s.searchMatches[s.nextIndex forward].2) := by
      simp only [NanoEditorState.nextMatch,hne,hmatch,Option.bind_eq_bind,Option.bind_some,
        Bool.false_eq_true,if_false,NanoEditorState.toMatch,NanoEditorState.moved]
    have hgood : Good (some (NanoEditorState.moved { s with currentMatch := s.nextIndex forward }
        s.searchMatches[s.nextIndex forward].1 s.searchMatches[s.nextIndex forward].2),s.reference) ↔
        Rests s.lines s.searchMatches[s.nextIndex forward].1 s.searchMatches[s.nextIndex forward].2 :=
      good_moved
    rw [hstep,hmatch]
    refine hgood.trans ?_
    simp only [Option.mem_some_iff,forall_eq']

end Rullama.Nano
