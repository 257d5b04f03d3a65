import Rullama.Tui.NanoText

/-! # The editor on its file

What a save writes for a file that was opened, and how the scroll offsets follow the cursor.
-/
namespace Rullama.Nano
open Rullama.Text

/-- `[String]::join` with line feeds. -/
def joinLines (lines : List Line) : List Char := ['\n'].intercalate lines

namespace NanoEditorState

/-- `save`, with what it writes to the file. -/
def save (s : NanoEditorState) : Except String (NanoEditorState × List Char) :=
  if s.readOnly then .error "File is read-only"
  else .ok ({ s with modified := false },joinLines s.lines)

end NanoEditorState

/-! ## The bytes of a file -/

/-- The lines of a file with their line endings. -/
def pieces (content : List Char) : List Line :=
  if (splitInclusive content).isEmpty then [[]] else splitInclusive content

def lineEnd (piece : Line) : List Char := piece.drop (stripLineEnd piece).length

/-- The file with other characters in one line, which keeps its ending. -/
def replaceLine (content : List Char) (row : ℕ) (line : Line) : List Char :=
  ((pieces content).modify row (fun piece => line ++ lineEnd piece)).flatten

/-- Of at most 1 MB and without NUL. -/
def Editable (content : List Char) : Prop :=
  byteLength content ≤ MAX_EDIT_SIZE ∧ Char.ofNat 0 ∉ content

/-- A save without an edit writes the file as it is, and one after an edit of a line only the
characters of this line anew. -/
structure KeepsFile (content : List Char) : Prop where
  unedited : ∃ t, (NanoEditorState.opened content).save = .ok (t,content)
  edited : ∀ (s : NanoEditorState) row line, s.readOnly = false →
    row < (NanoEditorState.opened content).lines.length →
    s.lines = (NanoEditorState.opened content).lines.set row line →
    ∃ t, s.save = .ok (t,replaceLine content row line)

/-- The lines end with a line feed alone, and the last one has no ending. -/
def PlainEnds (content : List Char) : Prop :=
  ¬ ['\r','\n'] <:+: content ∧ content.getLast? ≠ some '\n'

instance (content : List Char) : Decidable (Editable content) :=
  inferInstanceAs (Decidable (_ ∧ _))

instance (content : List Char) : Decidable (PlainEnds content) :=
  inferInstanceAs (Decidable (_ ∧ _))

variable {content text rest line : List Char} {lines : List Line} {row : ℕ}

/-- Every text is one line, or a line with its line feed and a text behind it. -/
theorem content_induction {P : List Char → Prop} (hline : ∀ text, '\n' ∉ text → P text)
    (hlast : ∀ text, '\n' ∉ text → P (text ++ ['\n']))
    (hmore : ∀ text rest, '\n' ∉ text → rest ≠ [] → P rest → P (text ++ '\n' :: rest))
    (content : List Char) : P content := by
  induction hn : content.length using Nat.strongRecOn generalizing content with
  | ind n ih =>
    subst hn
    by_cases hmem : '\n' ∈ content
    · obtain ⟨text,rest,rfl,htext⟩ := List.eq_append_cons_of_mem hmem
      by_cases hrest : rest = []
      · subst hrest
        exact hlast text htext
      · refine hmore text rest htext hrest (ih rest.length ?_ rest rfl)
        rw [List.length_append,List.length_cons]
        omega
    · exact hline content hmem

/-! ## Lines -/

theorem splitInclusive_line (h : '\n' ∉ text) (hne : text ≠ []) : splitInclusive text = [text] := by
  induction text with
  | nil => exact (hne rfl).elim
  | cons c text ih =>
    rw [List.mem_cons,not_or] at h
    rw [splitInclusive,if_neg (Ne.symm h.1)]
    cases text with
    | nil => rfl
    | cons d text => rw [ih h.2 (List.cons_ne_nil _ _)]

theorem splitInclusive_append (h : '\n' ∉ text) :
    splitInclusive (text ++ '\n' :: rest) = (text ++ ['\n']) :: splitInclusive rest := by
  induction text with
  | nil => rw [List.nil_append,splitInclusive,if_pos rfl,List.nil_append]
  | cons c text ih =>
    rw [List.mem_cons,not_or] at h
    rw [List.cons_append,splitInclusive,if_neg (Ne.symm h.1),ih h.2]
    rfl

theorem pieces_line (h : '\n' ∉ text) : pieces text = [text] := by
  rw [pieces]
  cases text with
  | nil => rfl
  | cons c text =>
    rw [splitInclusive_line h (List.cons_ne_nil c text)]
    rfl

theorem pieces_last (h : '\n' ∉ text) : pieces (text ++ ['\n']) = [text ++ ['\n']] := by
  rw [pieces,splitInclusive_append h]
  rfl

theorem pieces_more (h : '\n' ∉ text) (hne : rest ≠ []) :
    pieces (text ++ '\n' :: rest) = (text ++ ['\n']) :: pieces rest := by
  have hsplit : splitInclusive rest ≠ [] := by
    cases rest with
    | nil => exact (hne rfl).elim
    | cons c rest =>
      rw [splitInclusive]
      split
      · exact List.cons_ne_nil _ _
      · split <;> exact List.cons_ne_nil _ _
  have hsome : (splitInclusive rest).isEmpty = false := by simpa using hsplit
  rw [pieces,pieces,splitInclusive_append h,hsome]
  rfl

theorem stripLineEnd_line (h : '\n' ∉ text) : stripLineEnd text = text := by
  rw [stripLineEnd,if_neg]
  intro hlast
  exact h (List.mem_of_getLast? hlast)

theorem stripLineEnd_append : stripLineEnd (text ++ ['\n']) =
    if text.getLast? = some '\r' then text.dropLast else text := by
  rw [stripLineEnd,if_pos List.getLast?_concat,List.dropLast_concat]

theorem lines_opened :
    (NanoEditorState.opened content).lines = (pieces content).map stripLineEnd := by
  rw [NanoEditorState.opened,pieces]
  simp only [linesOf,List.isEmpty_map]
  split <;> rfl

theorem pieces_ne_nil (content : List Char) : pieces content ≠ [] := by
  rw [pieces]
  split
  · exact List.cons_ne_nil _ _
  · rename_i h
    simpa using h

theorem joinLines_cons (line : Line) (h : lines ≠ []) :
    joinLines (line :: lines) = line ++ '\n' :: joinLines lines := by
  obtain ⟨line',lines,rfl⟩ := List.exists_cons_of_ne_nil h
  rw [joinLines,List.intercalate_cons_cons,List.append_assoc]
  rfl

theorem joinLines_singleton (line : Line) : joinLines [line] = line := List.intercalate_singleton

/-! ## What is written -/

/-- What a save writes for a file that has just been opened. -/
def rewritten (content : List Char) : List Char := joinLines ((pieces content).map stripLineEnd)

theorem rewritten_line (h : '\n' ∉ text) : rewritten text = text := by
  rw [rewritten,pieces_line h,List.map_singleton,joinLines_singleton,stripLineEnd_line h]

theorem rewritten_last (h : '\n' ∉ text) :
    rewritten (text ++ ['\n']) = stripLineEnd (text ++ ['\n']) := by
  rw [rewritten,pieces_last h,List.map_singleton,joinLines_singleton]

theorem rewritten_more (h : '\n' ∉ text) (hne : rest ≠ []) :
    rewritten (text ++ '\n' :: rest) = stripLineEnd (text ++ ['\n']) ++ '\n' :: rewritten rest := by
  have hrest : (pieces rest).map stripLineEnd ≠ [] := by
    rw [Ne,List.map_eq_nil_iff]
    exact pieces_ne_nil rest
  rw [rewritten,pieces_more h hne,List.map_cons,joinLines_cons _ hrest]
  rfl

theorem length_stripLineEnd (text : List Char) :
    (stripLineEnd (text ++ ['\n'])).length ≤ text.length := by
  rw [stripLineEnd_append]
  split
  · rw [List.length_dropLast]
    omega
  · exact Nat.le_refl _

theorem length_rewritten (content : List Char) : (rewritten content).length ≤ content.length := by
  induction content using content_induction with
  | hline text h =>
    exact Nat.le_of_eq (congrArg List.length (rewritten_line h))
  | hlast text h =>
    rw [rewritten_last h,List.length_append]
    exact Nat.le_trans (length_stripLineEnd text) (Nat.le_add_right _ _)
  | hmore text rest h hne ih =>
    have hstrip := length_stripLineEnd text
    rw [rewritten_more h hne,List.length_append,List.length_append,List.length_cons,
      List.length_cons]
    omega

/-! ## Line endings -/

theorem plainEnds_line (h : '\n' ∉ text) : PlainEnds text :=
  ⟨fun hin => h (hin.subset (by simp)),fun hlast => h (List.mem_of_getLast? hlast)⟩

theorem not_plainEnds_last : ¬ PlainEnds (text ++ ['\n']) := fun h => h.2 List.getLast?_concat

theorem plainEnds_more (h : '\n' ∉ text) (hne : rest ≠ []) :
    PlainEnds (text ++ '\n' :: rest) ↔ text.getLast? ≠ some '\r' ∧ PlainEnds rest := by
  have hlast : (text ++ '\n' :: rest).getLast? = rest.getLast? := by
    rw [List.getLast?_append_of_ne_nil _ (List.cons_ne_nil _ _),List.getLast?_cons_of_ne_nil hne]
  rw [PlainEnds,PlainEnds,hlast]
  refine ⟨fun hplain => ⟨fun hr => hplain.1 ?_,fun hin => hplain.1 ?_,hplain.2⟩,
    fun hplain => ⟨?_,hplain.2.2⟩⟩
  · obtain ⟨start,rfl⟩ := List.getLast?_eq_some_iff.mp hr
    exact ⟨start,rest,by simp⟩
  · exact hin.trans ((List.suffix_cons _ _).trans (List.suffix_append _ _)).isInfix
  · rintro ⟨a,b,heq⟩
    rw [List.append_assoc] at heq
    rcases List.append_eq_append_iff.mp heq with ⟨t,rfl,ht⟩ | ⟨t,rfl,ht⟩
    · cases t with
      | nil => cases ht
      | cons c t =>
        simp only [List.cons_append,List.nil_append,List.cons.injEq] at ht
        obtain ⟨rfl,ht⟩ := ht
        cases t with
        | nil => exact hplain.1 List.getLast?_concat
        | cons d t =>
          rw [List.cons_append,List.cons.injEq] at ht
          exact h (by simp [← ht.1])
    · cases t with
      | nil => cases ht
      | cons c t =>
        rw [List.cons_append,List.cons.injEq] at ht
        exact hplain.2.1 ⟨t,b,by rw [ht.2,List.append_assoc]⟩

/-- A save without an edit gives the file back exactly when its line endings are plain. -/
theorem rewritten_eq_iff (content : List Char) :
    rewritten content = content ↔ PlainEnds content := by
  induction content using content_induction with
  | hline text h => exact ⟨fun _ => plainEnds_line h,fun _ => rewritten_line h⟩
  | hlast text h =>
    refine ⟨fun heq => ?_,fun hplain => (not_plainEnds_last hplain).elim⟩
    have hlen := congrArg List.length heq
    have hstrip := length_stripLineEnd text
    rw [rewritten_last h,List.length_append,List.length_singleton] at hlen
    omega
  | hmore text rest h hne ih =>
    rw [plainEnds_more h hne,rewritten_more h hne,stripLineEnd_append,← ih]
    by_cases hr : text.getLast? = some '\r'
    · rw [if_pos hr]
      refine ⟨fun heq => ?_,fun hplain => (hplain.1 hr).elim⟩
      have hlen := congrArg List.length heq
      have hrest := length_rewritten rest
      have hpos : 0 < text.length := List.length_pos_of_mem (List.mem_of_getLast? hr)
      rw [List.length_append,List.length_append,List.length_cons,List.length_cons,
        List.length_dropLast] at hlen
      omega
    · rw [if_neg hr,List.append_cancel_left_eq,List.cons.injEq]
      exact ⟨fun heq => ⟨hr,heq.2⟩,fun heq => ⟨rfl,heq.2⟩⟩

/-! ## Edits of one line -/

theorem flatten_pieces (content : List Char) : (pieces content).flatten = content := by
  induction content using content_induction with
  | hline text h => rw [pieces_line h,List.flatten_singleton]
  | hlast text h => rw [pieces_last h,List.flatten_singleton]
  | hmore text rest h hne ih =>
    rw [pieces_more h hne,List.flatten_cons,ih,List.append_assoc]
    rfl

theorem lineEnd_line (h : '\n' ∉ text) : lineEnd text = [] := by
  rw [lineEnd,stripLineEnd_line h,List.drop_length]

theorem stripLineEnd_plain (h : text.getLast? ≠ some '\r') :
    stripLineEnd (text ++ ['\n']) = text := by
  rw [stripLineEnd_append,if_neg h]

theorem lineEnd_plain (h : text.getLast? ≠ some '\r') : lineEnd (text ++ ['\n']) = ['\n'] := by
  rw [lineEnd,stripLineEnd_plain h,List.drop_left]

theorem joinLines_set (h : PlainEnds content) (hrow : row < (pieces content).length) :
    joinLines (((pieces content).map stripLineEnd).set row line) =
      replaceLine content row line := by
  induction content using content_induction generalizing row with
  | hline text htext =>
    rw [pieces_line htext] at hrow
    obtain rfl : row = 0 := Nat.lt_one_iff.mp hrow
    simp only [replaceLine,pieces_line htext,List.map_singleton,List.set_cons_zero,
      List.modify_zero_cons,joinLines_singleton,List.flatten_singleton,lineEnd_line htext,
      List.append_nil]
  | hlast text _ => exact (not_plainEnds_last h).elim
  | hmore text rest htext hne ih =>
    obtain ⟨hr,hrest⟩ := (plainEnds_more htext hne).mp h
    rw [pieces_more htext hne] at hrow
    rw [replaceLine,pieces_more htext hne,List.map_cons,stripLineEnd_plain hr]
    cases row with
    | zero =>
      have hlines : (pieces rest).map stripLineEnd ≠ [] := by
        rw [Ne,List.map_eq_nil_iff]
        exact pieces_ne_nil rest
      have hkept : joinLines ((pieces rest).map stripLineEnd) = rest :=
        (rewritten_eq_iff rest).mpr hrest
      rw [List.set_cons_zero,List.modify_zero_cons,joinLines_cons _ hlines,hkept,
        lineEnd_plain hr,List.flatten_cons,flatten_pieces,List.append_assoc]
      rfl
    | succ row =>
      have hlines : ((pieces rest).map stripLineEnd).set row line ≠ [] := by
        rw [Ne,List.set_eq_nil_iff,List.map_eq_nil_iff]
        exact pieces_ne_nil rest
      rw [List.set_cons_succ,List.modify_succ_cons,joinLines_cons _ hlines,
        ih hrest (Nat.lt_of_succ_lt_succ hrow),List.flatten_cons,List.append_assoc]
      rfl

theorem save_of_writable {s : NanoEditorState} (h : s.readOnly = false) :
    s.save = .ok ({ s with modified := false },joinLines s.lines) := by
  rw [NanoEditorState.save,h]
  rfl

theorem opened_writable (h : Editable content) :
    (NanoEditorState.opened content).readOnly = false := by
  have hsize := h.1
  rw [NanoEditorState.opened]
  simp only [Bool.or_eq_false_iff,decide_eq_false_iff_not,List.contains_eq_mem]
  exact ⟨by omega,h.2⟩

/-- A save keeps the bytes of a file, but for the line that was edited, exactly when its lines end
with a line feed alone and the last one has no ending. -/
theorem keepsFile_iff {content : List Char} (h : Editable content) :
    KeepsFile content ↔ PlainEnds content := by
  constructor
  · intro hkeeps
    obtain ⟨t,ht⟩ := hkeeps.unedited
    rw [save_of_writable (opened_writable h),lines_opened] at ht
    have hcontent := congrArg Prod.snd (Except.ok.inj ht)
    exact (rewritten_eq_iff content).mp hcontent
  · intro hplain
    have hkept : joinLines (NanoEditorState.opened content).lines = content := by
      rw [lines_opened]
      exact (rewritten_eq_iff content).mpr hplain
    refine ⟨⟨{ NanoEditorState.opened content with modified := false },?_⟩,
      fun s row line hs hrow hlines => ⟨{ s with modified := false },?_⟩⟩
    · rw [save_of_writable (opened_writable h)]
      exact congrArg (fun written => Except.ok (_,written)) hkept
    · rw [lines_opened,List.length_map] at hrow
      rw [save_of_writable hs]
      refine congrArg (fun written => Except.ok (_,written)) ?_
      rw [hlines,lines_opened,joinLines_set hplain hrow]

/-- Three lines, of which the second one is empty. -/
def plainFile : List Char := "one\n\nthree".toList

theorem plainFile_kept : KeepsFile plainFile :=
  (keepsFile_iff (by decide +kernel)).mpr (by decide +kernel)

/-- The line feed at the end of a file is lost. -/
theorem finalNewline_lost : ¬ ∀ content, Editable content → KeepsFile content := by
  intro h
  have heditable : Editable "a\n".toList := by decide +kernel
  obtain ⟨t,ht⟩ := (h _ heditable).unedited
  rw [save_of_writable (opened_writable heditable)] at ht
  have hwritten : joinLines (NanoEditorState.opened "a\n".toList).lines = "a\n".toList :=
    congrArg Prod.snd (Except.ok.inj ht)
  exact absurd hwritten (by decide +kernel)

section Typing
variable {s t : NanoEditorState} {c : Char}

/-- A character that is typed stays in the line of the cursor. -/
theorem insertChar_line (h : s.insertChar c = some t) (hw : s.readOnly = false)
    (hrow : s.cursorRow < s.lines.length) : t.readOnly = false ∧ t.cursorRow = s.cursorRow ∧
      ∃ line, t.lines = s.lines.set s.cursorRow line := by
  have hnone : s.cursorRow + 1 - s.lines.length = 0 := by omega
  rw [NanoEditorState.insertChar,hw] at h
  simp only [Bool.false_eq_true,if_false,hnone,List.replicate_zero,List.append_nil] at h
  obtain ⟨line,-,h⟩ := Option.bind_eq_some_iff.mp h
  obtain ⟨line',-,h⟩ := Option.bind_eq_some_iff.mp h
  obtain rfl := Option.some.inj h
  exact ⟨rfl,rfl,line',rfl⟩

theorem insertChars_line {cs : List Char} (h : cs.foldlM NanoEditorState.insertChar s = some t)
    (hw : s.readOnly = false) (hrow : s.cursorRow < s.lines.length) :
    t.readOnly = false ∧ ∃ line, t.lines = s.lines.set s.cursorRow line := by
  induction cs generalizing s with
  | nil =>
    obtain rfl := Option.some.inj h
    exact ⟨hw,_,(List.set_getElem_self hrow).symm⟩
  | cons c cs ih =>
    rw [List.foldlM_cons] at h
    obtain ⟨u,hu,h⟩ := Option.bind_eq_some_iff.mp h
    obtain ⟨huw,hurow,line,hlines⟩ := insertChar_line hu hw hrow
    obtain ⟨htw,line',hline'⟩ := ih h huw (by rw [hlines,hurow,List.length_set]; exact hrow)
    refine ⟨htw,line',?_⟩
    rw [hline',hlines,hurow,List.set_set]

/-- Whatever is typed into a line, a save writes the other lines as they were. -/
theorem typed_save (hkeeps : KeepsFile content) {cs : List Char}
    (hlines : s.lines = (NanoEditorState.opened content).lines) (hw : s.readOnly = false)
    (hrow : s.cursorRow < s.lines.length) (h : cs.foldlM NanoEditorState.insertChar s = some t) :
    ∃ line t', t.save = .ok (t',replaceLine content s.cursorRow line) := by
  obtain ⟨htw,line,hline⟩ := insertChars_line h hw hrow
  rw [hlines] at hrow hline
  exact ⟨line,hkeeps.edited t s.cursorRow line htw hrow hline⟩

end Typing

/-! ## Scrolling -/

/-- The editor with the row and the column that its viewport begins at. -/
structure NanoView where
  editor : NanoEditorState
  scrollRow : UInt16
  scrollCol : UInt16

/-- `u16::saturating_sub` -/
def saturatingSub (a b : UInt16) : UInt16 := if a < b then 0 else a - b

/-- The offset of a row or a column after `ensure_cursor_visible`; none where the sum of the offset
and the visible lines overflows, or there are none to take one off. -/
def scrollTo (scroll visible : UInt16) (cursor : ℕ) : Option UInt16 :=
  let cursor := UInt16.ofNat cursor
  if cursor < scroll then some cursor
  else if UInt16.size ≤ scroll.toNat + visible.toNat then none
  else if scroll + visible ≤ cursor then
    if visible = 0 then none else some (saturatingSub cursor (visible - 1))
  else some scroll

def NanoView.ensureCursorVisible (v : NanoView) (visibleRows visibleCols : UInt16) :
    Option NanoView := do
  let scrollRow ← scrollTo v.scrollRow visibleRows v.editor.cursorRow
  let scrollCol ← scrollTo v.scrollCol visibleCols v.editor.cursorCol
  some { v with scrollRow, scrollCol }

def InView (scroll visible : UInt16) (cursor : ℕ) : Prop :=
  scroll.toNat ≤ cursor ∧ cursor < scroll.toNat + visible.toNat

/-- There is no overflow, and the cursor is in the viewport afterwards. -/
def NanoView.Shows (v : NanoView) (visibleRows visibleCols : UInt16) : Prop :=
  ∃ v' ∈ v.ensureCursorVisible visibleRows visibleCols, v'.editor = v.editor ∧
    InView v'.scrollRow visibleRows v.editor.cursorRow ∧
    InView v'.scrollCol visibleCols v.editor.cursorCol

/-- The cursor fits into 16 bits, and so does the end of the viewport, if the cursor does not
stand before it. -/
def Scrolls (scroll visible : UInt16) (cursor : ℕ) : Prop :=
  cursor < UInt16.size ∧
    (scroll.toNat ≤ cursor → scroll.toNat + visible.toNat < UInt16.size)

instance (scroll visible : UInt16) (cursor : ℕ) : Decidable (Scrolls scroll visible cursor) :=
  inferInstanceAs (Decidable (_ ∧ _))

section Scroll
variable {scroll visible scroll' : UInt16} {cursor : ℕ}

theorem toNat_saturatingSub (a b : UInt16) : (saturatingSub a b).toNat = a.toNat - b.toNat := by
  rw [saturatingSub]
  split
  · rename_i h
    rw [UInt16.lt_iff_toNat_lt] at h
    exact (Nat.sub_eq_zero_of_le (Nat.le_of_lt h)).symm
  · rename_i h
    rw [UInt16.lt_iff_toNat_lt,Nat.not_lt] at h
    exact UInt16.toNat_sub_of_le _ _ h

/-- The offset that is scrolled to, in numbers. -/
theorem scrollTo_eq_some (hvisible : 0 < visible.toNat) :
    scrollTo scroll visible cursor = some scroll' ↔
    (cursor % UInt16.size < scroll.toNat ∧ scroll'.toNat = cursor % UInt16.size) ∨
    (scroll.toNat ≤ cursor % UInt16.size ∧ scroll.toNat + visible.toNat < UInt16.size ∧
      scroll'.toNat = if scroll.toNat + visible.toNat ≤ cursor % UInt16.size then
        cursor % UInt16.size - (visible.toNat - 1) else scroll.toNat) := by
  have hcursor : (UInt16.ofNat cursor).toNat = cursor % UInt16.size := UInt16.toNat_ofNat' ..
  have hone : (1 : UInt16) ≤ visible := UInt16.le_iff_toNat_le.mpr hvisible
  have hne : visible ≠ 0 := by
    rintro rfl
    exact absurd hvisible (by decide)
  rw [scrollTo]
  simp only [UInt16.lt_iff_toNat_lt,hcursor]
  split
  · rename_i hlt
    rw [Option.some_inj,← UInt16.toNat_inj,hcursor]
    omega
  · rename_i hge
    split
    · rename_i hover
      refine iff_of_false (by simp) ?_
      omega
    · rename_i hfits
      have hsum : (scroll + visible).toNat = scroll.toNat + visible.toNat := by
        rw [UInt16.toNat_add]
        exact Nat.mod_eq_of_lt (Nat.not_le.mp hfits)
      simp only [UInt16.le_iff_toNat_le,hsum,hcursor]
      split
      · rename_i hpast
        rw [Option.some_inj,← UInt16.toNat_inj,toNat_saturatingSub,hcursor,
          UInt16.toNat_sub_of_le _ _ hone]
        have h1 : (1 : UInt16).toNat = 1 := rfl
        omega
      · rw [Option.some_inj,← UInt16.toNat_inj]
        omega

theorem inView_iff (hvisible : 0 < visible.toNat) :
    (∃ scroll' ∈ scrollTo scroll visible cursor, InView scroll' visible cursor) ↔
      Scrolls scroll visible cursor := by
  simp only [Option.mem_def,scrollTo_eq_some hvisible,InView,Scrolls]
  have hscroll := scroll.toNat_lt
  have hvisible' := visible.toNat_lt
  have hsize : UInt16.size = 65536 := rfl
  rw [hsize]
  constructor
  · rintro ⟨scroll',h,hle,hlt⟩
    have hscroll' := scroll'.toNat_lt
    rcases h with ⟨hbefore,heq⟩ | ⟨hbehind,hfits,heq⟩
    · omega
    · split at heq
      · omega
      · omega
  · rintro ⟨hcursor,hfits⟩
    have hmod : cursor % 65536 = cursor := Nat.mod_eq_of_lt hcursor
    rw [hmod]
    by_cases hbefore : cursor < scroll.toNat
    · refine ⟨UInt16.ofNat cursor,.inl ⟨hbefore,?_⟩,?_⟩
      · exact UInt16.toNat_ofNat_of_lt' hcursor
      · rw [UInt16.toNat_ofNat_of_lt' hcursor]
        omega
    · by_cases hpast : scroll.toNat + visible.toNat ≤ cursor
      · have hsmall : cursor - (visible.toNat - 1) < UInt16.size := by omega
        refine ⟨UInt16.ofNat (cursor - (visible.toNat - 1)),.inr ⟨by omega,by omega,?_⟩,?_⟩
        · rw [if_pos hpast,UInt16.toNat_ofNat_of_lt' hsmall]
        · rw [UInt16.toNat_ofNat_of_lt' hsmall]
          omega
      · refine ⟨scroll,.inr ⟨by omega,by omega,?_⟩,by omega,by omega⟩
        rw [if_neg hpast]

end Scroll

/-- In a viewport of at least one row and one column the cursor is shown, and nothing overflows,
exactly when row and column scroll. -/
theorem shows_iff {v : NanoView} {visibleRows visibleCols : UInt16}
    (hrows : 0 < visibleRows.toNat) (hcols : 0 < visibleCols.toNat) :
    v.Shows visibleRows visibleCols ↔ Scrolls v.scrollRow visibleRows v.editor.cursorRow ∧
      Scrolls v.scrollCol visibleCols v.editor.cursorCol := by
  rw [← inView_iff hrows,← inView_iff hcols]
  constructor
  · rintro ⟨v',hv',-,hrow,hcol⟩
    obtain ⟨scrollRow,hscrollRow,hv'⟩ := Option.bind_eq_some_iff.mp hv'
    obtain ⟨scrollCol,hscrollCol,hv'⟩ := Option.bind_eq_some_iff.mp hv'
    obtain rfl := Option.some.inj hv'
    exact ⟨⟨scrollRow,hscrollRow,hrow⟩,⟨scrollCol,hscrollCol,hcol⟩⟩
  · rintro ⟨⟨scrollRow,hscrollRow,hrow⟩,⟨scrollCol,hscrollCol,hcol⟩⟩
    refine ⟨{ v with scrollRow, scrollCol },?_,rfl,hrow,hcol⟩
    refine Option.bind_eq_some_iff.mpr ⟨scrollRow,hscrollRow,?_⟩
    exact Option.bind_eq_some_iff.mpr ⟨scrollCol,hscrollCol,rfl⟩

/-- The second line of a file in a viewport of one row and two columns. -/
theorem secondLine_shown :
    (NanoView.mk { NanoEditorState.opened plainFile with cursorRow := 1 } 0 0).Shows 1 2 :=
  (shows_iff (by decide) (by decide)).mpr (by decide)

/-- Many empty lines and one more. -/
def tallFile (n : ℕ) : List Char := List.replicate n '\n' ++ ['x']

theorem editable_tallFile {n : ℕ} (h : n < MAX_EDIT_SIZE) : Editable (tallFile n) := by
  have hlength : byteLength (tallFile n) = n + 1 := by
    rw [tallFile,byteLength_append]
    induction n with
    | zero => rfl
    | succ n ih =>
      have hn := ih (Nat.lt_of_succ_lt h)
      rw [List.replicate_succ,byteLength_cons,Nat.add_assoc,hn]
      exact Nat.add_comm 1 (n + 1)
  refine ⟨by omega,?_⟩
  rw [tallFile,List.mem_append,List.mem_replicate,not_or]
  exact ⟨fun hmem => absurd hmem.2 (by decide),by decide⟩

theorem lines_tallFile (n : ℕ) :
    (NanoEditorState.opened (tallFile n)).lines = List.replicate n [] ++ [['x']] := by
  rw [lines_opened]
  induction n with
  | zero => rfl
  | succ n ih =>
    have hne : tallFile n ≠ [] := by simp [tallFile]
    have hpieces : pieces ([] ++ '\n' :: tallFile n) = ['\n'] :: pieces (tallFile n) :=
      pieces_more List.not_mem_nil hne
    have htall : tallFile (n + 1) = [] ++ '\n' :: tallFile n := rfl
    rw [htall,hpieces,List.map_cons,ih]
    rfl

/-- The cursor in the last line of a tall file. -/
def tallView (n : ℕ) : NanoView := ⟨{ NanoEditorState.opened (tallFile n) with cursorRow := n },0,0⟩

theorem rests_tallView (n : ℕ) : Rests (tallView n).editor.lines n 0 := by
  refine ⟨['x'],?_,boundary_zero _⟩
  have hlines : (tallView n).editor.lines = List.replicate n [] ++ [['x']] := lines_tallFile n
  have hlength : (List.replicate n ([] : Line)).length = n := List.length_replicate
  rw [hlines,Option.mem_def,List.getElem?_append_right (Nat.le_of_eq hlength),hlength,Nat.sub_self]
  rfl

theorem tallView_not_shown {n : ℕ} (hn : 65536 ≤ n) {visibleRows visibleCols : UInt16}
    (hrows : 0 < visibleRows.toNat) : ¬(tallView n).Shows visibleRows visibleCols := by
  rintro ⟨v',hv',-,hrow,-⟩
  obtain ⟨scrollRow,hscrollRow,hv'⟩ := Option.bind_eq_some_iff.mp hv'
  obtain ⟨scrollCol,hscrollCol,hv'⟩ := Option.bind_eq_some_iff.mp hv'
  obtain rfl := Option.some.inj hv'
  have hscrolls := (inView_iff hrows).mp ⟨scrollRow,hscrollRow,hrow⟩
  exact absurd hscrolls.1 (Nat.not_lt.mpr hn)

/-- The cursor in the last one of 65537 lines is never shown. -/
theorem lastLine_not_shown : ¬ ∀ content, Editable content → ∀ v : NanoView,
    v.editor.lines = (NanoEditorState.opened content).lines →
    Rests v.editor.lines v.editor.cursorRow v.editor.cursorCol →
    ∀ visibleRows visibleCols : UInt16, 0 < visibleRows.toNat → 0 < visibleCols.toNat →
      v.Shows visibleRows visibleCols := by
  intro h
  obtain ⟨n,hn⟩ : ∃ n : ℕ, n = 65536 := ⟨_,rfl⟩
  have hsmall : n < MAX_EDIT_SIZE := by
    rw [hn]
    decide
  have hrows : 0 < (24 : UInt16).toNat := by decide
  have hcols : 0 < (80 : UInt16).toNat := by decide
  exact tallView_not_shown (Nat.le_of_eq hn.symm) hrows
    (h _ (editable_tallFile hsmall) (tallView n) rfl (rests_tallView n) 24 80 hrows hcols)

end Rullama.Nano
