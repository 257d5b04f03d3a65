import Rullama.Text.Templates
import Rullama.Text.Trim
import Rullama.Tui.NanoFiles

/-! # The panels of git

What `git status --porcelain=v1` prints is read line by line into three lists of files. Files are
staged, unstaged and discarded by the paths that stand in these lists, which git takes as
pathspecs.
-/
namespace Rullama.GitScm

open Rullama.Text
open Rullama.Nano (linesOf splitInclusive splitInclusive_append stripLineEnd stripLineEnd_plain)

inductive GitFileStatus
  | modified
  | staged
  | stagedModified
  | untracked
  | deleted
  | stagedDeleted
  | renamed
  | copied
  | conflict
  | ignored
  deriving DecidableEq

structure GitFileEntry where
  path : List Char
  status : GitFileStatus
  originalPath : Option (List Char)
  selected : Bool
  deriving DecidableEq

inductive ScmPanel
  | staged
  | changes
  | untracked
  deriving DecidableEq

structure GitScmState where
  stagedFiles : List GitFileEntry := []
  changedFiles : List GitFileEntry := []
  untrackedFiles : List GitFileEntry := []
  currentPanel : ScmPanel := .changes
  cursorIndex : ℕ := 0

namespace GitScmState

variable (s : GitScmState)

def list : ScmPanel → List GitFileEntry
  | .staged => s.stagedFiles
  | .changes => s.changedFiles
  | .untracked => s.untrackedFiles

def push (entry : GitFileEntry) : ScmPanel → GitScmState
  | .staged => { s with stagedFiles := s.stagedFiles ++ [entry] }
  | .changes => { s with changedFiles := s.changedFiles ++ [entry] }
  | .untracked => { s with untrackedFiles := s.untrackedFiles ++ [entry] }

def currentList : List GitFileEntry := s.list s.currentPanel

def currentEntry : Option GitFileEntry := s.currentList[s.cursorIndex]?

def adjustCursor : GitScmState :=
  let len := s.currentList.length
  if len = 0 then { s with cursorIndex := 0 }
  else if s.cursorIndex ≥ len then { s with cursorIndex := len - 1 } else s

end GitScmState

/-! ## Reading the status -/

def arrow : List Char := [' ','-','>',' ']

/-- The path and the original path that the rest of a line names. -/
def readPath (pathPart : List Char) : List Char × Option (List Char) :=
  if arrow <:+: pathPart then
    let parts := parts arrow pathPart
    (parts[1]?.getD [],some (parts.head?.getD []))
  else (pathPart,none)

/-- The lists that a file is added to, and with which status. -/
def places (indexStatus worktreeStatus : Char) : List (ScmPanel × GitFileStatus) :=
  match indexStatus,worktreeStatus with
  | '?','?' => [(.untracked,.untracked)]
  | '!','!' => []
  | 'M',' ' | 'A',' ' => [(.staged,.staged)]
  | 'M','M' => [(.staged,.stagedModified),(.changes,.modified)]
  | ' ','M' => [(.changes,.modified)]
  | 'D',' ' => [(.staged,.stagedDeleted)]
  | ' ','D' => [(.changes,.deleted)]
  | 'R',' ' | 'R','M' => [(.staged,.renamed)]
  | 'C',' ' => [(.staged,.copied)]
  | 'U','U' | 'A','A' | 'D','D' | 'A','U' | 'U','A' | 'D','U' | 'U','D' => [(.changes,.conflict)]
  | _,_ => if worktreeStatus ≠ ' ' then [(.changes,.modified)] else []

def refreshLine (s : GitScmState) (line : List Char) : Option GitScmState :=
  if byteLength line < 4 then some s
  else do
    let indexStatus := line.getD 0 ' '
    let worktreeStatus := line.getD 1 ' '
    let (_,pathPart) ← splitBytes line 3
    let (path,originalPath) := readPath pathPart
    some ((places indexStatus worktreeStatus).foldl
      (fun s p => s.push ⟨path,p.2,originalPath,false⟩ p.1) s)

/-- `refresh_file_status` where git prints this. -/
def refreshFileStatus (statusOutput : List Char) (s : GitScmState) : Option GitScmState := do
  let cleared := { s with stagedFiles := [], changedFiles := [], untrackedFiles := [] }
  let s ← (linesOf statusOutput).foldlM refreshLine cleared
  some s.adjustCursor

/-! ## Acting on files -/

namespace GitScmState

variable (s : GitScmState)

def filesOrCurrent : List (List Char) :=
  let selected := (s.currentList.filter GitFileEntry.selected).map GitFileEntry.path
  if selected.isEmpty then (s.currentEntry.map GitFileEntry.path).toList else selected

/-- The arguments that `stage_current` calls git with, if it does. -/
def stageCurrent : Option (List (List Char)) :=
  match s.currentPanel with
  | .changes | .untracked =>
    if s.filesOrCurrent.isEmpty then none
    else some (["add".toList,"--".toList] ++ s.filesOrCurrent)
  | .staged => none

def unstageCurrent : Option (List (List Char)) :=
  match s.currentPanel with
  | .staged =>
    if s.filesOrCurrent.isEmpty then none
    else some (["reset".toList,"HEAD".toList,"--".toList] ++ s.filesOrCurrent)
  | _ => none

def discardCurrent : Option (List (List Char)) :=
  match s.currentPanel with
  | .changes => s.currentEntry.map (fun e => ["checkout".toList,"--".toList,e.path])
  | _ => none

end GitScmState

/-! ## What git prints -/

inductive Change
  | unmodified
  | modified
  | typeChanged
  | added
  | deleted
  | renamed
  | copied
  deriving DecidableEq

def Change.letter : Change → Char
  | .unmodified => ' '
  | .modified => 'M'
  | .typeChanged => 'T'
  | .added => 'A'
  | .deleted => 'D'
  | .renamed => 'R'
  | .copied => 'C'

def Change.moves : Change → Bool
  | .renamed | .copied => true
  | _ => false

/-- How the index can differ from the last commit and the work tree from the index. -/
def legal : Change → Change → Bool
  | .unmodified,.unmodified => false
  | .unmodified,_ => true
  | .deleted,worktree => worktree = .unmodified
  | _,worktree => worktree ∈ [.unmodified,.modified,.typeChanged,.deleted]

inductive Unmerged
  | bothDeleted
  | addedByUs
  | deletedByThem
  | addedByThem
  | deletedByUs
  | bothAdded
  | bothModified
  deriving DecidableEq

def Unmerged.letters : Unmerged → Char × Char
  | .bothDeleted => ('D','D')
  | .addedByUs => ('A','U')
  | .deletedByThem => ('U','D')
  | .addedByThem => ('U','A')
  | .deletedByUs => ('D','U')
  | .bothAdded => ('A','A')
  | .bothModified => ('U','U')

inductive Status
  | tracked (index worktree : Change) (isLegal : legal index worktree = true)
  | unmerged (how : Unmerged)
  | untracked
  | ignored
  deriving DecidableEq

namespace Status

def letters : Status → Char × Char
  | tracked index worktree _ => (index.letter,worktree.letter)
  | unmerged how => how.letters
  | untracked => ('?','?')
  | ignored => ('!','!')

def moves : Status → Bool
  | tracked index worktree _ => index.moves || worktree.moves
  | _ => false

/-- The index differs from the last commit, the work tree from the index or there is a conflict,
or git does not know the file. -/
def belongs : ScmPanel → Status → Bool
  | .staged,tracked index _ _ => index ≠ .unmodified
  | .changes,tracked _ worktree _ => worktree ≠ .unmodified
  | .changes,unmerged _ => true
  | .untracked,untracked => true
  | _,_ => false

/-- At most one side is changed, and that is no change of type in the index, or both are
modified. -/
def Handled : Status → Prop
  | tracked index worktree _ => index = .unmodified ∨
      (worktree = .unmodified ∧ index ≠ .typeChanged) ∨ (index = .modified ∧ worktree = .modified)
  | _ => True

end Status

/-- A file as git reports it. -/
structure Record (P : Type*) where
  status : Status
  path : P
  original : Option P
  moved : original.isSome = status.moves

/-- `PathBuf::from`, and how git prints a path. -/
structure Printer (P : Type*) where
  pathBuf : List Char → P
  quote : P → List Char

namespace Printer

variable {P : Type*} (g : Printer P)

/-- A path with a blank or an unusual character is put in double quotes, and unusual characters
are escaped. -/
structure Documented : Prop where
  injective : Function.Injective g.pathBuf
  nonempty : ∀ p, g.quote p ≠ []
  oneLine : ∀ p, '\n' ∉ g.quote p ∧ '\r' ∉ g.quote p
  plain : ∀ p, g.pathBuf (g.quote p) = p → ' ' ∉ g.quote p
  quoted : ∀ p, ' ' ∈ g.quote p → (g.quote p).getLast? = some '"'
  arrow : ∀ p text, arrow <:+: g.quote p → g.pathBuf text = p → arrow <:+: text

def pathPart (r : Record P) : List Char :=
  match r.original with
  | none => g.quote r.path
  | some original => g.quote original ++ arrow ++ g.quote r.path

def line (r : Record P) : List Char :=
  r.status.letters.1 :: r.status.letters.2 :: ' ' :: g.pathPart r

def porcelain (records : List (Record P)) : List Char :=
  records.flatMap (fun r => g.line r ++ ['\n'])

end Printer

/-! ## Reading a path back -/

theorem arrow_ne_nil : arrow ≠ [] := List.cons_ne_nil _ _

/-- A text with a blank stands in quotes. -/
def Closed (t : List Char) : Prop := ' ' ∈ t → t.getLast? = some '"'

section Paths

variable {t rest : List Char}

theorem blank_mem_of_arrow (h : arrow <:+: t) : ' ' ∈ t := h.subset List.mem_cons_self

theorem getLast?_of_append {u v : List Char} (hv : v ≠ []) (h : (u ++ v).getLast? = some '"') :
    v.getLast? = some '"' := by
  rwa [List.getLast?_append_of_ne_nil _ hv] at h

/-- No arrow reaches from a closed text into the arrow behind it. -/
theorem not_arrow_across (h : Closed t) (hno : ¬arrow <:+: t) (u v : List Char)
    (huv : t = u ++ v) (hv : v ≠ []) : ¬arrow <+: v ++ (arrow ++ rest) := by
  intro hpre
  rcases Nat.lt_or_ge v.length 4 with hshort | hlong
  · have hprefix : v <+: arrow :=
      List.prefix_of_prefix_length_le (List.prefix_append _ _) hpre hshort.le
    have hblank : ' ' ∈ v := by
      cases v with
      | nil => exact absurd rfl hv
      | cons c v =>
        obtain ⟨z,hz⟩ := hprefix
        rw [List.cons_append,arrow,List.cons.injEq] at hz
        rw [hz.1]
        exact List.mem_cons_self
    have hlast := h (huv ▸ List.mem_append_right _ hblank)
    rw [huv] at hlast
    have hquote : '"' ∈ arrow := hprefix.subset (List.mem_of_getLast? (getLast?_of_append hv hlast))
    exact absurd hquote (by decide)
  · have hprefix : arrow <+: v :=
      List.prefix_of_prefix_length_le hpre (List.prefix_append _ _) hlong
    exact hno (huv ▸ hprefix.isInfix.trans (List.suffix_append u v).isInfix)

theorem parts_closed (h : Closed t) (hno : ¬arrow <:+: t) :
    parts arrow (t ++ (arrow ++ rest)) = t :: parts arrow rest := by
  have hparts := (parts_append_iff (w := t) arrow_ne_nil).mpr
    ⟨not_arrow_across h hno,parts_append_marker arrow_ne_nil rest⟩
  rw [hparts,List.modifyHead_cons,List.append_nil]

theorem head?_parts_closed (rest : List Char) (h : t.getLast? = some '"') :
    (parts arrow (t ++ (arrow ++ rest))).head? = (parts arrow t).head? := by
  cases hcut : cut arrow t with
  | none =>
    rw [parts_closed (fun _ => h) (cut_eq_none.mp hcut),parts_of_cut_eq_none hcut]
    rfl
  | some p =>
    rw [parts_of_cut arrow_ne_nil (cut_append hcut _),parts_of_cut arrow_ne_nil hcut]
    rfl

/-- An arrow in a closed text comes before the one behind it. -/
theorem second_parts_closed (rest : List Char) (h : Closed t) (harrow : arrow <:+: t) :
    ∃ x, (parts arrow t)[1]? = some x ∧ (parts arrow (t ++ (arrow ++ rest)))[1]? = some x := by
  have hlast := h (blank_mem_of_arrow harrow)
  cases hcut : cut arrow t with
  | none => exact absurd harrow (cut_eq_none.mp hcut)
  | some p =>
    have ht := eq_append_of_cut hcut
    have hne : p.2 ≠ [] := by
      intro hnil
      rw [ht,hnil,List.append_nil] at hlast
      have harrow := getLast?_of_append arrow_ne_nil hlast
      cases harrow
    have hend : p.2.getLast? = some '"' := by
      rw [ht,← List.append_assoc] at hlast
      exact getLast?_of_append hne hlast
    have hhead := head?_parts_closed rest hend
    rw [parts_of_cut arrow_ne_nil (cut_append hcut _),parts_of_cut arrow_ne_nil hcut,
      List.getElem?_cons_succ,List.getElem?_cons_succ,← List.head?_eq_getElem?,
      ← List.head?_eq_getElem?,hhead]
    obtain ⟨x,xs,hx⟩ := List.exists_cons_of_ne_nil (parts_ne_nil (m := arrow) (s := p.2))
    rw [hx]
    exact ⟨x,rfl,rfl⟩

theorem not_arrow_part (i : ℕ) : ¬arrow <:+: (parts arrow t)[i]?.getD [] := by
  cases hi : (parts arrow t)[i]? with
  | none => exact fun h => absurd (List.infix_nil.mp h) arrow_ne_nil
  | some x => exact not_isInfix_of_mem_parts arrow_ne_nil (List.mem_of_getElem? hi)

end Paths

section Printed

variable {P : Type*} {g : Printer P} {r : Record P}

/-- The path is printed as it is, behind an original one without an arrow; or it is what stands
in the original one behind its first arrow. -/
def PathPlain (g : Printer P) (r : Record P) : Prop :=
  match r.original with
  | none => g.pathBuf (g.quote r.path) = r.path
  | some original =>
    if arrow <:+: g.quote original then
      ∃ text, (parts arrow (g.quote original))[1]? = some text ∧ g.pathBuf text = r.path
    else g.pathBuf (g.quote r.path) = r.path

theorem readPath_of_arrow {t : List Char} (h : arrow <:+: t) :
    (readPath t).1 = (parts arrow t)[1]?.getD [] := by
  rw [readPath,if_pos h]

/-- A path with an arrow is not read back from its own letters. -/
theorem not_read_of_arrow (h : g.Documented) {p : P} (harrow : arrow <:+: g.quote p) {t : List Char}
    (ht : ¬arrow <:+: t) : g.pathBuf t = p ↔ g.pathBuf (g.quote p) = p := by
  refine iff_of_false (fun hp => ht (h.arrow p t harrow hp)) fun hp => ?_
  exact h.plain p hp (blank_mem_of_arrow harrow)

theorem readPath_iff (h : g.Documented) :
    g.pathBuf (readPath (g.pathPart r)).1 = r.path ↔ PathPlain g r := by
  rw [Printer.pathPart,PathPlain]
  cases horiginal : r.original with
  | none =>
    simp only
    by_cases harrow : arrow <:+: g.quote r.path
    · rw [readPath_of_arrow harrow]
      exact not_read_of_arrow h harrow (not_arrow_part 1)
    · rw [readPath,if_neg harrow]
  | some original =>
    simp only
    have hclosed : Closed (g.quote original) := h.quoted original
    rw [List.append_assoc,readPath_of_arrow ⟨g.quote original,g.quote r.path,List.append_assoc _ _ _⟩]
    by_cases harrow : arrow <:+: g.quote original
    · obtain ⟨x,hx,hwhole⟩ := second_parts_closed (g.quote r.path) hclosed harrow
      rw [if_pos harrow,hwhole,hx,Option.getD_some]
      refine ⟨fun hp => ⟨x,rfl,hp⟩,?_⟩
      rintro ⟨y,hy,hp⟩
      cases hy
      exact hp
    · rw [if_neg harrow,parts_closed hclosed harrow,List.getElem?_cons_succ]
      by_cases hpath : arrow <:+: g.quote r.path
      · exact not_read_of_arrow h hpath (not_arrow_part 0)
      · rw [parts_of_cut_eq_none (cut_eq_none.mpr hpath)]
        rfl

end Printed

/-! ## The lists -/

section Lists

variable {P : Type*} {g : Printer P} {r : Record P} {records : List (Record P)}
  {s s' : GitScmState} {panel : ScmPanel}

/-- What a file adds to a list. -/
def entriesOf (g : Printer P) (panel : ScmPanel) (r : Record P) : List GitFileEntry :=
  ((places r.status.letters.1 r.status.letters.2).filter (fun p => p.1 = panel)).map
    (fun p => ⟨(readPath (g.pathPart r)).1,p.2,(readPath (g.pathPart r)).2,false⟩)

theorem list_push (entry : GitFileEntry) (target : ScmPanel) :
    (s.push entry target).list panel = s.list panel ++ if target = panel then [entry] else [] := by
  cases target <;> cases panel <;> simp [GitScmState.push,GitScmState.list]

theorem list_foldl_push (entry : ScmPanel × GitFileStatus → GitFileEntry)
    (ps : List (ScmPanel × GitFileStatus)) :
    (ps.foldl (fun s p => s.push (entry p) p.1) s).list panel =
      s.list panel ++ (ps.filter (fun p => p.1 = panel)).map entry := by
  induction ps generalizing s with
  | nil => rw [List.foldl_nil,List.filter_nil,List.map_nil,List.append_nil]
  | cons p ps ih =>
    rw [List.foldl_cons,ih,list_push,List.append_assoc,List.filter_cons]
    by_cases hp : p.1 = panel
    · rw [if_pos hp,if_pos (decide_eq_true hp)]
      rfl
    · rw [if_neg hp,if_neg (by rw [decide_eq_false hp]; exact Bool.false_ne_true)]
      rfl

theorem Change.letter_plain (c : Change) : c.letter ≠ '\n' ∧ c.letter.utf8Size = 1 := by
  cases c <;> decide

theorem letters_plain (st : Status) : st.letters.1 ≠ '\n' ∧ st.letters.2 ≠ '\n' ∧
    st.letters.1.utf8Size = 1 ∧ st.letters.2.utf8Size = 1 := by
  cases st with
  | tracked index worktree _ =>
    exact ⟨(Change.letter_plain index).1,(Change.letter_plain worktree).1,
      (Change.letter_plain index).2,(Change.letter_plain worktree).2⟩
  | unmerged how => cases how <;> decide
  | untracked => decide
  | ignored => decide

theorem pathPart_ne_nil (h : g.Documented) (r : Record P) : g.pathPart r ≠ [] := by
  rw [Printer.pathPart]
  cases r.original with
  | none => exact h.nonempty r.path
  | some original => exact fun hnil => h.nonempty r.path (List.append_eq_nil_iff.mp hnil).2

theorem notMem_pathPart (h : g.Documented) (r : Record P) :
    '\n' ∉ g.pathPart r ∧ '\r' ∉ g.pathPart r := by
  obtain ⟨hn,hr⟩ := h.oneLine r.path
  rw [Printer.pathPart]
  cases r.original with
  | none => exact ⟨hn,hr⟩
  | some original =>
    obtain ⟨hn',hr'⟩ := h.oneLine original
    simp only [List.mem_append,not_or]
    exact ⟨⟨⟨hn',by decide⟩,hn⟩,⟨hr',by decide⟩,hr⟩

theorem refreshLine_line (h : g.Documented) (s : GitScmState) (r : Record P) :
    ∃ s', refreshLine s (g.line r) = some s' ∧
      ∀ panel, s'.list panel = s.list panel ++ entriesOf g panel r := by
  obtain ⟨-,-,hindex,hworktree⟩ := letters_plain r.status
  have hblank : ' '.utf8Size = 1 := rfl
  have hlength : byteLength (g.line r) = 3 + byteLength (g.pathPart r) := by
    rw [Printer.line,byteLength_cons,byteLength_cons,byteLength_cons,hindex,hworktree,hblank]
    omega
  have hpos : byteLength (g.pathPart r) ≠ 0 := fun hzero =>
    pathPart_ne_nil h r (byteLength_eq_zero_iff.mp hzero)
  have hsplit : splitBytes (g.line r) 3 =
      some ([r.status.letters.1,r.status.letters.2,' '],g.pathPart r) := by
    refine splitBytes_eq_some.mpr ⟨rfl,?_⟩
    rw [byteLength_cons,byteLength_cons,byteLength_cons,hindex,hworktree,hblank]
    rfl
  have hrefresh : refreshLine s (g.line r) =
      some ((places r.status.letters.1 r.status.letters.2).foldl (fun s p =>
        s.push ⟨(readPath (g.pathPart r)).1,p.2,(readPath (g.pathPart r)).2,false⟩ p.1) s) := by
    rw [refreshLine,if_neg (by omega),hsplit]
    rfl
  exact ⟨_,hrefresh,fun panel => list_foldl_push _ _⟩

theorem linesOf_porcelain (h : g.Documented) (records : List (Record P)) :
    linesOf (g.porcelain records) = records.map g.line := by
  induction records with
  | nil => rfl
  | cons r records ih =>
    obtain ⟨hindex,hworktree,-,-⟩ := letters_plain r.status
    obtain ⟨hn,hr⟩ := notMem_pathPart h r
    have hline : '\n' ∉ g.line r := by
      rw [Printer.line,List.mem_cons,List.mem_cons,List.mem_cons]
      rintro (heq | heq | heq | hmem)
      · exact hindex heq.symm
      · exact hworktree heq.symm
      · exact absurd heq (by decide)
      · exact hn hmem
    have hlast : (g.line r).getLast? ≠ some '\r' := by
      intro hlast
      have hsplit : g.line r = [r.status.letters.1,r.status.letters.2,' '] ++ g.pathPart r := rfl
      rw [hsplit,List.getLast?_append_of_ne_nil _ (pathPart_ne_nil h r)] at hlast
      exact hr (List.mem_of_getLast? hlast)
    have hcons : g.porcelain (r :: records) = g.line r ++ '\n' :: g.porcelain records := by
      rw [Printer.porcelain,List.flatMap_cons,List.append_assoc]
      rfl
    rw [hcons,linesOf,splitInclusive_append hline,List.map_cons,stripLineEnd_plain hlast,
      List.map_cons,← ih,linesOf]

theorem list_adjustCursor : s.adjustCursor.list panel = s.list panel := by
  rw [GitScmState.adjustCursor]
  split
  · cases panel <;> rfl
  · split
    · cases panel <;> rfl
    · rfl

theorem foldlM_refreshLine (h : g.Documented) (records : List (Record P)) (s : GitScmState) :
    ∃ s', (records.map g.line).foldlM refreshLine s = some s' ∧
      ∀ panel, s'.list panel = s.list panel ++ records.flatMap (entriesOf g panel) := by
  induction records generalizing s with
  | nil => exact ⟨s,rfl,fun panel => (List.append_nil _).symm⟩
  | cons r records ih =>
    obtain ⟨t,ht,hlist⟩ := refreshLine_line h s r
    obtain ⟨s',hs',hrest⟩ := ih t
    refine ⟨s',?_,fun panel => ?_⟩
    · rw [List.map_cons,List.foldlM_cons,ht]
      exact hs'
    · rw [hrest,hlist,List.append_assoc,List.flatMap_cons]

/-- The lists hold what each file adds to them. -/
theorem refreshFileStatus_porcelain (h : g.Documented) (records : List (Record P))
    (s : GitScmState) :
    ∃ s', refreshFileStatus (g.porcelain records) s = some s' ∧
      ∀ panel, s'.list panel = records.flatMap (entriesOf g panel) := by
  obtain ⟨t,ht,hlist⟩ := foldlM_refreshLine h records
    { s with stagedFiles := [], changedFiles := [], untrackedFiles := [] }
  refine ⟨t.adjustCursor,?_,fun panel => ?_⟩
  · rw [refreshFileStatus,linesOf_porcelain h,ht]
    rfl
  · rw [list_adjustCursor,hlist]
    cases panel <;> exact List.nil_append _

end Lists

/-! ## Which statuses are handled -/

/-- How often a file with this status is added to a list. -/
def timesAdded (panel : ScmPanel) (st : Status) : ℕ :=
  ((places st.letters.1 st.letters.2).filter (fun p => p.1 = panel)).length

theorem timesAdded_le (panel : ScmPanel) (st : Status) :
    timesAdded panel st ≤ if st.belongs panel then 1 else 0 := by
  cases st with
  | tracked index worktree h =>
    revert h
    cases panel <;> cases index <;> cases worktree <;> decide
  | unmerged how => cases panel <;> cases how <;> decide
  | untracked => cases panel <;> decide
  | ignored => cases panel <;> decide

theorem forall_panel_iff {Q : ScmPanel → Prop} :
    (∀ panel, Q panel) ↔ Q .staged ∧ Q .changes ∧ Q .untracked := by
  refine ⟨fun h => ⟨h _,h _,h _⟩,?_⟩
  rintro ⟨hstaged,hchanges,huntracked⟩ panel
  cases panel with
  | staged => exact hstaged
  | changes => exact hchanges
  | untracked => exact huntracked

/-- Only these statuses are in all lists that they belong to. -/
theorem handled_iff (st : Status) :
    (∀ panel, timesAdded panel st = if st.belongs panel then 1 else 0) ↔ st.Handled := by
  cases st with
  | tracked index worktree h =>
    rw [forall_panel_iff,Status.Handled]
    revert h
    cases index <;> cases worktree <;> decide
  | unmerged how =>
    refine iff_of_true (fun panel => ?_) trivial
    cases panel <;> cases how <;> decide
  | untracked =>
    refine iff_of_true (fun panel => ?_) trivial
    cases panel <;> decide
  | ignored =>
    refine iff_of_true (fun panel => ?_) trivial
    cases panel <;> decide

/-! ## The panels -/

section Panels

variable {P : Type*}

/-- Each list names the files that belong to it, by their paths, and no other ones. -/
def PanelsRight (g : Printer P) (records : List (Record P)) : Prop :=
  ∀ s s', refreshFileStatus (g.porcelain records) s = some s' → ∀ panel,
    (s'.list panel).map (fun e => g.pathBuf e.path) =
      (records.filter (fun r => r.status.belongs panel)).map Record.path

/-- The status of the file is handled, and its path is read back if it is listed at all. -/
def Readable (g : Printer P) (r : Record P) : Prop :=
  r.status.Handled ∧ (r.status = .ignored ∨ PathPlain g r)

theorem length_flatMap_le {α β : Type*} {E : α → List β} {B : α → Bool} {l : List α}
    (hle : ∀ a, (E a).length ≤ if B a then 1 else 0) :
    (l.flatMap E).length ≤ (l.filter B).length := by
  induction l with
  | nil => exact Nat.le_refl _
  | cons a l ih =>
    have ha := hle a
    rw [List.flatMap_cons,List.length_append,List.filter_cons]
    split
    · rename_i hB
      rw [if_pos hB] at ha
      rw [List.length_cons]
      omega
    · rename_i hB
      rw [if_neg hB] at ha
      omega

/-- Where no element gives too much, all give what they should exactly where the whole is right. -/
theorem flatMap_eq_map_filter_iff {α β : Type*} {E : α → List β} {B : α → Bool} {f : α → β}
    {l : List α} (hle : ∀ a, (E a).length ≤ if B a then 1 else 0) :
    l.flatMap E = (l.filter B).map f ↔ ∀ a ∈ l, E a = if B a then [f a] else [] := by
  induction l with
  | nil => exact iff_of_true rfl (List.forall_mem_nil _)
  | cons a l ih =>
    have hfilter : ((a :: l).filter B).map f = (if B a then [f a] else []) ++ (l.filter B).map f := by
      rw [List.filter_cons]
      split
      · rfl
      · rfl
    rw [List.flatMap_cons,hfilter,List.forall_mem_cons,← ih]
    refine ⟨fun h => List.append_inj h ?_,fun h => by rw [h.1,h.2]⟩
    have htotal := congrArg List.length h
    have hrest := length_flatMap_le (l := l) hle
    have ha := hle a
    rw [List.length_append,List.length_append,List.length_map] at htotal
    by_cases hB : B a
    · rw [if_pos hB] at ha htotal ⊢
      rw [List.length_singleton] at htotal ⊢
      omega
    · rw [if_neg hB] at ha htotal ⊢
      rw [List.length_nil] at htotal ⊢
      omega

variable {g : Printer P} {r : Record P} {records : List (Record P)}

theorem map_entriesOf (panel : ScmPanel) :
    (entriesOf g panel r).map (fun e => g.pathBuf e.path) =
      List.replicate (timesAdded panel r.status) (g.pathBuf (readPath (g.pathPart r)).1) := by
  rw [entriesOf,List.map_map,timesAdded]
  refine List.eq_replicate_iff.mpr ⟨List.length_map _,fun p hp => ?_⟩
  obtain ⟨place,-,rfl⟩ := List.mem_map.mp hp
  rfl

theorem exists_belongs (h : r.status ≠ .ignored) : ∃ panel, r.status.belongs panel = true := by
  cases hst : r.status with
  | tracked index worktree isLegal =>
    by_cases hindex : index = .unmodified
    · refine ⟨.changes,decide_eq_true fun hworktree => ?_⟩
      rw [hindex,hworktree] at isLegal
      cases isLegal
    · exact ⟨.staged,decide_eq_true hindex⟩
  | unmerged how => exact ⟨.changes,rfl⟩
  | untracked => exact ⟨.untracked,rfl⟩
  | ignored => exact absurd hst h

theorem belongs_ignored (panel : ScmPanel) : Status.ignored.belongs panel = false := by
  cases panel <;> rfl

/-- A file is right in all lists exactly where its status is handled and its path is read back. -/
theorem entriesOf_right_iff (h : g.Documented) :
    (∀ panel, (entriesOf g panel r).map (fun e => g.pathBuf e.path) =
      if r.status.belongs panel then [r.path] else []) ↔ Readable g r := by
  rw [Readable,← handled_iff,← readPath_iff h]
  constructor
  · intro hright
    have htimes : ∀ panel, timesAdded panel r.status = if r.status.belongs panel then 1 else 0 := by
      intro panel
      have hlength := congrArg List.length (hright panel)
      rw [map_entriesOf,List.length_replicate] at hlength
      rw [hlength]
      split
      · rfl
      · rfl
    refine ⟨htimes,?_⟩
    by_cases hignored : r.status = .ignored
    · exact .inl hignored
    · obtain ⟨panel,hpanel⟩ := exists_belongs hignored
      have hpath := hright panel
      rw [map_entriesOf,htimes panel,if_pos hpanel,if_pos hpanel] at hpath
      exact .inr (List.cons.inj hpath).1
  · rintro ⟨htimes,hpath⟩ panel
    rw [map_entriesOf,htimes panel]
    by_cases hpanel : r.status.belongs panel = true
    · rw [if_pos hpanel,if_pos hpanel]
      rcases hpath with hignored | hpath
      · rw [hignored,belongs_ignored] at hpanel
        cases hpanel
      · rw [hpath]
        rfl
    · rw [if_neg hpanel,if_neg hpanel]
      rfl

theorem panelsRight_iff (h : g.Documented) :
    PanelsRight g records ↔ ∀ r ∈ records, Readable g r := by
  have hpanels : PanelsRight g records ↔ ∀ panel,
      records.flatMap (fun r => (entriesOf g panel r).map (fun e => g.pathBuf e.path)) =
        (records.filter (fun r => r.status.belongs panel)).map Record.path := by
    constructor
    · intro hright panel
      obtain ⟨s',hs',hlist⟩ := refreshFileStatus_porcelain h records {}
      rw [← hright {} s' hs' panel,hlist,List.map_flatMap]
    · intro hlists s s' hs' panel
      obtain ⟨t,ht,hlist⟩ := refreshFileStatus_porcelain h records s
      rw [hs'] at ht
      cases ht
      rw [hlist,List.map_flatMap]
      exact hlists panel
  have hle : ∀ panel (r : Record P), ((entriesOf g panel r).map (fun e => g.pathBuf e.path)).length ≤
      if r.status.belongs panel then 1 else 0 := by
    intro panel r
    rw [map_entriesOf,List.length_replicate]
    exact timesAdded_le panel r.status
  rw [hpanels]
  constructor
  · intro hlists r hr
    exact (entriesOf_right_iff h).mp fun panel =>
      (flatMap_eq_map_filter_iff (hle panel)).mp (hlists panel) r hr
  · intro hreadable panel
    exact (flatMap_eq_map_filter_iff (hle panel)).mpr fun r hr =>
      (entriesOf_right_iff h).mpr (hreadable r hr) panel

end Panels

/-! ## The actions -/

def GitScmState.selectedOrCurrent (s : GitScmState) : List GitFileEntry :=
  let selected := s.currentList.filter GitFileEntry.selected
  if selected = [] then s.currentEntry.toList else selected

inductive Action
  | stage
  | unstage
  | discard

namespace Action

/-- The arguments that git is called with, if it is. -/
def run : Action → GitScmState → Option (List (List Char))
  | stage => GitScmState.stageCurrent
  | unstage => GitScmState.unstageCurrent
  | discard => GitScmState.discardCurrent

/-- The entries that are selected in the current panel, or the one at the cursor; only that one is
discarded. -/
def chosen : Action → GitScmState → List GitFileEntry
  | stage,s =>
    match s.currentPanel with
    | .changes | .untracked => s.selectedOrCurrent
    | .staged => []
  | unstage,s =>
    match s.currentPanel with
    | .staged => s.selectedOrCurrent
    | _ => []
  | discard,s =>
    match s.currentPanel with
    | .changes => s.currentEntry.toList
    | _ => []

end Action

def pathspecs (args : List (List Char)) : List (List Char) :=
  (args.dropWhile (fun a => a ≠ ['-','-'])).tail

section Actions

variable {P : Type*} (g : Printer P) (fits : List Char → P → Prop) (records : List (Record P))

/-- Git takes one of the pathspecs for this file. -/
def ActsOn (args : Option (List (List Char))) (file : P) : Prop :=
  ∃ a ∈ args, ∃ spec ∈ pathspecs a, fits spec file

/-- The same files are listed; the panel, the cursor and the selection may be other ones. -/
def SameFiles (s s' : GitScmState) : Prop :=
  ∀ panel, (s'.list panel).map GitFileEntry.path = (s.list panel).map GitFileEntry.path

/-- After a refresh every action acts on the files that are chosen, and on no other file that git
reports. -/
def ActionsRight : Prop :=
  ∀ s₀ s₁, refreshFileStatus (g.porcelain records) s₀ = some s₁ → ∀ s, SameFiles s₁ s →
    ∀ (action : Action), ∀ r ∈ records, ActsOn fits (action.run s) r.path ↔
      ∃ e ∈ action.chosen s, g.pathBuf e.path = r.path

/-- The path of a listed file as a pathspec fits this file only. -/
def SpecsExact : Prop :=
  ∀ a ∈ records, a.status ≠ .ignored → ∀ text, g.pathBuf text = a.path →
    ∀ r ∈ records, fits text r.path ↔ r.path = a.path

variable {g fits records} {s : GitScmState} {panel : ScmPanel}

theorem filesOrCurrent_eq : s.filesOrCurrent = s.selectedOrCurrent.map GitFileEntry.path := by
  rw [GitScmState.filesOrCurrent,GitScmState.selectedOrCurrent]
  simp only [List.isEmpty_iff,List.map_eq_nil_iff]
  split
  · cases s.currentEntry <;> rfl
  · rfl

theorem actsOn_of_files {front files : List (List Char)} {file : P}
    (hfront : pathspecs (front ++ files) = files) :
    ActsOn fits (if files.isEmpty then none else some (front ++ files)) file ↔
      ∃ spec ∈ files, fits spec file := by
  cases files with
  | nil =>
    refine iff_of_false ?_ ?_
    · rintro ⟨a,ha,-⟩
      cases ha
    · rintro ⟨spec,hspec,-⟩
      cases hspec
  | cons f files =>
    constructor
    · rintro ⟨a,ha,hspec⟩
      cases ha
      rwa [hfront] at hspec
    · intro hspec
      exact ⟨_,rfl,hfront.symm ▸ hspec⟩

theorem actsOn_none {file : P} : ¬ActsOn fits none file := by
  rintro ⟨a,ha,-⟩
  cases ha

theorem exists_mem_map {entries : List GitFileEntry} {file : P} :
    (∃ spec ∈ entries.map GitFileEntry.path, fits spec file) ↔
      ∃ e ∈ entries, fits e.path file := by
  constructor
  · rintro ⟨spec,hspec,hfits⟩
    obtain ⟨e,he,rfl⟩ := List.mem_map.mp hspec
    exact ⟨e,he,hfits⟩
  · rintro ⟨e,he,hfits⟩
    exact ⟨_,List.mem_map_of_mem he,hfits⟩

/-- The pathspecs of an action are the paths of the chosen entries. -/
theorem actsOn_run (action : Action) (file : P) :
    ActsOn fits (action.run s) file ↔ ∃ e ∈ action.chosen s, fits e.path file := by
  have hnone : ∀ {fits : GitFileEntry → Prop}, ¬∃ e ∈ ([] : List GitFileEntry), fits e :=
    fun ⟨_,he,_⟩ => absurd he List.not_mem_nil
  cases action with
  | stage =>
    have hfront : pathspecs (["add".toList,"--".toList] ++ s.filesOrCurrent) = s.filesOrCurrent := rfl
    rw [Action.run,GitScmState.stageCurrent,Action.chosen]
    cases s.currentPanel with
    | staged => exact iff_of_false actsOn_none hnone
    | changes | untracked =>
      rw [← exists_mem_map,← filesOrCurrent_eq]
      exact actsOn_of_files hfront
  | unstage =>
    have hfront : pathspecs (["reset".toList,"HEAD".toList,"--".toList] ++ s.filesOrCurrent) =
        s.filesOrCurrent := rfl
    rw [Action.run,GitScmState.unstageCurrent,Action.chosen]
    cases s.currentPanel with
    | staged =>
      rw [← exists_mem_map,← filesOrCurrent_eq]
      exact actsOn_of_files hfront
    | changes | untracked => exact iff_of_false actsOn_none hnone
  | discard =>
    rw [Action.run,GitScmState.discardCurrent,Action.chosen]
    cases s.currentPanel with
    | changes =>
      cases s.currentEntry with
      | none => exact iff_of_false actsOn_none hnone
      | some e =>
        constructor
        · rintro ⟨a,ha,spec,hspec,hfits⟩
          cases ha
          cases List.mem_singleton.mp hspec
          exact ⟨e,List.mem_singleton_self e,hfits⟩
        · rintro ⟨e',he',hfits⟩
          cases List.mem_singleton.mp he'
          exact ⟨_,rfl,_,List.mem_singleton_self _,hfits⟩
    | staged | untracked => exact iff_of_false actsOn_none hnone

theorem mem_chosen {action : Action} {e : GitFileEntry} (he : e ∈ action.chosen s) :
    e ∈ s.currentList := by
  have hentry : ∀ e ∈ s.currentEntry.toList, e ∈ s.currentList := by
    intro e he
    exact List.mem_of_getElem? (Option.mem_toList.mp he)
  have hselected : ∀ e ∈ s.selectedOrCurrent, e ∈ s.currentList := by
    intro e he
    rw [GitScmState.selectedOrCurrent] at he
    split at he
    · exact hentry e he
    · exact List.mem_of_mem_filter he
  cases action with
  | stage =>
    rw [Action.chosen] at he
    split at he
    · exact hselected e he
    · exact hselected e he
    · cases he
  | unstage =>
    rw [Action.chosen] at he
    split at he
    · exact hselected e he
    · cases he
  | discard =>
    rw [Action.chosen] at he
    split at he
    · exact hentry e he
    · cases he

/-- What is listed is a file of the records that is not ignored. -/
theorem exists_record (hright : PanelsRight g records) {s₀ s₁ : GitScmState}
    (hrefresh : refreshFileStatus (g.porcelain records) s₀ = some s₁) (hsame : SameFiles s₁ s)
    {e : GitFileEntry} (he : e ∈ s.list panel) :
    ∃ a ∈ records, a.status ≠ .ignored ∧ g.pathBuf e.path = a.path := by
  have hpath := List.mem_map_of_mem (f := GitFileEntry.path) he
  rw [hsame panel] at hpath
  obtain ⟨e',he',hpath⟩ := List.mem_map.mp hpath
  have hfile := List.mem_map_of_mem (f := fun e => g.pathBuf e.path) he'
  rw [hright s₀ s₁ hrefresh panel] at hfile
  obtain ⟨a,ha,hfile⟩ := List.mem_map.mp hfile
  obtain ⟨ha,hbelongs⟩ := List.mem_filter.mp ha
  refine ⟨a,ha,fun hignored => ?_,by rw [← hpath]; exact hfile.symm⟩
  rw [hignored,belongs_ignored] at hbelongs
  cases hbelongs

theorem actionsRight_of_specsExact (hright : PanelsRight g records)
    (hspecs : SpecsExact g fits records) : ActionsRight g fits records := by
  intro s₀ s₁ hrefresh s hsame action r hr
  rw [actsOn_run]
  refine exists_congr fun e => and_congr_right fun he => ?_
  obtain ⟨a,ha,hignored,hpath⟩ := exists_record hright hrefresh hsame (mem_chosen he)
  rw [hspecs a ha hignored e.path hpath r hr,hpath]
  exact eq_comm

/-- Some action takes the entry at the cursor of a panel. -/
def actionAt : ScmPanel → Action
  | .staged => .unstage
  | .changes | .untracked => .stage

/-- The state in which nothing is selected and the cursor is at an entry. -/
def cursorAt (s : GitScmState) (panel : ScmPanel) (i : ℕ) : GitScmState where
  stagedFiles := s.stagedFiles.map (fun e => { e with selected := false })
  changedFiles := s.changedFiles.map (fun e => { e with selected := false })
  untrackedFiles := s.untrackedFiles.map (fun e => { e with selected := false })
  currentPanel := panel
  cursorIndex := i

theorem list_cursorAt (panel' : ScmPanel) (i : ℕ) : (cursorAt s panel i).list panel' =
    (s.list panel').map (fun e => { e with selected := false }) := by
  cases panel' <;> rfl

theorem chosen_cursorAt {i : ℕ} {e : GitFileEntry} (he : (s.list panel)[i]? = some e) :
    (actionAt panel).chosen (cursorAt s panel i) = [{ e with selected := false }] := by
  have hlist : (cursorAt s panel i).currentList =
      (s.list panel).map (fun e => { e with selected := false }) := list_cursorAt panel i
  have hentry : (cursorAt s panel i).currentEntry = some { e with selected := false } := by
    rw [GitScmState.currentEntry,hlist,List.getElem?_map]
    exact congrArg (Option.map _) he
  have hnone : (cursorAt s panel i).currentList.filter GitFileEntry.selected = [] := by
    rw [hlist,List.filter_eq_nil_iff]
    intro e he
    obtain ⟨e',-,rfl⟩ := List.mem_map.mp he
    exact Bool.false_ne_true
  have hselected : (cursorAt s panel i).selectedOrCurrent = [{ e with selected := false }] := by
    rw [GitScmState.selectedOrCurrent,hnone,if_pos rfl,hentry]
    rfl
  cases panel with
  | staged | changes | untracked => exact hselected

theorem specsExact_of_actionsRight (h : g.Documented) (hright : PanelsRight g records)
    (hactions : ActionsRight g fits records) : SpecsExact g fits records := by
  intro a ha hignored text htext r hr
  obtain ⟨panel,hpanel⟩ := exists_belongs hignored
  obtain ⟨s₁,hrefresh,-⟩ := refreshFileStatus_porcelain h records {}
  have hfile : a.path ∈ (records.filter (fun r => r.status.belongs panel)).map Record.path :=
    List.mem_map_of_mem (List.mem_filter.mpr ⟨ha,hpanel⟩)
  rw [← hright {} s₁ hrefresh panel] at hfile
  obtain ⟨e,he,hpath⟩ := List.mem_map.mp hfile
  obtain ⟨i,hi⟩ := List.mem_iff_getElem?.mp he
  have hsame : SameFiles s₁ (cursorAt s₁ panel i) := by
    intro panel'
    rw [list_cursorAt,List.map_map]
    rfl
  have haction := hactions {} s₁ hrefresh _ hsame (actionAt panel) r hr
  rw [actsOn_run,chosen_cursorAt hi] at haction
  simp only [List.mem_singleton,exists_eq_left] at haction
  rw [h.injective (htext.trans hpath.symm),haction,hpath]
  exact eq_comm

end Actions

/-! ## Quoted paths -/

section Quoted

/-- A letter that a path may have without being quoted. -/
def plainLetter (c : Char) : Bool := '!' ≤ c && c ≤ '~' && c ≠ '"' && c ≠ '\\'

def octalDigit (n : ℕ) : Char := ['0','1','2','3','4','5','6','7'].getD n '0'

def octal (b : UInt8) : List Char :=
  ['\\',octalDigit (b.toNat / 64),octalDigit (b.toNat / 8 % 8),octalDigit (b.toNat % 8)]

def escaped (c : Char) : List Char :=
  if plainLetter c || c = ' ' then [c]
  else if c = '"' || c = '\\' then ['\\',c]
  else (String.utf8EncodeChar c).flatMap octal

def quotedPath (p : List Char) : List Char :=
  if p ≠ [] && p.all plainLetter then p else '"' :: (p.flatMap escaped ++ ['"'])

/-- Paths as texts, quoted as in C. -/
def quoting : Printer (List Char) where
  pathBuf := id
  quote := quotedPath

variable {p w s : List Char} {c x : Char}

theorem octalDigit_mem (n : ℕ) : octalDigit n ∈ ['0','1','2','3','4','5','6','7'] := by
  rw [octalDigit,List.getD_eq_getElem?_getD]
  cases h : ['0','1','2','3','4','5','6','7'][n]? with
  | none => decide
  | some d => exact List.mem_of_getElem? h

/-- A letter is shown as it is or by other letters. -/
theorem escaped_cases (c : Char) : escaped c = [c] ∨
    ∀ x ∈ escaped c, x ∈ ['\\','"','0','1','2','3','4','5','6','7'] := by
  rw [escaped]
  split
  · exact .inl rfl
  · split
    · rename_i hc
      right
      rw [Bool.or_eq_true,decide_eq_true_iff,decide_eq_true_iff] at hc
      rcases hc with rfl | rfl
      · simp
      · simp
    · right
      intro x hx
      obtain ⟨b,-,hx⟩ := List.mem_flatMap.mp hx
      rw [octal,List.mem_cons,List.mem_cons,List.mem_cons,List.mem_singleton] at hx
      have hdigits : ∀ n, octalDigit n ∈ ['\\','"','0','1','2','3','4','5','6','7'] := fun n =>
        List.mem_cons_of_mem _ (List.mem_cons_of_mem _ (octalDigit_mem n))
      rcases hx with rfl | rfl | rfl | rfl
      · decide
      · exact hdigits _
      · exact hdigits _
      · exact hdigits _

theorem escaped_ne_nil (c : Char) : escaped c ≠ [] := by
  rw [escaped]
  split
  · exact List.cons_ne_nil _ _
  · split
    · exact List.cons_ne_nil _ _
    · intro h
      rw [List.flatMap_eq_nil_iff] at h
      obtain ⟨b,bs,hb⟩ := List.exists_cons_of_ne_nil (String.utf8EncodeChar_ne_nil (c := c))
      cases h b (hb ▸ List.mem_cons_self)

theorem isInfix_of_append_left {m : List Char} (hm : m ≠ []) (hw : ∀ c ∈ w, c ∉ m)
    (h : m <:+: w ++ s) : m <:+: s := by
  induction w with
  | nil => exact h
  | cons c w ih =>
    rw [List.cons_append,List.infix_cons_iff] at h
    rcases h with h | h
    · exfalso
      obtain ⟨d,m,rfl⟩ := List.exists_cons_of_ne_nil hm
      obtain ⟨t,ht⟩ := h
      rw [List.cons_append,List.cons.injEq] at ht
      exact hw c List.mem_cons_self (ht.1 ▸ List.mem_cons_self)
    · exact ih (fun d hd => hw d (List.mem_cons_of_mem _ hd)) h

theorem isPrefix_of_escaped (hw : ∀ x ∈ w, x ∉ ['\\','"','0','1','2','3','4','5','6','7'])
    (h : w <+: p.flatMap escaped) : w <+: p := by
  induction w generalizing p with
  | nil => exact List.nil_prefix
  | cons x w ih =>
    cases p with
    | nil => cases List.prefix_nil.mp h
    | cons c p =>
      rw [List.flatMap_cons] at h
      rcases escaped_cases c with hc | hc
      · rw [hc,List.singleton_append,List.cons_prefix_cons] at h
        exact List.cons_prefix_cons.mpr
          ⟨h.1,ih (fun y hy => hw y (List.mem_cons_of_mem _ hy)) h.2⟩
      · exfalso
        obtain ⟨d,e,he⟩ := List.exists_cons_of_ne_nil (escaped_ne_nil c)
        rw [he,List.cons_append,List.cons_prefix_cons] at h
        exact hw x List.mem_cons_self (h.1 ▸ hc d (he ▸ List.mem_cons_self))

theorem arrow_of_escaped (h : arrow <:+: p.flatMap escaped) : arrow <:+: p := by
  have hplain : ∀ x ∈ arrow, x ∉ ['\\','"','0','1','2','3','4','5','6','7'] := by simp [arrow]
  induction p with
  | nil => exact h
  | cons c p ih =>
    rcases escaped_cases c with hc | hc
    · rw [List.flatMap_cons,hc,List.singleton_append,List.infix_cons_iff] at h
      rw [List.infix_cons_iff]
      refine h.imp (fun hpre => ?_) ih
      refine isPrefix_of_escaped hplain ?_
      rwa [List.flatMap_cons,hc]
    · rw [List.flatMap_cons] at h
      have hrest := isInfix_of_append_left arrow_ne_nil (fun x hx hin => hplain x hin (hc x hx)) h
      exact (ih hrest).trans (List.suffix_cons c p).isInfix

theorem length_le_escaped (p : List Char) : p.length ≤ (p.flatMap escaped).length := by
  induction p with
  | nil => exact Nat.le_refl _
  | cons c p ih =>
    have hpos := List.length_pos_iff.mpr (escaped_ne_nil c)
    rw [List.flatMap_cons,List.length_append,List.length_cons]
    omega

theorem notMem_escaped (hx : x ∉ ['\\','"','0','1','2','3','4','5','6','7'])
    (hshown : escaped x ≠ [x]) : x ∉ p.flatMap escaped := by
  intro h
  obtain ⟨c,-,hc⟩ := List.mem_flatMap.mp h
  rcases escaped_cases c with hone | hone
  · rw [hone] at hc
    cases List.mem_singleton.mp hc
    exact hshown hone
  · exact hx (hone x hc)

theorem quotedPath_cases (p : List Char) :
    (p ≠ [] ∧ (∀ c ∈ p, plainLetter c = true) ∧ quotedPath p = p) ∨
      quotedPath p = '"' :: (p.flatMap escaped ++ ['"']) := by
  rw [quotedPath]
  split
  · rename_i h
    rw [Bool.and_eq_true,decide_eq_true_iff,List.all_eq_true] at h
    exact .inl ⟨h.1,h.2,rfl⟩
  · exact .inr rfl

theorem notMem_quotedPath (hx : x ∉ ['\\','"','0','1','2','3','4','5','6','7'])
    (hshown : escaped x ≠ [x]) (hplain : plainLetter x = false) : x ∉ quotedPath p := by
  rcases quotedPath_cases p with ⟨-,hall,hp⟩ | hp
  · intro h
    rw [hp] at h
    rw [hall x h] at hplain
    cases hplain
  · have hquote : x ≠ '"' := by
      rintro rfl
      exact hx (by decide)
    rw [hp,List.mem_cons,List.mem_append,List.mem_singleton]
    rintro (h | h | h)
    · exact hquote h
    · exact notMem_escaped hx hshown h
    · exact hquote h

theorem quoting_documented : quoting.Documented where
  injective := Function.injective_id
  nonempty p := by
    rcases quotedPath_cases p with ⟨hne,-,hp⟩ | hp
    · exact hp.trans_ne hne
    · exact hp.trans_ne (List.cons_ne_nil _ _)
  oneLine p := ⟨notMem_quotedPath (by decide) (by decide) (by decide),
    notMem_quotedPath (by decide) (by decide) (by decide)⟩
  plain p h hblank := by
    rcases quotedPath_cases p with ⟨-,hall,hp⟩ | hp
    · have hmem : ' ' ∈ p := hp ▸ hblank
      cases hall ' ' hmem
    · have hlength := congrArg List.length (hp.symm.trans h)
      have hle := length_le_escaped p
      rw [List.length_cons,List.length_append] at hlength
      omega
  quoted p hblank := by
    rcases quotedPath_cases p with ⟨-,hall,hp⟩ | hp
    · have hmem : ' ' ∈ p := hp ▸ hblank
      cases hall ' ' hmem
    · have hend : quotedPath p = ('"' :: p.flatMap escaped) ++ ['"'] := hp
      exact (congrArg List.getLast? hend).trans List.getLast?_concat
  arrow p text harrow htext := by
    cases htext
    have hquoted : arrow <:+: quotedPath text := harrow
    rcases quotedPath_cases text with ⟨-,-,hp⟩ | hp
    · rwa [hp] at hquoted
    · have hwhole : arrow <:+: ['"'] ++ (text.flatMap escaped ++ ['"']) := by rwa [hp] at hquoted
      have hquote : ∀ c ∈ ['"'], c ∉ arrow := by simp [arrow]
      have hright := isInfix_of_append_left arrow_ne_nil hquote hwhole
      exact arrow_of_escaped (isInfix_of_append_blank arrow_ne_nil hquote hright)

end Quoted

/-- The lists and the actions are right exactly where every status is handled, every path is read
back as it is, and no path fits another file as a pathspec. -/
theorem panels_right_iff {P : Type*} (g : Printer P) (h : g.Documented)
    (fits : List Char → P → Prop) (records : List (Record P)) :
    (PanelsRight g records ∧ ActionsRight g fits records) ↔
      (∀ r ∈ records, Readable g r) ∧ SpecsExact g fits records := by
  rw [← panelsRight_iff h]
  exact and_congr_right fun hright => ⟨specsExact_of_actionsRight h hright,
    actionsRight_of_specsExact hright⟩

theorem panels_right_of_plain :
    PanelsRight quoting [⟨.tracked .modified .modified rfl,"src/main.rs".toList,none,rfl⟩,
        ⟨.untracked,"notes.md".toList,none,rfl⟩] ∧
      ActionsRight quoting (fun text file => text = file)
        [⟨.tracked .modified .modified rfl,"src/main.rs".toList,none,rfl⟩,
          ⟨.untracked,"notes.md".toList,none,rfl⟩] := by
  refine (panels_right_iff quoting quoting_documented _ _).mpr ⟨fun r hr => ?_,?_⟩
  · have hmain : quotedPath "src/main.rs".toList = "src/main.rs".toList := by decide
    have hnotes : quotedPath "notes.md".toList = "notes.md".toList := by decide
    rcases List.mem_cons.mp hr with rfl | hr
    · exact ⟨.inr (.inr ⟨rfl,rfl⟩),.inr hmain⟩
    · cases List.mem_singleton.mp hr
      exact ⟨trivial,.inr hnotes⟩
  · rintro a - - text htext r -
    cases htext
    exact eq_comm

/-- What git prints of a file that is modified in the index and deleted in the work tree, and of
an untracked one with a blank. -/
def misread : List (Record (List Char)) :=
  [⟨.tracked .modified .deleted rfl,"a".toList,none,rfl⟩,⟨.untracked,"b c".toList,none,rfl⟩]

/-- The first of these is not among the staged files, and the second one is listed under its
quoted name. -/
theorem panels_depart :
    quoting.porcelain misread = "MD a\n?? \"b c\"\n".toList ∧
    (∃ s, refreshFileStatus "MD a\n?? \"b c\"\n".toList {} = some s ∧
      s.stagedFiles = [] ∧ s.changedFiles = [⟨"a".toList,.modified,none,false⟩] ∧
      s.untrackedFiles = [⟨"\"b c\"".toList,.untracked,none,false⟩]) ∧
    ¬PanelsRight quoting misread := by
  have hporcelain : quoting.porcelain misread = "MD a\n?? \"b c\"\n".toList := by decide
  have hrefresh : ∃ s, refreshFileStatus "MD a\n?? \"b c\"\n".toList {} = some s ∧
      s.stagedFiles = [] ∧ s.changedFiles = [⟨"a".toList,.modified,none,false⟩] ∧
      s.untrackedFiles = [⟨"\"b c\"".toList,.untracked,none,false⟩] := ⟨_,rfl,by decide⟩
  refine ⟨hporcelain,hrefresh,fun h => ?_⟩
  obtain ⟨s,hs,hstaged,-⟩ := hrefresh
  rw [← hporcelain] at hs
  have hlist : s.list .staged = [] := hstaged
  have hnames := h {} s hs .staged
  rw [hlist] at hnames
  cases hnames

end Rullama.GitScm
