import Rullama.Tui.NanoText

/-! # Searches, and runs of the editor

A search goes through the lines in lower case and takes the columns that it finds there for
columns of the lines themselves. It panics on the empty query and where a match begins with a
character of more than one byte.
-/
namespace Rullama.Nano
open Rullama.Text Rullama.Transition NanoEditorState

variable {s : NanoEditorState} {p : Place} {line : Line} {col : ℕ}

theorem find_nil (line : Line) : find [] line = some 0 := by
  cases line <;> rfl

theorem find_eq_some {query : Line} (h : find query line = some col) :
    ∃ a b, line = a ++ query ++ b ∧ byteLength a = col := by
  induction line generalizing col with
  | nil =>
    rw [find] at h
    split at h
    · rename_i hempty
      obtain rfl : query = [] := List.isEmpty_iff.mp hempty
      cases h
      exact ⟨[],[],rfl,rfl⟩
    · cases h
  | cons c line ih =>
    rw [find] at h
    split at h
    · rename_i hprefix
      obtain ⟨b,hb⟩ := List.isPrefixOf_iff_prefix.mp hprefix
      cases h
      exact ⟨[],b,hb.symm,rfl⟩
    · obtain ⟨col',hcol,rfl⟩ := Option.map_eq_some_iff.mp h
      obtain ⟨a,b,rfl,rfl⟩ := ih hcol
      exact ⟨c :: a,b,rfl,Nat.add_comm _ _⟩

theorem matchesFrom_succ (query line : Line) (fuel start : ℕ) :
    matchesFrom query line (fuel + 1) start = (splitBytes line start).bind (fun q =>
      match find query q.2 with
      | none => some []
      | some col => (matchesFrom query line fuel (start + col + 1)).map ((start + col) :: ·)) := rfl

/-- Every place of the line matches the empty query, and then the search goes on behind its end. -/
theorem matchesFrom_nil (line : Line) (fuel start : ℕ) (hfuel : byteLength line + 2 ≤ fuel + start)
    (hstart : start ≤ byteLength line + 1) : matchesFrom [] line fuel start = none := by
  induction fuel generalizing start with
  | zero => omega
  | succ fuel ih =>
    rw [matchesFrom_succ]
    cases hsplit : splitBytes line start with
    | none => rfl
    | some q =>
      have hle : start ≤ byteLength line := (boundary_iff.mpr ⟨q,hsplit⟩).le
      rw [Option.bind_some,find_nil]
      simp only [Nat.add_zero]
      rw [ih (start + 1) (by omega) (by omega),Option.map_none]

/-- After a match that begins with a character of one byte the search goes on at a boundary. -/
theorem matchesFrom_isSome {c : Char} {query : Line} (hc : c.utf8Size = 1) (fuel start : ℕ)
    (hfuel : byteLength line < fuel + start) (hstart : Boundary line start) :
    (matchesFrom (c :: query) line fuel start).isSome = true := by
  induction fuel generalizing start with
  | zero => rfl
  | succ fuel ih =>
    obtain ⟨a,b,rfl,rfl⟩ := hstart
    rw [matchesFrom_succ,splitBytes_append,Option.bind_some]
    cases hfind : find (c :: query) b with
    | none => rfl
    | some col =>
      obtain ⟨x,y,rfl,rfl⟩ := find_eq_some hfind
      rw [Option.isSome_map]
      apply ih
      · omega
      · have hbyte : byteLength a + byteLength x + 1 = byteLength (a ++ x ++ [c]) := by
          rw [byteLength_append,byteLength_append,byteLength_cons,byteLength_nil,hc]
        rw [hbyte]
        have happend : a ++ (x ++ c :: query ++ y) = a ++ x ++ [c] ++ (query ++ y) := by simp
        rw [happend]
        exact boundary_append _ _

theorem lineMatches_of_none {query : Line} (h : find query line = none) :
    lineMatches query line = some [] := by
  rw [lineMatches,matchesFrom_succ]
  have hsplit : splitBytes line 0 = some ([],line) := splitBytes_append [] line
  rw [hsplit,Option.bind_some,h]

/-- After a match that begins with a longer character it does not. -/
theorem lineMatches_of_wide {c : Char} {query : Line} (hc : c.utf8Size ≠ 1)
    (h : find (c :: query) line = some col) : lineMatches (c :: query) line = none := by
  rw [lineMatches,matchesFrom_succ]
  have hsplit : splitBytes line 0 = some ([],line) := splitBytes_append [] line
  rw [hsplit,Option.bind_some,h]
  obtain ⟨a,b,rfl,rfl⟩ := find_eq_some h
  have hnone : splitBytes (a ++ c :: query ++ b) (0 + byteLength a + 1) = none := by
    cases hs : splitBytes (a ++ c :: query ++ b) (0 + byteLength a + 1) with
    | none => rfl
    | some q =>
      have hb := boundary_iff.mpr ⟨q,hs⟩
      rw [Nat.zero_add,List.append_assoc,List.cons_append,boundary_succ_iff] at hb
      exact absurd hb hc
  have hstop (fuel : ℕ) : matchesFrom (c :: query) (a ++ c :: query ++ b) (fuel + 1)
      (0 + byteLength a + 1) = none := by
    rw [matchesFrom_succ,hnone,Option.bind_none]
  simp only [hstop,Option.map_none]

theorem lineMatches_isSome_iff {query : Line} : (lineMatches query line).isSome = true ↔
    query ≠ [] ∧ (find query line = none ∨ ∀ c ∈ query.head?, c.utf8Size = 1) := by
  cases query with
  | nil =>
    have hnone : lineMatches [] line = none := matchesFrom_nil line _ 0 (by omega) (by omega)
    rw [hnone]
    exact iff_of_false (by simp) (fun h => h.1 rfl)
  | cons c query =>
    simp only [ne_eq,reduceCtorEq,not_false_eq_true,true_and,List.head?_cons,Option.mem_some_iff,
      forall_eq']
    cases hfind : find (c :: query) line with
    | none =>
      rw [lineMatches_of_none hfind]
      exact iff_of_true rfl (.inl rfl)
    | some col =>
      by_cases hc : c.utf8Size = 1
      · refine iff_of_true ?_ (.inr hc)
        exact matchesFrom_isSome hc _ _ (by omega) (boundary_zero line)
      · rw [lineMatches_of_wide hc hfind]
        refine iff_of_false (by simp) ?_
        rintro (h | h)
        · cases h
        · exact hc h

theorem lineMatches_head {query : Line} {cols : List ℕ} (h : lineMatches query line = some cols) :
    cols.head? = find query line := by
  rw [lineMatches,matchesFrom_succ] at h
  have hsplit : splitBytes line 0 = some ([],line) := splitBytes_append [] line
  rw [hsplit,Option.bind_some] at h
  cases hfind : find query line with
  | none =>
    simp only [hfind] at h
    cases h
    rfl
  | some col =>
    simp only [hfind] at h
    obtain ⟨rest,_,rfl⟩ := Option.map_eq_some_iff.mp h
    rw [List.head?_cons,Nat.zero_add]

variable {lower : Line → Line} {query : Line} {row : ℕ} {lines : List Line}

theorem textMatches_isSome_iff : (textMatches lower query row lines).isSome = true ↔
    ∀ line ∈ lines, (lineMatches query (lower line)).isSome = true := by
  induction lines generalizing row with
  | nil => exact iff_of_true rfl (List.forall_mem_nil _)
  | cons line lines ih =>
    rw [List.forall_mem_cons,← @ih (row + 1),textMatches]
    cases lineMatches query (lower line) with
    | none => simp
    | some cols => cases textMatches lower query (row + 1) lines <;> simp

theorem firstMatch_eq_none_iff : firstMatch lower query row lines = none ↔
    ∀ line ∈ lines, find query (lower line) = none := by
  induction lines generalizing row with
  | nil => exact iff_of_true rfl (List.forall_mem_nil _)
  | cons line lines ih =>
    rw [List.forall_mem_cons,← @ih (row + 1),firstMatch]
    cases find query (lower line) with
    | none => simp
    | some col => simp

theorem textMatches_head {found : List (ℕ × ℕ)} (h : textMatches lower query row lines = some found) :
    found.head? = firstMatch lower query row lines := by
  induction lines generalizing row found with
  | nil =>
    cases h
    rfl
  | cons line lines ih =>
    rw [textMatches,Option.bind_eq_bind] at h
    obtain ⟨cols,hcols,h⟩ := Option.bind_eq_some_iff.mp h
    obtain ⟨rest,hrest,h⟩ := Option.bind_eq_some_iff.mp h
    cases h
    have hhead := lineMatches_head hcols
    rw [firstMatch,← hhead]
    cases cols with
    | nil => exact ih hrest
    | cons col cols => rfl

theorem good_search (h : s.At p) (query : Line) :
    Good (s.search lower query,s.reference) ↔ Searchable lower s.lines query := by
  have hsearch : s.search lower query = (textMatches lower (lower query) 0 s.lines).bind (fun found =>
      some ({ s with searchQuery := some query, searchMatches := found, currentMatch := 0 }.toMatch
        found.head?)) := rfl
  have hline : p.before ++ p.after ∈ s.lines := List.mem_of_getElem? (getElem?_at h)
  rw [hsearch]
  cases hfound : textMatches lower (lower query) 0 s.lines with
  | none =>
    refine iff_of_false (not_good_none _) ?_
    intro hs
    have hsome : (textMatches lower (lower query) 0 s.lines).isSome = true := by
      rw [textMatches_isSome_iff]
      intro line hline
      rw [lineMatches_isSome_iff]
      refine ⟨hs.nonempty,hs.first.imp_left (fun hnone => ?_)⟩
      exact firstMatch_eq_none_iff.mp hnone line hline
    rw [hfound] at hsome
    cases hsome
  | some found =>
    have hhead := textMatches_head hfound
    have hall := textMatches_isSome_iff.mp (by rw [hfound]; rfl)
    have hnonempty : lower query ≠ [] := (lineMatches_isSome_iff.mp (hall _ hline)).1
    have hfirst : firstMatch lower (lower query) 0 s.lines = none ∨
        ∀ c ∈ (lower query).head?, c.utf8Size = 1 := by
      by_cases hwide : ∀ c ∈ (lower query).head?, c.utf8Size = 1
      · exact .inr hwide
      · refine .inl (firstMatch_eq_none_iff.mpr ?_)
        intro line hline
        exact (lineMatches_isSome_iff.mp (hall line hline)).2.resolve_right hwide
    have hrests : Rests s.lines s.cursorRow s.cursorCol := rests_iff_at.mpr ⟨p,h⟩
    rw [Option.bind_some,hhead,good_some]
    cases hm : firstMatch lower (lower query) 0 s.lines with
    | none =>
      refine iff_of_true ⟨hrests,rfl⟩ ⟨hnonempty,hfirst,?_⟩
      intro m hmem
      rw [hm] at hmem
      cases hmem
    | some m =>
      constructor
      · rintro ⟨hmoved,_⟩
        refine ⟨hnonempty,hfirst,?_⟩
        intro m' hmem
        rw [hm] at hmem
        obtain rfl := Option.some.inj hmem
        exact hmoved
      · intro hs
        exact ⟨hs.found m hm,rfl⟩

/-! ## Runs -/

/-- The operation leaves the matches of the last search. -/
def Keeps (s : NanoEditorState) (o : Option NanoEditorState) : Prop :=
  ∀ t ∈ o, t.searchMatches = s.searchMatches ∧ t.currentMatch = s.currentMatch

theorem keeps_some {t : NanoEditorState} (hm : t.searchMatches = s.searchMatches)
    (hc : t.currentMatch = s.currentMatch) : Keeps s (some t) := by
  intro t' ht
  obtain rfl := Option.some.inj ht
  exact ⟨hm,hc⟩

theorem Keeps.bind {α : Type} {x : Option α} {f : α → Option NanoEditorState}
    (h : ∀ a, Keeps s (f a)) : Keeps s (x.bind f) := by
  cases x with
  | none => exact fun t ht => by cases ht
  | some a => exact h a

theorem Keeps.ite {c : Prop} [Decidable c] {a b : Option NanoEditorState} (ha : Keeps s a)
    (hb : Keeps s b) : Keeps s (if c then a else b) := by
  split
  · exact ha
  · exact hb

theorem keeps_toRow {t : NanoEditorState} (hm : t.searchMatches = s.searchMatches)
    (hc : t.currentMatch = s.currentMatch) : Keeps s (t.toRow row) :=
  .bind (fun _ => keeps_some hm hc)

theorem keeps_same : Keeps s (some s) := keeps_some rfl rfl

theorem keeps_deleteBackward : Keeps s s.deleteBackward := by
  refine .ite keeps_same (.ite (.bind fun line => .ite (.bind fun line => ?_) keeps_same) ?_)
  · exact keeps_some rfl rfl
  · exact .ite (.bind fun line => .bind fun line => keeps_some rfl rfl) keeps_same

theorem keeps_deleteForward : Keeps s s.deleteForward := by
  refine .ite keeps_same (.bind fun line => .ite (.bind fun line => keeps_some rfl rfl) ?_)
  exact .ite (.bind fun line => keeps_some rfl rfl) keeps_same

theorem keeps_moveCursor (direction : CursorDirection) : Keeps s (s.moveCursor direction) := by
  cases direction with
  | up => exact .ite (keeps_toRow rfl rfl) keeps_same
  | down => exact .ite (keeps_toRow rfl rfl) keeps_same
  | left =>
    refine .ite (keeps_some rfl rfl) (.ite (.bind fun line => ?_) keeps_same)
    exact keeps_some rfl rfl
  | right =>
    refine .bind fun line => .ite (keeps_some rfl rfl) (.ite ?_ keeps_same)
    exact keeps_some rfl rfl

theorem NanoEditorState.Indexed.of_keeps {o : Option NanoEditorState} (h : s.Indexed) (hk : Keeps s o) :
    ∀ t ∈ o, t.Indexed := by
  intro t ht
  obtain ⟨hm,hc⟩ := hk t ht
  rw [Indexed,hm,hc]
  exact h

theorem toMatch_indexed (h : s.Indexed) (found : Option (ℕ × ℕ)) : (s.toMatch found).Indexed := by
  cases found with
  | none => exact h
  | some m => exact h

theorem indexed_op (h : s.Indexed) (o : Op) : ∀ t ∈ s.op lower o, t.Indexed := by
  cases o with
  | insertChar c =>
    exact h.of_keeps (.ite keeps_same (.bind fun line => .bind fun line => keeps_some rfl rfl))
  | deleteBackward => exact h.of_keeps keeps_deleteBackward
  | deleteForward => exact h.of_keeps keeps_deleteForward
  | insertNewline =>
    exact h.of_keeps (.ite keeps_same (.bind fun line => .bind fun q => keeps_some rfl rfl))
  | moveCursor direction => exact h.of_keeps (keeps_moveCursor direction)
  | moveToLineBoundary start =>
    exact h.of_keeps (.ite (keeps_some rfl rfl) (.bind fun line => keeps_some rfl rfl))
  | pageMove up pageSize => exact h.of_keeps (keeps_toRow rfl rfl)
  | cutLine =>
    exact h.of_keeps (.ite keeps_same (.ite keeps_same (.bind fun line => keeps_toRow rfl rfl)))
  | paste =>
    refine h.of_keeps (.ite keeps_same (.ite keeps_same (.ite (keeps_some rfl rfl) ?_)))
    exact fun t ht => by cases ht
  | search query =>
    intro t ht
    obtain ⟨found,_,ht⟩ := Option.bind_eq_some_iff.mp ht
    obtain rfl := Option.some.inj ht
    apply toMatch_indexed
    cases found with
    | nil => exact .inl rfl
    | cons m found => exact .inr (Nat.succ_pos _)
  | nextMatch forward =>
    intro t ht
    rw [NanoEditorState.op,nextMatch] at ht
    split at ht
    · obtain rfl := Option.some.inj ht
      exact h
    · obtain ⟨m,hm,ht⟩ := Option.bind_eq_some_iff.mp ht
      obtain rfl := Option.some.inj ht
      exact .inr (List.getElem?_eq_some_iff.mp hm).1

/-- An operation of the editor goes on exactly as that of the reference editor where it lands. -/
theorem good_op (h : s.At p) (hi : s.Indexed) (o : Op) :
    Good (s.op lower o,s.reference.edit s.cursor o) ↔ s.Lands lower o := by
  cases o with
  | insertChar c => exact good_insertChar h c
  | deleteBackward => exact good_deleteBackward h
  | deleteForward => exact iff_of_true (good_deleteForward h) trivial
  | insertNewline => exact iff_of_true (good_insertNewline h) trivial
  | moveCursor direction =>
    rw [edit_of_text h (fun ho => by cases ho) rfl]
    cases direction with
    | up => exact good_up h
    | down => exact good_down h
    | left => exact good_left h
    | right => exact good_right h
  | moveToLineBoundary start =>
    rw [edit_of_text h (fun ho => by cases ho) rfl]
    exact iff_of_true (good_moveToLineBoundary h start) trivial
  | pageMove up pageSize =>
    rw [edit_of_text h (fun ho => by cases ho) rfl]
    exact good_toRow rfl
  | cutLine => exact good_cutLine h
  | paste => exact iff_of_true (good_paste h) trivial
  | search query =>
    rw [edit_of_text h (fun ho => by cases ho) rfl]
    exact good_search h query
  | nextMatch forward =>
    rw [edit_of_text h (fun ho => by cases ho) rfl]
    exact good_nextMatch h hi forward

/-- Both editors on a file that has just been opened. -/
def openedBoth (content : List Char) : Editors :=
  (some (opened content),(opened content).reference)

theorem good_openedBoth (content : List Char) : Good (openedBoth content) := by
  refine ⟨opened content,rfl,?_,rfl⟩
  have hne : (opened content).lines ≠ [] := by
    rw [opened]
    split
    · exact List.cons_ne_nil _ _
    · rename_i h
      simpa using h
  obtain ⟨line,lines,hlines⟩ := List.exists_cons_of_ne_nil hne
  refine ⟨line,?_,boundary_zero _⟩
  rw [hlines]
  rfl

/-- The operation lands, if there has been no panic. -/
def LandsAt (lower : Line → Line) (e : Editors) (o : Op) : Prop := ∀ s ∈ e.1, s.Lands lower o

/-- On every file and in every sequence of operations the editor does not panic, keeps its cursor
between two characters of the text and has the text of the reference editor, exactly when every
operation lands. -/
theorem run_good_iff {content : List Char} {ops : List Op}
    (hr : (editors lower).Run (openedBoth content) ops) :
    (∀ e ∈ (editors lower).trail (openedBoth content) ops, Good ((editors lower).next e.1 e.2)) ↔
      ∀ e ∈ (editors lower).trail (openedBoth content) ops, LandsAt lower e.1 e.2 := by
  refine hr.forall_good_iff (I := fun e => ∀ s ∈ e.1, s.Indexed) ?_ ?_ ?_ (good_openedBoth content)
  · rintro ⟨e,r⟩ o hi _ t ht
    obtain ⟨s,hs,ht⟩ := Option.bind_eq_some_iff.mp ht
    exact indexed_op (hi s hs) o t ht
  · rintro ⟨e,r⟩ o hi ⟨s,rfl,hrests,rfl⟩ _
    obtain ⟨p,h⟩ := rests_iff_at.mp hrests
    have hgood : Good (s.op lower o,s.reference.edit s.cursor o) ↔ s.Lands lower o :=
      good_op h (hi s rfl) o
    simp only [LandsAt,Option.mem_some_iff,forall_eq']
    exact hgood
  · rintro s hs
    obtain rfl := Option.some.inj hs
    exact .inl rfl

instance (lower : Line → Line) (s : NanoEditorState) : (o : Op) → Decidable (s.Lands lower o)
  | .insertChar c => inferInstanceAs (Decidable (s.readOnly = true ∨ c.utf8Size = 1))
  | .deleteBackward => inferInstanceAs (Decidable (s.readOnly = true ∨ s.cursorCol = 0 ∨ Rests _ _ _))
  | .moveCursor .up => inferInstanceAs (Decidable (s.cursorRow = 0 ∨ Clamps _ _ _))
  | .moveCursor .down => inferInstanceAs (Decidable (s.lines.length ≤ _ ∨ Clamps _ _ _))
  | .moveCursor .left => inferInstanceAs (Decidable (s.cursorCol = 0 ∨ Rests _ _ _))
  | .moveCursor .right =>
    inferInstanceAs (Decidable (s.lines[s.cursorRow]?.map byteLength = some s.cursorCol ∨ Rests _ _ _))
  | .pageMove _ _ => inferInstanceAs (Decidable (Clamps _ _ _))
  | .cutLine => inferInstanceAs (Decidable (s.readOnly = true ∨ Clamps _ _ _))
  | .search query => inferInstanceAs (Decidable (Searchable lower s.lines query))
  | .nextMatch forward =>
    inferInstanceAs (Decidable (∀ m ∈ s.searchMatches[s.nextIndex forward]?, Rests s.lines m.1 m.2))
  | .deleteForward | .insertNewline | .moveToLineBoundary _ | .paste => isTrue trivial

instance (lower : Line → Line) (e : Editors) (o : Op) : Decidable (LandsAt lower e o) :=
  inferInstanceAs (Decidable (∀ s ∈ e.1, s.Lands lower o))

def asciiLower : Line → Line := List.map Char.toLower

/-- Two lines, of which the first one has a character of two bytes at its end. -/
def menu : List Char := "caf\u00e9\nbar".toList

/-- The edits keep to the characters of one byte. -/
def shortEdits : List Op :=
  [.moveCursor .right, .insertChar 'x', .deleteBackward, .moveToLineBoundary false, .insertNewline,
    .search ['A'], .nextMatch true, .deleteForward, .cutLine, .paste, .moveCursor .up, .pageMove false 20]

theorem shortEdits_good : (editors asciiLower).Run (openedBoth menu) shortEdits ∧
    ∀ e ∈ (editors asciiLower).trail (openedBoth menu) shortEdits,
      Good ((editors asciiLower).next e.1 e.2) :=
  ⟨by decide +kernel,(run_good_iff (by decide +kernel)).mpr (by decide +kernel)⟩

/-- After the insertion of a character of two bytes the cursor is inside it. -/
theorem insertChar_lands_inside : ¬ ∀ (lower : Line → Line) content ops,
    (editors lower).Run (openedBoth content) ops →
      ∀ e ∈ (editors lower).trail (openedBoth content) ops, Good ((editors lower).next e.1 e.2) := by
  intro h
  obtain ⟨s,hs,hrests,_⟩ := h asciiLower [] [.insertChar (Char.ofNat 233)] ⟨rfl,trivial⟩ _ (.head _)
  obtain rfl := Option.some.inj hs
  exact absurd hrests (by decide +kernel)

end Rullama.Nano
