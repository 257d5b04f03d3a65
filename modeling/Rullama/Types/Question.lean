import Rullama.Text.Utf8
import Rullama.Tools.Json

/-! # Answering a block of questions

The panel shows one question of a block at a time, with its options and `Other` under them. What
is selected, what is typed for `Other` and where the cursor is are kept in vectors beside the
block. Ids, headers, descriptions and the ambiguity analysis are left out.
-/
namespace Rullama.Question
open Rullama.Text Rullama.Tools

structure ClarifyingQuestion where
  question : String
  /-- the labels -/
  options : List String
  multiSelect : Bool
  deriving DecidableEq

abbrev QuestionBlock := List ClarifyingQuestion

structure QuestionAnswerState where
  currentQuestionIdx : ℕ
  selectedOptions : List (List Bool)
  otherSelected : List Bool
  otherText : List String
  cursorIdx : ℕ
  editingOther : Bool
  deriving DecidableEq

inductive Op where
  | toggleCurrent
  | cursorUp
  | cursorDown
  | nextQuestion
  | prevQuestion
  | appendOtherChar (c : Char)
  | backspaceOther
  | setEditingOther (editing : Bool)
  deriving DecidableEq

namespace QuestionAnswerState

def new (questions : QuestionBlock) : QuestionAnswerState where
  currentQuestionIdx := 0
  selectedOptions := questions.map (fun q => List.replicate q.options.length false)
  otherSelected := List.replicate questions.length false
  otherText := List.replicate questions.length ""
  cursorIdx := 0
  editingOther := false

variable (questions : QuestionBlock) (s : QuestionAnswerState)

/-- The options of the current question and `Other`. -/
def totalItems : ℕ :=
  match questions[s.currentQuestionIdx]? with
  | some q => q.options.length + 1
  | none => 1

def toggleCurrent : QuestionAnswerState :=
  let qIdx := s.currentQuestionIdx
  match questions[qIdx]? with
  | none => s
  | some q =>
    if s.cursorIdx < q.options.length then
      let toggle (selected : List Bool) : List Bool :=
        if q.multiSelect then selected.modify s.cursorIdx (!·)
        else (selected.map (fun _ => false)).modify s.cursorIdx (fun _ => true)
      let s := { s with selectedOptions := s.selectedOptions.modify qIdx toggle }
      if q.multiSelect then s
      else { s with otherSelected := s.otherSelected.modify qIdx (fun _ => false) }
    else
      let s :=
        if q.multiSelect then s
        else { s with
          selectedOptions := s.selectedOptions.modify qIdx (fun selected => selected.map (fun _ => false)) }
      { s with
        otherSelected := s.otherSelected.modify qIdx (fun other => if q.multiSelect then !other else true) }

def cursorDown : QuestionAnswerState :=
  if s.cursorIdx < s.totalItems questions - 1 then { s with cursorIdx := s.cursorIdx + 1 } else s

def nextQuestion : QuestionAnswerState :=
  if s.currentQuestionIdx + 1 < questions.length then
    { s with currentQuestionIdx := s.currentQuestionIdx + 1, cursorIdx := 0, editingOther := false }
  else s

def prevQuestion : QuestionAnswerState :=
  if 0 < s.currentQuestionIdx then
    { s with currentQuestionIdx := s.currentQuestionIdx - 1, cursorIdx := 0, editingOther := false }
  else s

def modifyOtherText (f : String → String) : QuestionAnswerState :=
  { s with otherText := s.otherText.modify s.currentQuestionIdx f }

def op : Op → QuestionAnswerState
  | .toggleCurrent => s.toggleCurrent questions
  | .cursorUp => { s with cursorIdx := s.cursorIdx - 1 }
  | .cursorDown => s.cursorDown questions
  | .nextQuestion => s.nextQuestion questions
  | .prevQuestion => s.prevQuestion
  | .appendOtherChar c => s.modifyOtherText (·.push c)
  | .backspaceOther => s.modifyOtherText (fun text => .ofList text.toList.dropLast)
  | .setEditingOther editing => { s with editingOther := editing }

/-- An option is selected, or `Other` with a text. -/
def answered (i : ℕ) : Bool :=
  (s.selectedOptions[i]?.map (·.any id)).getD false ||
    (s.otherSelected[i]?.getD false &&
      (s.otherText[i]?.map (fun text => !(Tools.trim text).isEmpty)).getD false)

def allAnswered : Bool := questions.zipIdx.all (fun p => s.answered p.2)

end QuestionAnswerState

/-! ## The answers as a text -/

/-- A long question is cut after 47 bytes; none where that panics. -/
def truncateQuestion (question : String) : Option String :=
  if question.utf8ByteSize ≤ 50 then some question
  else (splitBytes question.toList 47).map (fun p => .ofList p.1)

namespace QuestionAnswerState
variable (questions : QuestionBlock) (s : QuestionAnswerState)

/-- The text that is typed for `Other`, where it is selected and counts. -/
def otherAnswer (i : ℕ) : Option String :=
  let text := (s.otherText[i]?.map Tools.trim).getD ""
  if s.otherSelected[i]?.getD false && !text.isEmpty then some text else none

def answerParts (i : ℕ) (q : ClarifyingQuestion) : List String :=
  (((s.selectedOptions[i]?.getD []).zip q.options).filter (·.1)).map (·.2) ++
    (s.otherAnswer i).toList

/-- The part of a question with answers; none where it panics. -/
def formatQuestion (i : ℕ) (q : ClarifyingQuestion) : Option (List String) :=
  match s.answerParts i q with
  | [] => some []
  | [answer] =>
    (truncateQuestion q.question).map (fun question => ["For \"" ++ question ++ "\": " ++ answer])
  | parts =>
    (truncateQuestion q.question).map (fun question =>
      ["For \"" ++ question ++ "\": " ++ ", ".intercalate parts.dropLast ++ " and " ++
        parts.getLastD ""])

def formatAnswersNatural : Option String :=
  (questions.zipIdx.mapM (fun p => s.formatQuestion p.2 p.1)).map (fun parts =>
    if parts.flatten.isEmpty then "I'd like to proceed with your default recommendations."
    else "\n\n".intercalate parts.flatten)

end QuestionAnswerState

/-- No panic where the question is put in front of its answer. -/
def Sliceable (question : String) : Prop :=
  question.utf8ByteSize ≤ 50 ∨ Boundary question.toList 47

instance (question : String) : Decidable (Sliceable question) :=
  inferInstanceAs (Decidable (_ ∨ _))

theorem truncateQuestion_isSome (question : String) :
    (truncateQuestion question).isSome = true ↔ Sliceable question := by
  rw [truncateQuestion,Sliceable]
  by_cases h : question.utf8ByteSize ≤ 50
  · rw [if_pos h]
    exact ⟨fun _ => .inl h,fun _ => rfl⟩
  · rw [if_neg h,Option.isSome_map,Option.isSome_iff_exists,← boundary_iff]
    exact ⟨.inr,fun hs => hs.resolve_left h⟩

/-! ## What the operations keep -/

namespace QuestionAnswerState

/-- How many of its options and `Other` are selected for a question. -/
def choices (s : QuestionAnswerState) (i : ℕ) : ℕ :=
  (s.selectedOptions[i]?.getD []).countP id + if s.otherSelected[i]?.getD false then 1 else 0

/-- The vectors fit the block, index and cursor point into it, and a single-select question has
one answer at most. -/
structure Sound (questions : QuestionBlock) (s : QuestionAnswerState) : Prop where
  index : s.currentQuestionIdx < questions.length ∨ questions = []
  cursor : s.cursorIdx < s.totalItems questions
  options : s.selectedOptions.map List.length = questions.map (·.options.length)
  other : s.otherSelected.length = questions.length
  single : ∀ i q, questions[i]? = some q → q.multiSelect = false → s.choices i ≤ 1

variable {questions : QuestionBlock} {s : QuestionAnswerState} {q : ClarifyingQuestion} {i : ℕ}

theorem countP_cleared (selected : List Bool) : (selected.map (fun _ => false)).countP id = 0 := by
  rw [List.countP_eq_zero]
  intro b hb
  obtain ⟨_,_,rfl⟩ := List.mem_map.mp hb
  exact Bool.false_ne_true

theorem countP_chosen (selected : List Bool) (cursor : ℕ) :
    ((selected.map (fun _ => false)).modify cursor (fun _ => true)).countP id ≤ 1 := by
  induction selected generalizing cursor with
  | nil => simp
  | cons b selected ih =>
    cases cursor with
    | zero =>
      rw [List.map_cons,List.modify_zero_cons,List.countP_cons,countP_cleared]
      simp
    | succ cursor =>
      rw [List.map_cons,List.modify_succ_cons,List.countP_cons]
      exact ih cursor

theorem map_length_modify {f : List Bool → List Bool} (hf : ∀ l, (f l).length = l.length)
    (ls : List (List Bool)) (i : ℕ) : (ls.modify i f).map List.length = ls.map List.length := by
  induction ls generalizing i with
  | nil => simp
  | cons l ls ih =>
    cases i with
    | zero => rw [List.modify_zero_cons,List.map_cons,List.map_cons,hf]
    | succ i => rw [List.modify_succ_cons,List.map_cons,List.map_cons,ih]

theorem choices_new : (new questions).choices i = 0 := by
  have hoptions : ((new questions).selectedOptions[i]?.getD []).countP id = 0 := by
    rw [List.countP_eq_zero]
    simp only [new,List.getElem?_map]
    cases questions[i]? with
    | none => exact List.forall_mem_nil _
    | some q =>
      intro b hb
      rw [Option.map_some,Option.getD_some,List.mem_replicate] at hb
      rw [hb.2]
      exact Bool.false_ne_true
  have hother : (new questions).otherSelected[i]?.getD false = false := by
    simp only [new,List.getElem?_replicate]
    split <;> rfl
  rw [choices,hoptions,hother]
  rfl

theorem sound_new (questions : QuestionBlock) : (new questions).Sound questions where
  index := by
    cases questions with
    | nil => exact .inr rfl
    | cons q questions => exact .inl (Nat.succ_pos _)
  cursor := by
    rw [totalItems]
    split <;> exact Nat.succ_pos _
  options := by
    simp [new]
  other := List.length_replicate
  single _ _ _ _ := by
    rw [choices_new]
    exact Nat.zero_le _

/-- An operation that leaves the vectors of selections. -/
theorem Sound.navigate {t : QuestionAnswerState} (h : s.Sound questions)
    (hindex : t.currentQuestionIdx < questions.length ∨ questions = [])
    (hcursor : t.cursorIdx < t.totalItems questions) (hoptions : t.selectedOptions = s.selectedOptions)
    (hother : t.otherSelected = s.otherSelected) : t.Sound questions where
  index := hindex
  cursor := hcursor
  options := hoptions ▸ h.options
  other := hother ▸ h.other
  single i q hq hm := by
    rw [choices,hoptions,hother]
    exact h.single i q hq hm

/-- What the toggle makes of the options of the current question. -/
def toggleOptions (q : ClarifyingQuestion) (cursor : ℕ) (selected : List Bool) : List Bool :=
  if cursor < q.options.length then
    if q.multiSelect then selected.modify cursor (!·)
    else (selected.map (fun _ => false)).modify cursor (fun _ => true)
  else if q.multiSelect then selected
  else selected.map (fun _ => false)

def toggleOther (q : ClarifyingQuestion) (cursor : ℕ) (other : Bool) : Bool :=
  if cursor < q.options.length then if q.multiSelect then other else false
  else if q.multiSelect then !other
  else true

theorem toggleCurrent_eq (hq : questions[s.currentQuestionIdx]? = some q) :
    s.toggleCurrent questions = { s with
      selectedOptions := s.selectedOptions.modify s.currentQuestionIdx (toggleOptions q s.cursorIdx)
      otherSelected := s.otherSelected.modify s.currentQuestionIdx (toggleOther q s.cursorIdx) } := by
  simp only [toggleCurrent,hq]
  by_cases hcursor : s.cursorIdx < q.options.length
  · cases hm : q.multiSelect with
    | true =>
      have hoptions : toggleOptions q s.cursorIdx = (·.modify s.cursorIdx (!·)) := by
        funext selected
        simp [toggleOptions,hcursor,hm]
      have hother : toggleOther q s.cursorIdx = id := by
        funext other
        simp [toggleOther,hcursor,hm]
      simp [hoptions,hother,hcursor]
    | false =>
      have hoptions : toggleOptions q s.cursorIdx =
          fun selected => (selected.map (fun _ => false)).modify s.cursorIdx (fun _ => true) := by
        funext selected
        simp [toggleOptions,hcursor,hm]
      have hother : toggleOther q s.cursorIdx = fun _ => false := by
        funext other
        simp [toggleOther,hcursor,hm]
      simp [hoptions,hother,hcursor]
  · cases hm : q.multiSelect with
    | true =>
      have hoptions : toggleOptions q s.cursorIdx = id := by
        funext selected
        simp [toggleOptions,hcursor,hm]
      have hother : toggleOther q s.cursorIdx = (!·) := by
        funext other
        simp [toggleOther,hcursor,hm]
      simp [hoptions,hother,hcursor]
    | false =>
      have hoptions : toggleOptions q s.cursorIdx = fun selected => selected.map (fun _ => false) := by
        funext selected
        simp [toggleOptions,hcursor,hm]
      have hother : toggleOther q s.cursorIdx = fun _ => true := by
        funext other
        simp [toggleOther,hcursor,hm]
      simp [hoptions,hother,hcursor]

theorem length_toggleOptions (q : ClarifyingQuestion) (cursor : ℕ) (selected : List Bool) :
    (toggleOptions q cursor selected).length = selected.length := by
  rw [toggleOptions]
  split
  · split
    · rw [List.length_modify]
    · rw [List.length_modify,List.length_map]
  · split
    · rfl
    · rw [List.length_map]

/-- A single choice takes the place of what was selected before. -/
theorem toggle_single (hm : q.multiSelect = false) (cursor : ℕ) (selected : List Bool)
    (other : Bool) : (toggleOptions q cursor selected).countP id +
      (if toggleOther q cursor other then 1 else 0) ≤ 1 := by
  rw [toggleOptions,toggleOther,hm]
  by_cases hcursor : cursor < q.options.length
  · have hchosen := countP_chosen selected cursor
    simpa [hcursor] using hchosen
  · have hcleared := countP_cleared selected
    simp [hcursor]

theorem Sound.toggleCurrent (h : s.Sound questions) : (s.toggleCurrent questions).Sound questions := by
  cases hq : questions[s.currentQuestionIdx]? with
  | none =>
    have hs : s.toggleCurrent questions = s := by simp only [QuestionAnswerState.toggleCurrent,hq]
    rw [hs]
    exact h
  | some q =>
    rw [toggleCurrent_eq hq]
    refine ⟨h.index,h.cursor,?_,?_,?_⟩
    · rw [map_length_modify (length_toggleOptions q s.cursorIdx)]
      exact h.options
    · rw [List.length_modify]
      exact h.other
    · intro i q' hq' hm
      have hi := h.single i q' hq' hm
      rw [choices] at hi ⊢
      by_cases heq : s.currentQuestionIdx = i
      · subst heq
        obtain rfl := Option.some.inj (hq.symm.trans hq')
        rw [List.getElem?_modify_eq,List.getElem?_modify_eq]
        have htoggle := toggle_single hm s.cursorIdx
        cases s.selectedOptions[s.currentQuestionIdx]? with
        | none =>
          split
          · exact le_rfl
          · exact Nat.zero_le _
        | some selected =>
          cases s.otherSelected[s.currentQuestionIdx]? with
          | none => exact le_trans (Nat.le_add_right _ _) (htoggle selected false)
          | some other => exact htoggle selected other
      · rw [List.getElem?_modify_ne _ _ heq,List.getElem?_modify_ne _ _ heq]
        exact hi

theorem totalItems_pos : 0 < s.totalItems questions := by
  rw [totalItems]
  split <;> exact Nat.succ_pos _

theorem Sound.op (h : s.Sound questions) (o : Op) : (s.op questions o).Sound questions := by
  cases o with
  | toggleCurrent => exact h.toggleCurrent
  | cursorUp => exact h.navigate h.index (lt_of_le_of_lt (Nat.sub_le _ _) h.cursor) rfl rfl
  | cursorDown =>
    rw [QuestionAnswerState.op,cursorDown]
    split
    · rename_i hlt
      have hcursor : s.cursorIdx + 1 < s.totalItems questions := by omega
      exact h.navigate h.index hcursor rfl rfl
    · exact h
  | nextQuestion =>
    rw [QuestionAnswerState.op,nextQuestion]
    split
    · rename_i hlt
      exact h.navigate (.inl hlt) totalItems_pos rfl rfl
    · exact h
  | prevQuestion =>
    rw [QuestionAnswerState.op,prevQuestion]
    split
    · refine h.navigate (h.index.imp_left (fun hlt => ?_)) totalItems_pos rfl rfl
      exact lt_of_le_of_lt (Nat.sub_le _ _) hlt
    · exact h
  | appendOtherChar c => exact h.navigate h.index h.cursor rfl rfl
  | backspaceOther => exact h.navigate h.index h.cursor rfl rfl
  | setEditingOther editing => exact h.navigate h.index h.cursor rfl rfl

/-- The panel after some operations. -/
def after (questions : QuestionBlock) (ops : List Op) : QuestionAnswerState :=
  ops.foldl (op questions) (new questions)

theorem sound_after (questions : QuestionBlock) (ops : List Op) :
    (after questions ops).Sound questions := by
  induction ops using List.reverseRecOn with
  | nil => exact sound_new questions
  | append_singleton ops o ih =>
    rw [after,List.foldl_append]
    exact ih.op o

/-! ## What the answers say -/

theorem labels_eq_nil_iff {selected : List Bool} {labels : List String}
    (h : selected.length = labels.length) :
    (((selected.zip labels).filter (·.1)).map (·.2)) = [] ↔ selected.any id = false := by
  induction selected generalizing labels with
  | nil => exact ⟨fun _ => rfl,fun _ => rfl⟩
  | cons b selected ih =>
    cases labels with
    | nil => cases h
    | cons label labels =>
      have htail := ih (Nat.succ.inj h)
      cases b with
      | true => simp
      | false => simpa using htail

theorem Sound.selected (h : s.Sound questions) (hq : questions[i]? = some q) :
    ∃ selected, s.selectedOptions[i]? = some selected ∧ selected.length = q.options.length := by
  have hi := congrArg (·[i]?) h.options
  simp only [List.getElem?_map,hq,Option.map_some] at hi
  obtain ⟨selected,hs,hlen⟩ := Option.map_eq_some_iff.mp hi
  exact ⟨selected,hs,hlen⟩

theorem otherAnswer_eq_none_iff : s.otherAnswer i = none ↔ (s.otherSelected[i]?.getD false &&
    (s.otherText[i]?.map (fun text => !(Tools.trim text).isEmpty)).getD false) = false := by
  rw [otherAnswer]
  cases s.otherText[i]? with
  | none => simp
  | some text => cases s.otherSelected[i]?.getD false <;> simp

theorem answerParts_eq_nil_iff (h : s.Sound questions) (hq : questions[i]? = some q) :
    s.answerParts i q = [] ↔ s.answered i = false := by
  obtain ⟨selected,hs,hlen⟩ := h.selected hq
  rw [answerParts,answered,hs,List.append_eq_nil_iff,Option.getD_some,labels_eq_nil_iff hlen,
    Option.map_some,Option.getD_some,Bool.or_eq_false_iff,← otherAnswer_eq_none_iff]
  cases s.otherAnswer i <;> simp

theorem formatQuestion_of_unanswered (h : s.Sound questions) (hq : questions[i]? = some q)
    (ha : s.answered i = false) : s.formatQuestion i q = some [] := by
  rw [formatQuestion,(answerParts_eq_nil_iff h hq).mpr ha]

/-- An answered question is emitted, or panics. -/
theorem formatQuestion_of_answered (h : s.Sound questions) (hq : questions[i]? = some q)
    (ha : s.answered i = true) : ∃ answer : String → String,
      s.formatQuestion i q = (truncateQuestion q.question).map (fun question => [answer question]) := by
  have hne : s.answerParts i q ≠ [] := by
    intro hnil
    have hno := (answerParts_eq_nil_iff h hq).mp hnil
    rw [ha] at hno
    cases hno
  rw [formatQuestion]
  split
  · rename_i hparts
    exact absurd hparts hne
  · exact ⟨_,rfl⟩
  · exact ⟨_,rfl⟩

theorem formatQuestion_isSome (h : s.Sound questions) (hq : questions[i]? = some q) :
    (s.formatQuestion i q).isSome = true ↔ (s.answered i = true → Sliceable q.question) := by
  cases ha : s.answered i with
  | false =>
    rw [formatQuestion_of_unanswered h hq ha]
    exact ⟨fun _ hf => absurd hf Bool.false_ne_true,fun _ => rfl⟩
  | true =>
    obtain ⟨answer,hformat⟩ := formatQuestion_of_answered h hq ha
    rw [hformat,Option.isSome_map,truncateQuestion_isSome]
    exact ⟨fun hs _ => hs,fun hs => hs rfl⟩

theorem emitted_iff (h : s.Sound questions) (hq : questions[i]? = some q)
    (hs : (s.formatQuestion i q).isSome = true) :
    (∃ answer, s.formatQuestion i q = some [answer]) ↔ s.answered i = true := by
  cases ha : s.answered i with
  | false =>
    rw [formatQuestion_of_unanswered h hq ha]
    constructor
    · rintro ⟨answer,hanswer⟩
      cases hanswer
    · intro hf
      cases hf
  | true =>
    obtain ⟨answer,hformat⟩ := formatQuestion_of_answered h hq ha
    rw [hformat,Option.isSome_map] at hs
    obtain ⟨question,hquestion⟩ := Option.isSome_iff_exists.mp hs
    refine ⟨fun _ => rfl,fun _ => ⟨answer question,?_⟩⟩
    rw [hformat,hquestion,Option.map_some]

theorem allAnswered_iff : s.allAnswered questions = true ↔
    ∀ i q, questions[i]? = some q → s.answered i = true := by
  rw [allAnswered,List.all_eq_true]
  constructor
  · intro h i q hq
    exact h (q,i) (List.mk_mem_zipIdx_iff_getElem?.mpr hq)
  · rintro h ⟨q,i⟩ hp
    exact h i q (List.mk_mem_zipIdx_iff_getElem?.mp hp)

theorem mapM_isSome {α β : Type} (f : α → Option β) (l : List α) :
    (l.mapM f).isSome = true ↔ ∀ a ∈ l, (f a).isSome = true := by
  induction l with
  | nil => simp
  | cons a l ih =>
    rw [List.mapM_cons,List.forall_mem_cons,← ih]
    cases f a with
    | none => simp
    | some b => cases l.mapM f <;> simp

theorem formatAnswersNatural_isSome : (s.formatAnswersNatural questions).isSome = true ↔
    ∀ i q, questions[i]? = some q → (s.formatQuestion i q).isSome = true := by
  rw [formatAnswersNatural,Option.isSome_map,mapM_isSome]
  constructor
  · intro h i q hq
    exact h (q,i) (List.mk_mem_zipIdx_iff_getElem?.mpr hq)
  · rintro h ⟨q,i⟩ hp
    exact h i q (List.mk_mem_zipIdx_iff_getElem?.mp hp)

/-- What is asked of the panel at any time: index and cursor are in range, a single choice is one,
all is answered just when the text that is sent answers every question, and there is a text. -/
structure InOrder (questions : QuestionBlock) (s : QuestionAnswerState) : Prop where
  index : s.currentQuestionIdx < questions.length
  cursor : s.cursorIdx < s.totalItems questions
  single : ∀ i q, questions[i]? = some q → q.multiSelect = false → s.choices i ≤ 1
  answers : s.allAnswered questions = true ↔
    ∀ i q, questions[i]? = some q → ∃ answer, s.formatQuestion i q = some [answer]
  formats : (s.formatAnswersNatural questions).isSome = true

/-- After any operations on a block all is in order exactly when the block has a question, and no
answered question of more than 50 bytes has byte 47 inside a character. -/
theorem inOrder_iff (questions : QuestionBlock) (ops : List Op) :
    (after questions ops).InOrder questions ↔ questions ≠ [] ∧
      ∀ i q, questions[i]? = some q → (after questions ops).answered i = true →
        Sliceable q.question := by
  have h := sound_after questions ops
  constructor
  · intro ho
    constructor
    · intro hnil
      have hlt := ho.index
      rw [hnil] at hlt
      exact absurd hlt (Nat.not_lt_zero _)
    · intro i q hq
      exact (formatQuestion_isSome h hq).mp (formatAnswersNatural_isSome.mp ho.formats i q hq)
  · rintro ⟨hne,hs⟩
    have hformats : ∀ i q, questions[i]? = some q →
        ((after questions ops).formatQuestion i q).isSome = true := fun i q hq =>
      (formatQuestion_isSome h hq).mpr (hs i q hq)
    refine ⟨h.index.resolve_right hne,h.cursor,h.single,?_,formatAnswersNatural_isSome.mpr hformats⟩
    rw [allAnswered_iff]
    refine forall_congr' (fun i => forall_congr' (fun q => forall_congr' (fun hq => ?_)))
    exact (emitted_iff h hq (hformats i q hq)).symm

end QuestionAnswerState

/-- A question of 53 bytes, of which byte 47 is inside a character. -/
def longQuestion : ClarifyingQuestion :=
  ⟨"Which of the authentication methods for my caf\u00e9 app?",["JWT","Sessions"],false⟩

/-- The first option is selected, and the text for the answer panics. -/
theorem longQuestion_panics : ¬ ∀ questions ops,
    (QuestionAnswerState.after questions ops).InOrder questions := by
  intro h
  exact absurd (h [longQuestion] [.toggleCurrent]).formats (by decide +kernel)

end Rullama.Question
