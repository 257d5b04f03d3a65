import Rullama.Shell.Lexer

/-! # The first simple command

Reading on never takes back what has been read of the first command at the outermost level:
its finished tokens stay its first tokens, and a word under way is the beginning of the next
one, unless it turns out to be the number of a redirection.
-/
namespace Rullama.Shell

/-- What is known of a command: its finished tokens and the word under way. -/
abbrev Known := Command × Option Word

def Extends (a b : Known) : Prop :=
  a.1 <+: b.1 ∧ ∀ w ∈ a.2, w.all isDigit = false →
    ∃ w', w <+: w' ∧ (b = (a.1,some w') ∨ a.1 ++ [.word w'] <+: b.1)

theorem Extends.refl (a : Known) : Extends a a :=
  ⟨List.prefix_rfl,fun w hw _ => ⟨w,List.prefix_rfl,.inl (Prod.ext rfl hw)⟩⟩

theorem all_isDigit_extend {w w' : Word} (h : w <+: w') (hw : w.all isDigit = false) :
    w'.all isDigit = false := by
  obtain ⟨r,rfl⟩ := h
  rw [List.all_append,hw,Bool.false_and]

theorem Extends.trans {a b c : Known} (h : Extends a b) (h' : Extends b c) : Extends a c := by
  refine ⟨h.1.trans h'.1,fun w hw hd => ?_⟩
  obtain ⟨w',hp,rfl | hb⟩ := h.2 w hw hd
  · obtain ⟨w'',hp',hc⟩ := h'.2 w' rfl (all_isDigit_extend hp hd)
    exact ⟨w'',hp.trans hp',hc⟩
  · exact ⟨w',hp,.inr (hb.trans h'.1)⟩

namespace Frame
variable (f : Frame)

def known : Known := (f.tokens,f.word)

theorem push_extends (c : Char) (quoted : Bool) : Extends f.known (f.push c quoted).known := by
  refine ⟨List.prefix_rfl,fun w hw _ => ⟨w ++ [(c,quoted)],List.prefix_append _ _,.inl ?_⟩⟩
  have hf : f.word = some w := hw
  simp [known,push,hf]

theorem openWord_extends : Extends f.known f.openWord.known := by
  refine ⟨List.prefix_rfl,fun w hw _ => ⟨w,List.prefix_rfl,.inl ?_⟩⟩
  have hf : f.word = some w := hw
  simp [known,openWord,hf]

theorem endWord_word : f.endWord.word = none := by
  cases h : f.word with
  | none => simp [endWord,h]
  | some w => simp [endWord,h]

theorem endWord_extends : Extends f.known f.endWord.known := by
  cases h : f.word with
  | none =>
    simp only [endWord,h]
    exact .refl _
  | some w =>
    simp only [endWord,h]
    refine ⟨List.prefix_append _ _,fun v hv _ => ⟨w,?_,.inr List.prefix_rfl⟩⟩
    have hv : f.word = some v := hv
    cases h.symm.trans hv
    exact List.prefix_rfl

theorem redirect_extends : Extends f.known f.redirect.known := by
  cases h : f.word with
  | none =>
    simp only [redirect,h]
    refine ⟨List.prefix_append _ _,fun v hv => ?_⟩
    cases h.symm.trans (show f.word = some v from hv)
  | some w =>
    simp only [redirect,h]
    split
    · refine ⟨List.prefix_append _ _,fun v hv hd => ?_⟩
      cases h.symm.trans (show f.word = some v from hv)
      rename_i hn
      rw [hd] at hn
      exact absurd hn.2 Bool.false_ne_true
    · refine ⟨List.prefix_append _ _,fun v hv _ => ⟨w,?_,.inr ⟨[.redirect],by simp [known]⟩⟩⟩
      cases h.symm.trans (show f.word = some v from hv)
      exact List.prefix_rfl

end Frame

namespace Lexer
variable (s : Lexer)

/-- The frame of the outermost level. -/
def bottomOf : Frame → List (Closer × Frame) → Frame
  | f, [] => f
  | _, (_,f) :: rest => bottomOf f rest

/-- What is known of the first command at the outermost level. -/
def first : Known :=
  match s.top with
  | [] => (bottomOf s.frame s.stack).known
  | c :: _ => (c,none)

theorem frame_extends {s : Lexer} {f : Frame} (h : Extends s.frame.known f.known) (m : Mode) :
    Extends s.first { s with frame := f, mode := m }.first := by
  obtain ⟨mode,frame,stack,top,inner⟩ := s
  cases top with
  | cons c cs => exact .refl _
  | nil =>
    cases stack with
    | nil => exact h
    | cons x xs => exact .refl _

theorem push_extends (c : Char) (quoted : Bool) (m : Mode) :
    Extends s.first { s.push c quoted with mode := m }.first :=
  frame_extends (s.frame.push_extends c quoted) m

theorem endCommand_stack : s.endCommand.stack = s.stack := by
  simp only [endCommand]
  split
  · rfl
  · split <;> simp [*]

theorem endCommand_extends : Extends s.first s.endCommand.first := by
  have hw : Extends s.frame.known (s.frame.endWord.tokens,none) := by
    have h := s.frame.endWord_extends
    rwa [Frame.known,Frame.known,Frame.endWord_word] at h
  obtain ⟨mode,frame,stack,top,inner⟩ := s
  cases he : frame.endWord.tokens with
  | nil =>
    simp only [endCommand,he]
    rw [he] at hw
    exact frame_extends (s := ⟨mode,frame,stack,top,inner⟩)
      (f := { frame with tokens := [], word := none }) hw mode
  | cons t ts =>
    rw [he] at hw
    simp only [endCommand,he]
    cases top with
    | cons c cs =>
      cases stack <;> exact .refl _
    | nil =>
      cases stack with
      | nil => exact hw
      | cons x xs => exact .refl _

theorem close_extends : Extends s.first s.close.first := by
  apply s.endCommand_extends.trans
  cases hs : s.endCommand.stack with
  | nil =>
    simp only [close,hs]
    exact .refl _
  | cons x xs =>
    have he : s.close.first = s.endCommand.first := by
      simp only [close,hs,first]
      rfl
    rw [he]
    exact .refl _

theorem backquote_extends : Extends s.first s.backquote.first := by
  simp only [backquote]
  split
  · exact s.close_extends
  · exact s.push_extends _ _ _

theorem rightParen_extends : Extends s.first s.rightParen.first := by
  simp only [rightParen]
  split
  · exact s.close_extends
  · exact s.endCommand_extends

theorem quotedChar_extends (c : Char) : Extends s.first (s.quotedChar c).first := by
  simp only [quotedChar]
  split
  · exact frame_extends (f := { s.frame with double := false }) (.refl _) _
  · exact frame_extends (.refl _) _
  · exact s.push_extends _ _ _
  · exact s.backquote_extends
  · exact s.push_extends _ _ _

theorem bareChar_extends (c : Char) : Extends s.first (s.bareChar c).first := by
  simp only [bareChar]
  split
  · exact frame_extends s.frame.openWord_extends _
  · exact frame_extends (f := { s.frame.openWord with double := true })
      s.frame.openWord_extends _
  · exact frame_extends (.refl _) _
  · exact s.push_extends _ _ _
  · exact s.backquote_extends
  · exact frame_extends s.frame.endWord_extends _
  · exact frame_extends s.frame.endWord_extends _
  · exact s.endCommand_extends
  · exact s.endCommand_extends
  · exact s.endCommand_extends
  · exact s.endCommand_extends
  · exact .refl _
  · exact s.rightParen_extends
  · exact frame_extends s.frame.redirect_extends _
  · exact frame_extends s.frame.redirect_extends _
  · split
    · exact frame_extends (.refl _) _
    · exact s.push_extends _ _ _
  · exact s.push_extends _ _ _

theorem plainChar_extends (c : Char) : Extends s.first (s.plainChar c).first := by
  simp only [plainChar]
  split
  · exact s.quotedChar_extends c
  · exact s.bareChar_extends c

theorem escapedChar_extends (c : Char) : Extends s.first (s.escapedChar c).first := by
  simp only [escapedChar]
  split
  · exact .refl _
  · split
    · exact (s.push_extends '\\' true s.mode).trans (push_extends _ c true s.mode)
    · exact s.push_extends c true s.mode

/-- One more character. -/
theorem step_extends (c : Char) : Extends s.first (s.step c).first := by
  have hp : Extends s.first { s with mode := .plain }.first := frame_extends (.refl _) _
  simp only [step]
  split
  · exact s.plainChar_extends c
  · split
    · exact hp
    · exact s.push_extends c true s.mode
  · exact hp.trans (escapedChar_extends _ c)
  · split
    · exact hp
    · exact hp.trans (plainChar_extends _ c)
  · split
    · exact hp
    · exact hp.trans (plainChar_extends _ c)
  · split
    · exact hp.trans (plainChar_extends _ c)
    · exact .refl _

theorem foldl_extends (text : List Char) : Extends s.first (text.foldl step s).first := by
  induction text generalizing s with
  | nil => exact .refl _
  | cons c text ih => exact (s.step_extends c).trans (ih (s.step c))

theorem finish_extends : Extends s.first s.finish.first := by
  have hc : ∀ (l : List (Closer × Frame)) (s : Lexer),
      Extends s.first (l.foldl (fun s _ => s.close) s).first := by
    intro l
    induction l with
    | nil => exact fun s => .refl _
    | cons x l ih => exact fun s => s.close_extends.trans (ih s.close)
  exact (hc s.stack s).trans (endCommand_extends _)

/-! ## The end of the line -/

theorem endCommand_known : s.endCommand.frame.known = ([],none) := by
  simp only [endCommand]
  split
  · rfl
  · split <;> rfl

theorem close_stack : s.close.stack = s.stack.tail := by
  cases hs : s.stack with
  | nil => simp [close,s.endCommand_stack,hs]
  | cons x xs => simp [close,s.endCommand_stack,hs]

theorem foldl_close_stack (l : List (Closer × Frame)) (s : Lexer) :
    (l.foldl (fun s _ => s.close) s).stack = s.stack.drop l.length := by
  induction l generalizing s with
  | nil => rfl
  | cons x l ih => rw [List.foldl_cons,ih,s.close_stack,List.drop_tail,List.length_cons]

/-- At the end of the line nothing is under way: what is known is the first command. -/
theorem finish_first : s.finish.first = (s.finish.top.head?.getD [],none) := by
  have hs : s.finish.stack = [] := by
    rw [finish,endCommand_stack,foldl_close_stack,List.drop_length]
  cases ht : s.finish.top with
  | cons c cs =>
    simp only [first,ht]
    rfl
  | nil =>
    simp only [first,ht,hs,bottomOf]
    exact endCommand_known _

end Lexer

variable {text : List Char}

theorem read_extends (text rest : List Char) : Extends (Lexer.read text).first
    ((outerCommands (text ++ rest)).head?.getD [],none) := by
  rw [outerCommands,← Lexer.finish_first,Lexer.read,Lexer.read,List.foldl_append]
  exact (Lexer.foldl_extends _ rest).trans (Lexer.finish_extends _)

/-- A text that ends between two words of the first command: the command begins with those
read so far. -/
theorem outerCommands_of_tokens {ts : Command} (rest : List Char) (h : (Lexer.read text).first = (ts,none))
    (hn : ts ≠ []) : ∃ args, (outerCommands (text ++ rest)).head? = some (ts ++ args) := by
  have he := (read_extends text rest).1
  rw [h] at he
  obtain ⟨args,ha⟩ := he
  cases hh : (outerCommands (text ++ rest)).head? with
  | none =>
    rw [hh] at ha
    exact absurd (List.append_eq_nil_iff.mp ha).1 hn
  | some c =>
    rw [hh] at ha
    exact ⟨args,congrArg some ha.symm⟩

/-- The text reads as one simple command, alone and with more behind a blank. -/
structure IsSimple (text : List Char) (c : Command) : Prop where
  nonempty : c ≠ []
  alone : outerCommands text = [c]
  followed : (Lexer.read (text ++ [' '])).first = (c,none)

/-- Whatever follows it, it is what the first command begins with. -/
theorem IsSimple.head {c : Command} (h : IsSimple text c) (rest : List Char) :
    ∃ args, (outerCommands (text ++ ' ' :: rest)).head? = some (c ++ args) := by
  rw [List.append_cons]
  exact outerCommands_of_tokens rest h.followed h.nonempty

/-- A text that ends inside the first word: the first word goes on from there. -/
theorem outerCommands_of_word {w : Word} (rest : List Char) (h : (Lexer.read text).first = ([],some w))
    (hd : w.all isDigit = false) : ∃ w' args, w <+: w' ∧
      (outerCommands (text ++ rest)).head? = some (.word w' :: args) := by
  have he := (read_extends text rest).2 w (by rw [h]; rfl) hd
  rw [h] at he
  obtain ⟨w',hp,hc | ⟨args,ha⟩⟩ := he
  · cases (Prod.mk.inj hc).2
  · refine ⟨w',args,hp,?_⟩
    cases hh : (outerCommands (text ++ rest)).head? with
    | none =>
      rw [hh] at ha
      exact absurd ha (List.cons_ne_nil _ _)
    | some c =>
      rw [hh] at ha
      exact congrArg some ha.symm

end Rullama.Shell
