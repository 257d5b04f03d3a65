import Mathlib.Data.List.DropRight
import Mathlib.Data.List.Infix
import Mathlib.Tactic.Common

/-! # Strings of code units

A JavaScript string is a sequence of UTF-16 code units, and its indices count them.
-/
namespace Rullama.Text

abbrev Units := List UInt16

def unit (c : Char) : UInt16 := c.toNat.toUInt16

/-- The code units of a literal of the source, all of them in the basic plane. -/
def units (s : String) : Units := s.toList.map unit

/-- White space and line terminators: what `trim` removes and `\s` matches. -/
def spaces : Units :=
  [0x09,0x0A,0x0B,0x0C,0x0D,0x20,0xA0,0x1680,0x2000,0x2001,0x2002,0x2003,0x2004,0x2005,0x2006,
    0x2007,0x2008,0x2009,0x200A,0x2028,0x2029,0x202F,0x205F,0x3000,0xFEFF]

def isSpace (c : UInt16) : Bool := spaces.contains c

def trimStart (s : Units) : Units := s.dropWhile isSpace

def trimEnd (s : Units) : Units := s.rdropWhile isSpace

def trim (s : Units) : Units := trimEnd (trimStart s)

/-- The digits, the letters of the basic alphabet and the underscore: what `\w` matches. -/
def isWord (c : UInt16) : Bool :=
  (unit '0' ≤ c && c ≤ unit '9') || (unit 'A' ≤ c && c ≤ unit 'Z') || c = unit '_' ||
    (unit 'a' ≤ c && c ≤ unit 'z')

def isDigit (c : UInt16) : Bool := unit '0' ≤ c && c ≤ unit '9'

def isHex (c : UInt16) : Bool :=
  isDigit c || (unit 'A' ≤ c && c ≤ unit 'F') || (unit 'a' ≤ c && c ≤ unit 'f')

/-! ## Trimming -/

variable {s t w : Units}

/-- The units of a text are gone through, not all that there are. -/
instance decidableBallUnit (p : UInt16 → Prop) [DecidablePred p] (s : Units) :
    Decidable (∀ c ∈ s, p c) := List.decidableBAll p s

def Blank (s : Units) : Prop := ∀ c ∈ s, isSpace c = true

instance (s : Units) : Decidable (Blank s) := inferInstanceAs (Decidable (∀ _ ∈ _, _))

theorem blank_nil : Blank [] := List.forall_mem_nil _

theorem trimStart_append (hw : Blank w) (s : Units) : trimStart (w ++ s) = trimStart s := by
  induction w with
  | nil => rfl
  | cons c w ih =>
    rw [trimStart,List.cons_append,List.dropWhile_cons_of_pos (hw c List.mem_cons_self)]
    exact ih (fun d hd => hw d (List.mem_cons_of_mem c hd))

theorem trim_of_blank (hw : Blank w) : trim w = [] := by
  have h := trimStart_append hw []
  rw [List.append_nil] at h
  rw [trim,h]
  rfl

theorem trimEnd_append (hw : Blank w) (s : Units) : trimEnd (s ++ w) = trimEnd s := by
  have hrev : Blank w.reverse := fun c hc => hw c (List.mem_reverse.mp hc)
  have h := trimStart_append hrev s.reverse
  rw [trimStart,trimStart] at h
  rw [trimEnd,trimEnd,List.rdropWhile,List.rdropWhile,List.reverse_append,h]

theorem exists_trimStart (s : Units) : ∃ w, Blank w ∧ s = w ++ trimStart s :=
  ⟨s.takeWhile isSpace,fun _ => List.mem_takeWhile_imp,(List.takeWhile_append_dropWhile ..).symm⟩

theorem exists_trimEnd (s : Units) : ∃ w, Blank w ∧ s = trimEnd s ++ w := by
  refine ⟨s.rtakeWhile isSpace,fun c hc => List.mem_rtakeWhile_imp hc,?_⟩
  exact (List.rdropWhile_append_rtakeWhile ..).symm

theorem exists_trim (s : Units) : ∃ w w', Blank w ∧ Blank w' ∧ s = w ++ (trim s ++ w') := by
  obtain ⟨w,hw,hs⟩ := exists_trimStart s
  obtain ⟨w',hw',ht⟩ := exists_trimEnd (trimStart s)
  exact ⟨w,w',hw,hw',hs.trans (congrArg (w ++ ·) ht)⟩

theorem trim_append_left (hw : Blank w) (s : Units) : trim (w ++ s) = trim s := by
  rw [trim,trim,trimStart_append hw]

theorem trim_append_right (hw : Blank w) (s : Units) : trim (s ++ w) = trim s := by
  induction s with
  | nil => exact trim_of_blank hw
  | cons c s ih =>
    cases hc : isSpace c with
    | true =>
      have hblank : Blank [c] := by
        intro d hd
        rw [List.mem_singleton.mp hd,hc]
      have hs : c :: s = [c] ++ s := rfl
      rw [hs,List.append_assoc,trim_append_left hblank,trim_append_left hblank,ih]
    | false =>
      have hstart (t : Units) : trimStart (c :: t) = c :: t :=
        List.dropWhile_cons_of_neg (by simp [hc])
      rw [trim,trim,List.cons_append,hstart,hstart,← List.cons_append,trimEnd_append hw]

theorem trim_trim (s : Units) : trim (trim s) = trim s := by
  obtain ⟨w,w',hw,hw',hs⟩ := exists_trim s
  have h := congrArg trim hs
  rw [trim_append_left hw,trim_append_right hw'] at h
  exact h.symm

theorem head?_trimStart {c : UInt16} (h : (trimStart s).head? = some c) : isSpace c = false := by
  have hnot := List.head?_dropWhile_not isSpace s
  rw [← trimStart,h] at hnot
  simpa using hnot

theorem head?_trim (s : Units) : (trim s).head? = (trimStart s).head? := by
  obtain ⟨w,hw,hs⟩ := exists_trimEnd (trimStart s)
  cases ht : trim s with
  | cons c t =>
    rw [← trim,ht] at hs
    rw [hs]
    rfl
  | nil =>
    rw [← trim,ht,List.nil_append] at hs
    cases hstart : trimStart s with
    | nil => rfl
    | cons c t =>
      have hc := head?_trimStart (s := s) (congrArg List.head? hstart)
      rw [hw c (hs ▸ hstart ▸ List.mem_cons_self)] at hc
      cases hc

theorem isInfix_trimStart {m : Units} {c : UInt16} (hm : m.head? = some c)
    (hc : isSpace c = false) (h : m <:+: s) : m <:+: trimStart s := by
  induction s with
  | nil => exact h
  | cons d s ih =>
    cases hd : isSpace d with
    | false =>
      rw [trimStart,List.dropWhile_cons_of_neg (by simp [hd])]
      exact h
    | true =>
      rw [trimStart,List.dropWhile_cons_of_pos hd]
      rcases List.infix_cons_iff.mp h with ⟨t,ht⟩ | h
      · cases m with
        | nil => cases hm
        | cons e m =>
          cases ht
          cases hm
          rw [hc] at hd
          cases hd
      · exact ih h

/-- Trimming keeps what neither begins nor ends with white space. -/
theorem isInfix_trim {m : Units} {c d : UInt16} (hm : m.head? = some c)
    (hc : isSpace c = false) (hlast : m.getLast? = some d) (hd : isSpace d = false)
    (h : m <:+: s) : m <:+: trim s := by
  have hstart := isInfix_trimStart hm hc h
  have hrev := isInfix_trimStart (m := m.reverse) (by rw [List.head?_reverse,hlast]) hd
    (List.reverse_infix.mpr hstart)
  rw [← List.reverse_infix]
  rwa [trim,trimEnd,List.rdropWhile,List.reverse_reverse]

theorem trim_isInfix (s : Units) : trim s <:+: s := by
  obtain ⟨w,w',-,-,hs⟩ := exists_trim s
  exact ⟨w,w',by rw [List.append_assoc]; exact hs.symm⟩

end Rullama.Text
