import Mathlib.Data.List.Basic
import Mathlib.Data.List.DropRight
import Mathlib.Tactic.Common

/-! # JSON inputs and string tests

The values that tool inputs are made of, and the string operations of the standard library
that the tool layer uses, on lists of characters.
-/
namespace Rullama.Tools

inductive Value where
  | null
  | bool (b : Bool)
  | number (literal : String)
  | string (s : String)
  | array (items : List Value)
  | object (fields : List (String × Value))

namespace Value

def get : Value → String → Option Value
  | .object fields, key => fields.lookup key
  | _, _ => none

def asStr : Value → Option String
  | .string s => some s
  | _ => none

/-- Integers only: a literal with a sign, a fraction or an exponent is no `u64`. -/
def asU64 : Value → Option ℕ
  | .number literal => literal.toNat?.filter (· < UInt64.size)
  | _ => none

def asObject : Value → Option (List (String × Value))
  | .object fields => some fields
  | _ => none

/-- `get(key).and_then(|v| v.as_str())` -/
def str (v : Value) (key : String) : Option String := (v.get key).bind asStr

end Value

/-! ## Strings -/

def startsWith (s p : String) : Bool := p.toList.isPrefixOf s.toList

def contains (s p : String) : Bool := s.toList.tails.any (p.toList.isPrefixOf ·)

def stripPrefix (s p : String) : Option String := (s.toList.dropPrefix? p.toList).map .ofList

def stripSuffix (s p : String) : Option String := (s.toList.dropSuffix? p.toList).map .ofList

/-- The white space of the Unicode standard. -/
def isWhitespace (c : Char) : Bool :=
  let n := c.toNat
  (9 ≤ n && n ≤ 13) || n = 32 || n = 0x85 || n = 0xA0 || n = 0x1680 ||
    (0x2000 ≤ n && n ≤ 0x200A) || n = 0x2028 || n = 0x2029 || n = 0x202F || n = 0x205F || n = 0x3000

def trimStart (s : String) : String := .ofList (s.toList.dropWhile isWhitespace)

def trimEnd (s : String) : String := .ofList (s.toList.rdropWhile isWhitespace)

def trim (s : String) : String := trimEnd (trimStart s)

/-- What holds of each character of a text can be computed without a look at all the others. -/
theorem forall_mem_of_all {P : Char → Prop} [DecidablePred P] {text : List Char}
    (h : (text.all fun c => decide (P c)) = true) : ∀ c ∈ text, P c :=
  fun c hc => of_decide_eq_true (List.all_eq_true.mp h c hc)

/-- A part of a split text has no separator. -/
theorem notMem_of_mem_splitOn {α : Type*} [DecidableEq α] {x : α} {xs part : List α}
    (h : part ∈ xs.splitOn x) : x ∉ part := by
  induction xs generalizing part with
  | nil =>
    have hpart : part = [] := by simpa using h
    simp [hpart]
  | cons y ys ih =>
    rw [List.splitOn_cons_eq_if_modifyHead] at h
    obtain ⟨p,ps,hp⟩ := List.exists_cons_of_ne_nil (List.splitOn_ne_nil x ys)
    rw [hp] at h ih
    by_cases hy : y = x
    · rw [if_pos (by simpa using hy)] at h
      rcases List.mem_cons.mp h with rfl | h
      · simp
      · exact ih h
    · rw [if_neg (by simpa using hy),List.modifyHead_cons] at h
      rcases List.mem_cons.mp h with rfl | h
      · simp only [List.mem_cons,not_or]
        exact ⟨Ne.symm hy,ih (.head _)⟩
      · exact ih (.tail _ h)

theorem startsWith_iff {s p : String} : startsWith s p = true ↔ ∃ t, s = p ++ t := by
  rw [startsWith,List.isPrefixOf_iff_prefix]
  constructor
  · rintro ⟨l,hl⟩
    exact ⟨.ofList l,String.toList_inj.mp (by simp [hl])⟩
  · rintro ⟨t,rfl⟩
    exact ⟨t.toList,by simp⟩

theorem stripSuffix_eq_some {s p t : String} : stripSuffix s p = some t ↔ s = t ++ p := by
  rw [stripSuffix,Option.map_eq_some_iff]
  simp only [List.dropSuffix?_eq_some_iff,beq_iff_eq]
  constructor
  · rintro ⟨l,⟨p',hl,rfl⟩,rfl⟩
    exact String.toList_inj.mp (by simp [hl])
  · rintro rfl
    exact ⟨t.toList,⟨p.toList,by simp,rfl⟩,by simp⟩

end Rullama.Tools
