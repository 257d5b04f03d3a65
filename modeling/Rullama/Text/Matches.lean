import Rullama.Text.Search
import Rullama.Text.Utf8

/-! # Leftmost matches of a text

A text with matches is a list of gaps, each with the match behind it, and a rest. The matches are
the leftmost ones if each comes as early as one can behind the match before it.
-/
namespace Rullama.Text

variable {α : Type*}

def joined : List (List α × List α) → List α → List α
  | [], rest => rest
  | (a,m) :: parts, rest => a ++ (m ++ joined parts rest)

/-- Every match is replaced. -/
def replaced (r : List α) : List (List α × List α) → List α → List α
  | [], rest => rest
  | (a,_) :: parts, rest => a ++ (r ++ replaced r parts rest)

/-- One match is replaced, if there are as many. -/
def replacedAt (r : List α) : ℕ → List (List α × List α) → List α → List α
  | _, [], rest => rest
  | 0, (a,_) :: parts, rest => a ++ (r ++ joined parts rest)
  | i + 1, (a,m) :: parts, rest => a ++ (m ++ replacedAt r i parts rest)

def Leftmost (Is : List α → Prop) : List (List α × List α) → List α → Prop
  | [], rest => ∀ a m b, rest = a ++ (m ++ b) → ¬Is m
  | (a,m) :: parts, rest => Is m ∧
      (∀ a' m' b, a ++ (m ++ joined parts rest) = a' ++ (m' ++ b) → Is m' →
        a.length ≤ a'.length) ∧ Leftmost Is parts rest

variable {Is Is' : List α → Prop} {parts parts' : List (List α × List α)}
  {rest rest' r s a b : List α}

theorem Leftmost.mem (h : Leftmost Is parts rest) : ∀ p ∈ parts, Is p.2 := by
  induction parts with
  | nil => exact List.forall_mem_nil _
  | cons p parts ih => exact List.forall_mem_cons.mpr ⟨h.1,ih h.2.2⟩

theorem leftmost_congr (h : ∀ m, Is m ↔ Is' m) :
    Leftmost Is parts rest ↔ Leftmost Is' parts rest := by
  have heq : Is = Is' := funext fun m => propext (h m)
  rw [heq]

/-- Where no match begins another one, the leftmost matches are determined. -/
theorem Leftmost.unique (hfree : ∀ m m', Is m → Is m' → m <+: m' → m = m')
    (h : Leftmost Is parts rest) (h' : Leftmost Is parts' rest')
    (ht : joined parts rest = joined parts' rest') : parts = parts' ∧ rest = rest' := by
  induction parts generalizing parts' with
  | nil =>
    cases parts' with
    | nil => exact ⟨rfl,ht⟩
    | cons p parts' => exact absurd h'.1 (h p.1 p.2 _ ht)
  | cons p parts ih =>
    cases parts' with
    | nil => exact absurd h.1 (h' p.1 p.2 _ ht.symm)
    | cons p' parts' =>
      have hlen : p.1.length = p'.1.length :=
        Nat.le_antisymm (h.2.1 p'.1 p'.2 _ ht h'.1) (h'.2.1 p.1 p.2 _ ht.symm h.1)
      obtain ⟨hgap,hmatch⟩ := List.append_inj ht hlen
      have hp : p = p' := by
        refine Prod.ext hgap ?_
        have hpre : p'.2 <+: p.2 ++ joined parts rest := ⟨_,hmatch.symm⟩
        rcases List.prefix_or_prefix_of_prefix (List.prefix_append _ _) hpre with hle | hle
        · exact hfree _ _ h.1 h'.1 hle
        · exact (hfree _ _ h'.1 h.1 hle).symm
      subst hp
      obtain ⟨rfl,hrest⟩ := ih h.2.2 h'.2.2 (List.append_cancel_left hmatch)
      exact ⟨rfl,hrest⟩

theorem cut_leftmost [DecidableEq α] {m : List α} (h : cut m s = some (a,b)) {a' b' : List α}
    (hs : s = a' ++ (m ++ b')) : a.length ≤ a'.length := by
  induction s generalizing a a' with
  | nil =>
    rw [cut] at h
    split at h
    · cases h
      exact Nat.zero_le _
    · cases h
  | cons c s ih =>
    by_cases hp : m <+: c :: s
    · rw [cut_of_isPrefix hp] at h
      cases h
      exact Nat.zero_le _
    · rw [cut_cons_of_not_isPrefix hp] at h
      obtain ⟨⟨a,b⟩,hcut,heq⟩ := Option.map_eq_some_iff.mp h
      cases heq
      cases a' with
      | nil => exact absurd ⟨b',hs.symm⟩ hp
      | cons d a' =>
        rw [List.cons_append,List.cons.injEq] at hs
        exact Nat.succ_le_succ (ih hcut hs.2)

/-! ## Bytes -/

/-- Where the matches stand, by a length of texts. -/
def ranges (len : List Char → ℕ) : ℕ → List (List Char × List Char) → List (ℕ × ℕ)
  | _, [] => []
  | pos, (a,m) :: parts =>
    (pos + len a,pos + len a + len m) :: ranges len (pos + len a + len m) parts

/-- `String::replace_range` -/
def replaceRange (text : List Char) (start stop : ℕ) (r : List Char) : Option (List Char) := do
  let (front,tail) ← splitBytes text stop
  let (head,_) ← splitBytes front start
  some (head ++ (r ++ tail))

/-- Later matches are replaced first, so that the places of the others stay as they are. One that
ends past the end is left out. -/
def replaceBack (r : List Char) : List (ℕ × ℕ) → List Char → Option (List Char)
  | [], text => some text
  | (start,stop) :: places, text => (replaceBack r places text).bind fun text =>
      if stop ≤ byteLength text then replaceRange text start stop r else some text

variable {x text m a b r rest : List Char} {parts : List (List Char × List Char)} {pos : ℕ}

theorem replaceRange_append (x m b r : List Char) :
    replaceRange (x ++ (m ++ b)) (byteLength x) (byteLength x + byteLength m) r =
      some (x ++ (r ++ b)) := by
  rw [replaceRange,← byteLength_append,← List.append_assoc,splitBytes_append]
  simp only [Option.bind_eq_bind,Option.bind_some,splitBytes_append]

theorem end_le (x m b : List Char) : byteLength x + byteLength m ≤ byteLength (x ++ (m ++ b)) := by
  rw [byteLength_append,byteLength_append]
  omega

theorem replaceBack_ranges (r x : List Char) (parts : List (List Char × List Char))
    (rest : List Char) :
    replaceBack r (ranges byteLength (byteLength x) parts) (x ++ joined parts rest) =
      some (x ++ replaced r parts rest) := by
  induction parts generalizing x with
  | nil => rfl
  | cons p parts ih =>
    obtain ⟨a,m⟩ := p
    have hrest := ih (x ++ a ++ m)
    rw [byteLength_append,byteLength_append] at hrest
    have htext : x ++ joined ((a,m) :: parts) rest = x ++ a ++ m ++ joined parts rest := by
      rw [joined,List.append_assoc,List.append_assoc]
    rw [ranges,replaceBack,htext,hrest,Option.bind_some,← byteLength_append,
      List.append_assoc (x ++ a),if_pos (end_le _ _ _),replaceRange_append,List.append_assoc]
    rfl

/-- The place of one match. -/
theorem replaceRange_ranges (r x rest : List Char) {i start stop : ℕ}
    (h : (ranges byteLength (byteLength x) parts)[i]? = some (start,stop)) :
    stop ≤ byteLength (x ++ joined parts rest) ∧
      replaceRange (x ++ joined parts rest) start stop r =
        some (x ++ replacedAt r i parts rest) := by
  induction parts generalizing x i with
  | nil => cases h
  | cons p parts ih =>
    obtain ⟨a,m⟩ := p
    have htext : x ++ joined ((a,m) :: parts) rest = x ++ a ++ (m ++ joined parts rest) := by
      rw [joined,List.append_assoc]
    rw [ranges] at h
    cases i with
    | zero =>
      cases h
      rw [htext,← byteLength_append,replaceRange_append]
      refine ⟨end_le _ _ _,?_⟩
      rw [List.append_assoc]
      rfl
    | succ i =>
      rw [List.getElem?_cons_succ,← byteLength_append,← byteLength_append] at h
      obtain ⟨hle,hreplace⟩ := ih (x ++ a ++ m) h
      rw [List.append_assoc (x ++ a)] at hle hreplace
      rw [htext]
      refine ⟨hle,hreplace.trans ?_⟩
      simp only [List.append_assoc,replacedAt]

theorem replacedAt_of_le {i : ℕ} (h : parts.length ≤ i) :
    replacedAt r i parts rest = joined parts rest := by
  induction parts generalizing i with
  | nil => cases i <;> rfl
  | cons p parts ih =>
    cases i with
    | zero => cases h
    | succ i => rw [replacedAt,joined,ih (Nat.le_of_succ_le_succ h)]

@[simp] theorem length_ranges (len : List Char → ℕ) (pos : ℕ) :
    (ranges len pos parts).length = parts.length := by
  induction parts generalizing pos with
  | nil => rfl
  | cons p parts ih => rw [ranges,List.length_cons,List.length_cons,ih]

/-- The matches do not overlap and stand between characters. -/
theorem ranges_places (hne : ∀ p ∈ parts, p.2 ≠ []) (x rest : List Char) :
    (ranges byteLength (byteLength x) parts).Pairwise (fun p q => p.2 ≤ q.1) ∧
      ∀ p ∈ ranges byteLength (byteLength x) parts, byteLength x ≤ p.1 ∧ p.1 < p.2 ∧
        Boundary (x ++ joined parts rest) p.1 ∧ Boundary (x ++ joined parts rest) p.2 := by
  induction parts generalizing x with
  | nil => exact ⟨List.Pairwise.nil,List.forall_mem_nil _⟩
  | cons p parts ih =>
    obtain ⟨a,m⟩ := p
    rw [List.forall_mem_cons] at hne
    have hm : 0 < byteLength m :=
      Nat.pos_of_ne_zero fun h => hne.1 (byteLength_eq_zero_iff.mp h)
    have htext : x ++ joined ((a,m) :: parts) rest = x ++ a ++ m ++ joined parts rest := by
      rw [joined,List.append_assoc,List.append_assoc]
    obtain ⟨hsorted,hplaces⟩ := ih hne.2 (x ++ a ++ m)
    rw [ranges,← byteLength_append,← byteLength_append,htext]
    refine ⟨List.pairwise_cons.mpr ⟨fun q hq => (hplaces q hq).1,hsorted⟩,?_⟩
    rw [List.forall_mem_cons]
    refine ⟨⟨?_,?_,?_,boundary_append _ _⟩,fun q hq => ⟨?_,(hplaces q hq).2⟩⟩
    · rw [byteLength_append]
      exact Nat.le_add_right _ _
    · simp only [byteLength_append]
      omega
    · rw [List.append_assoc (x ++ a)]
      exact boundary_append _ _
    · have hle := (hplaces q hq).1
      rw [byteLength_append,byteLength_append] at hle
      omega

end Rullama.Text
