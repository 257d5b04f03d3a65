import Rullama.Text.Matches

/-! # Find and replace

The dialog searches a lower-cased copy of the text and takes the byte places that it finds there
for places of the text itself. The Unicode tables and the regex crate are parameters.
-/
namespace Rullama.FindReplace

open Text

/-! ## Lower case -/

/-- Unicode tables: the lower case of a character, and which ones are cased or ignored beside
cased ones. -/
structure Casing where
  lower : Char → List Char
  cased : Char → Bool
  ignorable : Char → Bool
  lower_ne_nil : ∀ c, lower c ≠ []
  lower_sigma : lower 'Σ' = ['σ']

namespace Casing

variable (u : Casing)

/-- `case_ignorable_then_cased` -/
def thenCased (text : List Char) : Bool :=
  match text.dropWhile u.ignorable with
  | [] => false
  | c :: _ => u.cased c

/-- What is behind is in reverse order. A sigma that ends a word has a form of its own. -/
def toLowercaseFrom (behind : List Char) : List Char → List Char
  | [] => []
  | c :: text =>
    (if c = 'Σ' then [if u.thenCased behind && !u.thenCased text then 'ς' else 'σ']
      else u.lower c) ++ toLowercaseFrom (c :: behind) text

/-- `str::to_lowercase` -/
def toLowercase (text : List Char) : List Char := u.toLowercaseFrom [] text

/-- The lower case of each character by itself. Texts for which it is the same are equal up to
case. -/
def fold (text : List Char) : List Char := text.flatMap u.lower

end Casing

/-! ## The dialog -/

/-- The part of the state that searches and replacements use. -/
structure FindReplaceState where
  findQuery : List Char
  replaceText : List Char
  caseSensitive : Bool
  useRegex : Bool
  matchRanges : List (ℕ × ℕ)
  currentMatchIndex : ℕ
  statusMessage : Option String
deriving DecidableEq

/-- `RegexBuilder` with a query and whether case is ignored, and `find_iter` on a text. -/
abbrev Regex := List Char → Bool → Option (List Char → List (ℕ × ℕ))

/-- The byte place of the first occurrence. -/
def find (query text : List Char) : Option ℕ := (cut query text).map (fun p => byteLength p.1)

/-- The loop of `update_matches_literal`. A slice that does not begin between two characters
panics. There are not as many matches as there is fuel. -/
def scan (query searchText : List Char) : ℕ → ℕ → Option (List (ℕ × ℕ))
  | 0, _ => some []
  | fuel + 1, start => do
    let (_,rest) ← splitBytes searchText start
    match find query rest with
    | none => some []
    | some pos =>
      let byteStart := start + pos
      let byteEnd := byteStart + byteLength query
      let later ← scan query searchText fuel byteEnd
      some ((byteStart,byteEnd) :: later)

namespace FindReplaceState

variable (u : Casing) (regex : Regex) (s : FindReplaceState) (text : List Char)

def updateMatchesLiteral : Option FindReplaceState := do
  let searchText := if s.caseSensitive then text else u.toLowercase text
  let query := if s.caseSensitive then s.findQuery else u.toLowercase s.findQuery
  let matchRanges ← scan query searchText (byteLength searchText + 1) 0
  some { s with matchRanges }

def updateMatchesRegex : FindReplaceState :=
  match regex s.findQuery (!s.caseSensitive) with
  | none => { s with statusMessage := some "Invalid regex" }
  | some findIter => { s with matchRanges := findIter text }

def matchStatus : String :=
  if s.matchRanges.isEmpty then "No matches found"
  else toString (s.currentMatchIndex + 1) ++ "/" ++ toString s.matchRanges.length ++ " matches"

/-- None is a panic, here and below. -/
def updateMatches : Option FindReplaceState :=
  let s := { s with matchRanges := [], currentMatchIndex := 0 }
  if s.findQuery.isEmpty then some { s with statusMessage := none }
  else do
    let s ← if s.useRegex then some (s.updateMatchesRegex regex text)
      else s.updateMatchesLiteral u text
    some { s with statusMessage := some s.matchStatus }

def nextMatch : FindReplaceState :=
  if s.matchRanges.isEmpty then s
  else
    let s := { s with currentMatchIndex := (s.currentMatchIndex + 1) % s.matchRanges.length }
    { s with statusMessage := some s.matchStatus }

def prevMatch : FindReplaceState :=
  if s.matchRanges.isEmpty then s
  else
    let s := { s with
      currentMatchIndex := if s.currentMatchIndex = 0 then s.matchRanges.length - 1
        else s.currentMatchIndex - 1 }
    { s with statusMessage := some s.matchStatus }

def currentMatchPosition : Option (ℕ × ℕ) := s.matchRanges[s.currentMatchIndex]?

/-- The new state, the new text and the result. -/
def replaceCurrent : Option (FindReplaceState × List Char × Except String Unit) :=
  match s.currentMatchPosition with
  | some (start,stop) =>
    if stop ≤ byteLength text then do
      let text ← replaceRange text start stop s.replaceText
      let s ← s.updateMatches u regex text
      some ({ s with statusMessage := some "Replaced 1 occurrence" },text,.ok ())
    else some (s,text,.error "Match position out of bounds")
  | none => some (s,text,.error "No match to replace")

def replaceAll : Option (FindReplaceState × List Char × Except String ℕ) :=
  let count := s.matchRanges.length
  if count = 0 then some (s,text,.error "No matches to replace")
  else do
    let text ← replaceBack s.replaceText s.matchRanges text
    let s := { s with statusMessage := some ("Replaced " ++ toString count ++ " occurrence(s)") }
    let s ← s.updateMatches u regex text
    some (s,text,.ok count)

end FindReplaceState

/-! ## What is to be found -/

/-- A part of a text that is the query, if that is not empty. -/
def Same (u : Casing) (s : FindReplaceState) (m : List Char) : Prop :=
  s.findQuery ≠ [] ∧
    if s.caseSensitive then m = s.findQuery else u.fold m = u.fold s.findQuery

/-- The dialog finds the leftmost matches of a text, at their places, and replaces all of them or
one of them. -/
def Correct (u : Casing) (regex : Regex) (s : FindReplaceState) (text : List Char) : Prop :=
  ∃ s' parts rest, s.updateMatches u regex text = some s' ∧
    text = joined parts rest ∧ Leftmost (Same u s) parts rest ∧
    s'.matchRanges = ranges byteLength 0 parts ∧
    s'.matchRanges.Pairwise (fun p q => p.2 ≤ q.1) ∧
    (∀ p ∈ s'.matchRanges, p.1 < p.2 ∧ Boundary text p.1 ∧ Boundary text p.2) ∧
    (∃ t result, s'.replaceAll u regex text = some (t,replaced s.replaceText parts rest,result)) ∧
    ∀ i, ∃ t result, { s' with currentMatchIndex := i }.replaceCurrent u regex text =
      some (t,replacedAt s.replaceText i parts rest,result)

/-- In lower case the query is where it is in the text, up to case, and nowhere else. Places are
counted in the lower case of what is before them. -/
structure Regular (u : Casing) (s : FindReplaceState) (text : List Char) : Prop where
  kept : ∀ a m b, text = a ++ (m ++ b) → u.fold m = u.fold s.findQuery →
    ∃ x y, u.toLowercase text = x ++ (u.toLowercase s.findQuery ++ y) ∧
      byteLength x = byteLength (u.fold a)
  only : ∀ x y, u.toLowercase text = x ++ (u.toLowercase s.findQuery ++ y) →
    ∃ a m b, text = a ++ (m ++ b) ∧ u.fold m = u.fold s.findQuery ∧
      byteLength (u.fold a) = byteLength x

/-- The matches and what is between them have as many bytes in lower case. -/
def Aligned (u : Casing) (s : FindReplaceState) (text : List Char) : Prop :=
  ∀ parts rest, text = joined parts rest → Leftmost (Same u s) parts rest →
    ∀ p ∈ parts, byteLength (u.fold p.1) = byteLength p.1 ∧
      byteLength (u.fold p.2) = byteLength p.2

def Holds (u : Casing) (s : FindReplaceState) (text : List Char) : Prop :=
  s.caseSensitive = true ∨ s.findQuery = [] ∨ Regular u s text ∧ Aligned u s text

/-! ## The loop -/

variable {u : Casing} {regex : Regex} {s : FindReplaceState} {text : List Char}
  {parts : List (List Char × List Char)} {rest : List Char}

/-- The loop finds the leftmost occurrences behind a place. -/
theorem scan_spec {query : List Char} (hquery : query ≠ []) (x l : List Char) {fuel : ℕ}
    (hfuel : byteLength l < fuel) : ∃ parts rest, l = joined parts rest ∧
      Leftmost (· = query) parts rest ∧
      scan query (x ++ l) fuel (byteLength x) = some (ranges byteLength (byteLength x) parts) := by
  induction fuel generalizing x l with
  | zero => cases hfuel
  | succ fuel ih =>
    rw [scan,splitBytes_append]
    simp only [Option.bind_eq_bind,Option.bind_some,find]
    cases hcut : cut query l with
    | none =>
      refine ⟨[],l,rfl,?_,rfl⟩
      rintro a m b rfl rfl
      exact cut_eq_none.mp hcut ⟨a,b,List.append_assoc _ _ _⟩
    | some p =>
      obtain ⟨a,b⟩ := p
      have hl := eq_append_of_cut hcut
      have hpos : 0 < byteLength query :=
        Nat.pos_of_ne_zero fun h => hquery (byteLength_eq_zero_iff.mp h)
      have hb : byteLength b < fuel := by
        rw [hl,byteLength_append,byteLength_append] at hfuel
        omega
      obtain ⟨parts,rest,hrest,hleftmost,hscan⟩ := ih (x ++ a ++ query) b hb
      have hx : x ++ l = x ++ a ++ query ++ b := by
        rw [hl,List.append_assoc,List.append_assoc]
      rw [byteLength_append,byteLength_append] at hscan
      refine ⟨(a,query) :: parts,rest,by rw [joined,← hrest,hl],⟨rfl,?_,hleftmost⟩,?_⟩
      · rintro a' m' b' heq rfl
        rw [← hrest,← hl] at heq
        exact cut_leftmost hcut heq
      · simp only [Option.map_some,hx,hscan,Option.bind_some]
        rfl

/-! ## Lengths in lower case -/

namespace Casing

@[simp] theorem fold_append (a b : List Char) : u.fold (a ++ b) = u.fold a ++ u.fold b :=
  List.flatMap_append

theorem fold_eq_nil {a : List Char} (h : u.fold a = []) : a = [] := by
  cases a with
  | nil => rfl
  | cons c a =>
    rw [fold,List.flatMap_cons,List.append_eq_nil_iff] at h
    exact absurd h.1 (u.lower_ne_nil c)

theorem byteLength_fold_pos {a : List Char} (h : a ≠ []) : 0 < byteLength (u.fold a) :=
  Nat.pos_of_ne_zero fun hzero => h (fold_eq_nil (byteLength_eq_zero_iff.mp hzero))

/-- The forms of the sigma have as many bytes. -/
theorem byteLength_toLowercaseFrom (behind text : List Char) :
    byteLength (u.toLowercaseFrom behind text) = byteLength (u.fold text) := by
  induction text generalizing behind with
  | nil => rfl
  | cons c text ih =>
    rw [toLowercaseFrom,fold,List.flatMap_cons,byteLength_append,byteLength_append,ih,fold]
    refine congrArg (· + _) ?_
    split
    · rename_i hc
      rw [hc,u.lower_sigma]
      split
      · decide
      · rfl
    · rfl

theorem toLowercase_ne_nil {a : List Char} (h : a ≠ []) : u.toLowercase a ≠ [] := by
  intro hnil
  have hpos := byteLength_fold_pos (u := u) h
  rw [← byteLength_toLowercaseFrom [] a] at hpos
  rw [toLowercase] at hnil
  rw [hnil] at hpos
  cases hpos

/-- A prefix that is not shorter in lower case goes on from the other one. -/
theorem append_of_le {p t a y : List Char} (h : p ++ t = a ++ y)
    (hle : byteLength (u.fold p) ≤ byteLength (u.fold a)) : ∃ z, a = p ++ z ∧ t = z ++ y := by
  rcases List.append_eq_append_iff.mp h with ⟨z,hz,ht⟩ | ⟨z,rfl,rfl⟩
  · exact ⟨z,hz,ht⟩
  · rw [fold_append,byteLength_append] at hle
    have hz : z = [] := by
      by_contra hne
      have hpos := byteLength_fold_pos (u := u) hne
      omega
    subst hz
    exact ⟨[],by simp,rfl⟩

end Casing

theorem append_of_byteLength_le {x l a y : List Char} (h : x ++ l = a ++ y)
    (hle : byteLength x ≤ byteLength a) : ∃ z, a = x ++ z ∧ l = z ++ y := by
  rcases List.append_eq_append_iff.mp h with ⟨z,hz,hl⟩ | ⟨z,rfl,rfl⟩
  · exact ⟨z,hz,hl⟩
  · rw [byteLength_append] at hle
    obtain rfl : z = [] := byteLength_eq_zero_iff.mp (by omega)
    exact ⟨[],by simp,rfl⟩

/-- No match begins another one. -/
theorem same_free (m m' : List Char) (h : Same u s m) (h' : Same u s m') (hle : m <+: m') :
    m = m' := by
  obtain ⟨w,rfl⟩ := hle
  have hm := h.2
  have hm' := h'.2
  split at hm
  · rename_i hcase
    rw [if_pos hcase] at hm'
    exact hm.trans hm'.symm
  · rename_i hcase
    rw [if_neg hcase,Casing.fold_append,hm] at hm'
    rw [Casing.fold_eq_nil (List.append_right_eq_self.mp hm'),List.append_nil]

theorem same_ne_nil {m : List Char} (h : Same u s m) : m ≠ [] := by
  rintro rfl
  have hm := h.2
  split at hm
  · exact h.1 hm.symm
  · exact h.1 (Casing.fold_eq_nil hm.symm)

/-! ## Updates and replacements -/

namespace FindReplaceState

/-- The state after a search that found these places. -/
def withMatches (s : FindReplaceState) (found : List (ℕ × ℕ)) : FindReplaceState :=
  let s := { s with matchRanges := found, currentMatchIndex := 0 }
  { s with statusMessage := some s.matchStatus }

theorem updateMatches_of_query (u : Casing) (regex : Regex) (hliteral : s.useRegex = false)
    (hquery : s.findQuery ≠ []) (text : List Char) : ∃ parts rest,
      s.updateMatches u regex text = some (s.withMatches (ranges byteLength 0 parts)) ∧
      (if s.caseSensitive then text else u.toLowercase text) = joined parts rest ∧
      Leftmost (· = if s.caseSensitive then s.findQuery else u.toLowercase s.findQuery) parts
        rest := by
  have hne : (if s.caseSensitive then s.findQuery else u.toLowercase s.findQuery) ≠ [] := by
    split
    · exact hquery
    · exact Casing.toLowercase_ne_nil hquery
  obtain ⟨parts,rest,hjoined,hleftmost,hscan⟩ :=
    scan_spec hne [] (if s.caseSensitive then text else u.toLowercase text) (Nat.lt_succ_self _)
  rw [byteLength_nil,List.nil_append] at hscan
  refine ⟨parts,rest,?_,hjoined,hleftmost⟩
  have hnot : ¬s.useRegex = true := by
    rw [hliteral]
    exact Bool.false_ne_true
  rw [updateMatches]
  simp only [List.isEmpty_iff,if_neg hquery,if_neg hnot,updateMatchesLiteral]
  rw [hscan]
  rfl

theorem updateMatches_of_empty (hquery : s.findQuery = []) (text : List Char) :
    s.updateMatches u regex text =
      some { s with matchRanges := [], currentMatchIndex := 0, statusMessage := none } := by
  rw [updateMatches,hquery]
  rfl

theorem exists_updateMatches (u : Casing) (regex : Regex) (s : FindReplaceState)
    (hliteral : s.useRegex = false) (text : List Char) :
    ∃ s', s.updateMatches u regex text = some s' := by
  by_cases hquery : s.findQuery = []
  · exact ⟨_,updateMatches_of_empty hquery text⟩
  · obtain ⟨parts,-,hs,-⟩ := updateMatches_of_query u regex hliteral hquery text
    exact ⟨_,hs⟩

theorem replaceAll_ranges (hliteral : s.useRegex = false)
    (hranges : s.matchRanges = ranges byteLength 0 parts) :
    ∃ t result, s.replaceAll u regex (joined parts rest) =
      some (t,replaced s.replaceText parts rest,result) := by
  rw [replaceAll,hranges]
  simp only [length_ranges]
  split
  · rename_i hzero
    obtain rfl := List.length_eq_zero_iff.mp hzero
    exact ⟨_,_,rfl⟩
  · have hback := replaceBack_ranges s.replaceText [] parts rest
    rw [byteLength_nil,List.nil_append,List.nil_append] at hback
    rw [hback]
    simp only [Option.bind_eq_bind,Option.bind_some]
    obtain ⟨s',hs'⟩ := exists_updateMatches u regex
      { s with
        matchRanges := ranges byteLength 0 parts
        statusMessage := some ("Replaced " ++ toString parts.length ++ " occurrence(s)") }
      hliteral (replaced s.replaceText parts rest)
    rw [hs']
    exact ⟨_,_,rfl⟩

theorem replaceCurrent_ranges (hliteral : s.useRegex = false)
    (hranges : s.matchRanges = ranges byteLength 0 parts) :
    ∃ t result, s.replaceCurrent u regex (joined parts rest) =
      some (t,replacedAt s.replaceText s.currentMatchIndex parts rest,result) := by
  rw [replaceCurrent,currentMatchPosition]
  cases hplace : s.matchRanges[s.currentMatchIndex]? with
  | none =>
    rw [hranges,List.getElem?_eq_none_iff,length_ranges] at hplace
    rw [replacedAt_of_le hplace]
    exact ⟨_,_,rfl⟩
  | some place =>
    obtain ⟨start,stop⟩ := place
    rw [hranges] at hplace
    obtain ⟨hle,hreplace⟩ := replaceRange_ranges s.replaceText [] rest hplace
    rw [List.nil_append,List.nil_append] at hreplace
    rw [List.nil_append] at hle
    simp only [if_pos hle,hreplace,Option.bind_eq_bind,Option.bind_some]
    obtain ⟨s',hs'⟩ := exists_updateMatches u regex s hliteral
      (replacedAt s.replaceText s.currentMatchIndex parts rest)
    rw [hs']
    exact ⟨_,_,rfl⟩

end FindReplaceState

theorem correct_of_ranges {s' : FindReplaceState}
    (hupdate : s.updateMatches u regex text = some s') (hregex : s'.useRegex = false)
    (hreplace : s'.replaceText = s.replaceText) (htext : text = joined parts rest)
    (hleftmost : Leftmost (Same u s) parts rest)
    (hranges : s'.matchRanges = ranges byteLength 0 parts) : Correct u regex s text := by
  obtain ⟨hsorted,hplaces⟩ :=
    ranges_places (fun p hp => same_ne_nil (hleftmost.mem p hp)) [] rest
  rw [byteLength_nil,← hranges,List.nil_append,← htext] at hplaces
  rw [byteLength_nil,← hranges] at hsorted
  refine ⟨s',parts,rest,hupdate,htext,hleftmost,hranges,hsorted,fun p hp => (hplaces p hp).2,?_,
    fun i => ?_⟩
  · rw [htext,← hreplace]
    exact FindReplaceState.replaceAll_ranges hregex hranges
  · rw [htext,← hreplace]
    exact FindReplaceState.replaceCurrent_ranges (s := { s' with currentMatchIndex := i }) hregex
      hranges

/-! ## Matches in lower case -/

/-- The leftmost occurrences in lower case are the leftmost matches of the text, at the places that
these have in lower case. -/
theorem Regular.transfer (h : Regular u s text) {lparts : List (List Char × List Char)}
    {lrest x p t : List Char} (hlower : u.toLowercase text = x ++ joined lparts lrest)
    (htext : text = p ++ t) (hlength : byteLength x = byteLength (u.fold p))
    (hleftmost : Leftmost (· = u.toLowercase s.findQuery) lparts lrest) :
    ∃ parts rest, t = joined parts rest ∧
      Leftmost (fun m => u.fold m = u.fold s.findQuery) parts rest ∧
      ∀ pos, ranges byteLength pos lparts = ranges (fun a => byteLength (u.fold a)) pos parts := by
  induction lparts generalizing x p t with
  | nil =>
    refine ⟨[],t,rfl,?_,fun pos => rfl⟩
    intro a m b ht hm
    obtain ⟨y,z,hlower',hy⟩ := h.kept (p ++ a) m b (by rw [htext,ht,List.append_assoc]) hm
    rw [hlower,joined] at hlower'
    rw [Casing.fold_append,byteLength_append] at hy
    obtain ⟨w,-,hw⟩ := append_of_byteLength_le hlower' (by omega)
    exact hleftmost w _ z hw rfl
  | cons lpart lparts ih =>
    obtain ⟨la,lm⟩ := lpart
    obtain ⟨rfl,hfirst,hlater⟩ := hleftmost
    obtain ⟨a,m,b,ha,hm,hbytes⟩ := h.only (x ++ la) (joined lparts lrest) (by
      rw [hlower,joined,List.append_assoc])
    rw [byteLength_append] at hbytes
    obtain ⟨gap,rfl,ht⟩ := Casing.append_of_le (u := u) (htext.symm.trans ha) (by omega)
    rw [Casing.fold_append,byteLength_append] at hbytes
    have hgap : byteLength (u.fold gap) = byteLength la := by omega
    have hquery : byteLength (u.toLowercase s.findQuery) = byteLength (u.fold m) := by
      rw [hm]
      exact Casing.byteLength_toLowercaseFrom [] _
    have hlower' : u.toLowercase text =
        x ++ la ++ u.toLowercase s.findQuery ++ joined lparts lrest := by
      rw [hlower,joined,List.append_assoc,List.append_assoc]
    have hlength' : byteLength (x ++ la ++ u.toLowercase s.findQuery) =
        byteLength (u.fold (p ++ gap ++ m)) := by
      simp only [byteLength_append,Casing.fold_append]
      omega
    obtain ⟨parts,rest,hb,hleft,hranges⟩ := ih hlower'
      (by rw [ha,List.append_assoc (p ++ gap)]) hlength' hlater
    refine ⟨(gap,m) :: parts,rest,by rw [joined,← hb,ht],⟨hm,?_,hleft⟩,fun pos => ?_⟩
    · -- an earlier match would be an earlier occurrence in lower case
      intro a' m' b' heq hm'
      by_contra hlt
      rw [← hb,← ht] at heq
      obtain ⟨y,z,hy,hylen⟩ := h.kept (p ++ a') m' b' (by rw [htext,heq,List.append_assoc]) hm'
      rw [Casing.fold_append,byteLength_append] at hylen
      obtain ⟨w,rfl,hw⟩ := append_of_byteLength_le (hlower.symm.trans hy) (by omega)
      have hpre : la <+: w :=
        List.prefix_of_prefix_length_le ⟨_,rfl⟩ ⟨_,hw.symm⟩ (hfirst w _ z hw rfl)
      obtain ⟨more,rfl⟩ := hpre
      rw [byteLength_append,byteLength_append] at hylen
      have hbefore : a' <+: gap :=
        List.prefix_of_prefix_length_le ⟨_,heq.symm⟩ ⟨_,ht.symm⟩ (Nat.le_of_not_le hlt)
      obtain ⟨late,rfl⟩ := hbefore
      have hlate : late ≠ [] := by
        rintro rfl
        exact hlt (Nat.le_of_eq (by rw [List.append_nil]))
      have hpos := Casing.byteLength_fold_pos (u := u) hlate
      rw [Casing.fold_append,byteLength_append] at hgap
      omega
    · rw [ranges,ranges,hquery,hgap,hranges]

theorem ranges_eq_iff {len len' : List Char → ℕ} (pos : ℕ) :
    ranges len pos parts = ranges len' pos parts ↔
      ∀ p ∈ parts, len p.1 = len' p.1 ∧ len p.2 = len' p.2 := by
  induction parts generalizing pos with
  | nil => exact iff_of_true rfl (List.forall_mem_nil _)
  | cons p parts ih =>
    rw [ranges,ranges,List.forall_mem_cons,List.cons.injEq,Prod.mk.injEq]
    constructor
    · rintro ⟨⟨hgap,hmatch⟩,hrest⟩
      rw [hmatch,ih] at hrest
      exact ⟨⟨by omega,by omega⟩,hrest⟩
    · rintro ⟨⟨hgap,hmatch⟩,hrest⟩
      rw [hgap,hmatch]
      exact ⟨⟨rfl,rfl⟩,(ih _).mpr hrest⟩

theorem same_sensitive (hcase : s.caseSensitive = true) (hquery : s.findQuery ≠ [])
    (m : List Char) : Same u s m ↔ m = s.findQuery := by
  rw [Same,if_pos hcase,and_iff_right hquery]

theorem same_insensitive (hcase : ¬s.caseSensitive = true) (hquery : s.findQuery ≠ [])
    (m : List Char) : Same u s m ↔ u.fold m = u.fold s.findQuery := by
  rw [Same,if_neg hcase,and_iff_right hquery]

theorem correct_of_empty (hliteral : s.useRegex = false) (hquery : s.findQuery = []) :
    Correct u regex s text := by
  have htext : text = joined [] text := rfl
  refine correct_of_ranges (FindReplaceState.updateMatches_of_empty hquery text) hliteral rfl htext
    ?_ rfl
  exact fun _ _ _ _ h => h.1 hquery

theorem correct_of_sensitive (hliteral : s.useRegex = false) (hquery : s.findQuery ≠ [])
    (hcase : s.caseSensitive = true) : Correct u regex s text := by
  obtain ⟨parts,rest,hupdate,htext,hleftmost⟩ :=
    FindReplaceState.updateMatches_of_query u regex hliteral hquery text
  rw [if_pos hcase] at htext hleftmost
  refine correct_of_ranges hupdate hliteral rfl htext ?_ rfl
  exact (leftmost_congr (same_sensitive hcase hquery)).mpr hleftmost

/-- In a search that ignores case the places are those that the leftmost matches have in lower
case. -/
theorem Regular.updateMatches (h : Regular u s text) (hliteral : s.useRegex = false)
    (hquery : s.findQuery ≠ []) (hcase : ¬s.caseSensitive = true) : ∃ parts rest,
      text = joined parts rest ∧ Leftmost (Same u s) parts rest ∧
      s.updateMatches u regex text =
        some (s.withMatches (ranges (fun a => byteLength (u.fold a)) 0 parts)) := by
  obtain ⟨lparts,lrest,hupdate,hlower,hleftmost⟩ :=
    FindReplaceState.updateMatches_of_query u regex hliteral hquery text
  rw [if_neg hcase] at hlower hleftmost
  obtain ⟨parts,rest,htext,hleft,hranges⟩ := h.transfer (x := []) (p := []) hlower rfl rfl hleftmost
  rw [hranges] at hupdate
  exact ⟨parts,rest,htext,(leftmost_congr (same_insensitive hcase hquery)).mpr hleft,hupdate⟩

/-- Literal searches and their replacements are correct if case matters, the query is empty, or
lower case moves neither matches nor their places; and where it moves no matches, only then. -/
theorem correct_of_holds (u : Casing) (regex : Regex) (s : FindReplaceState) (text : List Char)
    (hliteral : s.useRegex = false) : (Holds u s text → Correct u regex s text) ∧
      (Regular u s text → Correct u regex s text → Holds u s text) := by
  by_cases hquery : s.findQuery = []
  · exact ⟨fun _ => correct_of_empty hliteral hquery,fun _ _ => Or.inr (Or.inl hquery)⟩
  by_cases hcase : s.caseSensitive = true
  · exact ⟨fun _ => correct_of_sensitive hliteral hquery hcase,fun _ _ => Or.inl hcase⟩
  constructor
  · rintro (hyes | hyes | ⟨hregular,haligned⟩)
    · exact absurd hyes hcase
    · exact absurd hyes hquery
    · obtain ⟨parts,rest,htext,hleftmost,hupdate⟩ :=
        hregular.updateMatches hliteral hquery hcase
      refine correct_of_ranges hupdate hliteral rfl htext hleftmost ?_
      exact (ranges_eq_iff 0).mpr (haligned parts rest htext hleftmost)
  · rintro hregular ⟨s',parts,rest,hupdate,htext,hleftmost,hranges,-⟩
    obtain ⟨parts',rest',htext',hleftmost',hupdate'⟩ :=
      hregular.updateMatches hliteral hquery hcase
    obtain ⟨rfl,rfl⟩ := hleftmost'.unique same_free hleftmost (htext'.symm.trans htext)
    rw [hupdate',Option.some.injEq] at hupdate
    rw [← hupdate] at hranges
    refine Or.inr (Or.inr ⟨hregular,fun parts rest ht hl => ?_⟩)
    obtain ⟨rfl,rfl⟩ := hl.unique same_free hleftmost (ht.symm.trans htext)
    exact (ranges_eq_iff 0).mp hranges

/-! ## Texts that lower case does not stretch -/

/-- Each character has one character as its lower case, with as many bytes. -/
def Plain (u : Casing) (text : List Char) : Prop :=
  ∀ c ∈ text, ∃ d, u.lower c = [d] ∧ d.utf8Size = c.utf8Size

theorem toLowercaseFrom_of_notMem (behind : List Char) (h : 'Σ' ∉ text) :
    u.toLowercaseFrom behind text = u.fold text := by
  induction text generalizing behind with
  | nil => rfl
  | cons c text ih =>
    rw [List.mem_cons,not_or] at h
    rw [Casing.toLowercaseFrom,if_neg (Ne.symm h.1),ih _ h.2]
    rfl

theorem Plain.byteLength_fold (h : Plain u text) :
    byteLength (u.fold text) = byteLength text := by
  induction text with
  | nil => rfl
  | cons c text ih =>
    obtain ⟨⟨d,hd,hsize⟩,htext⟩ := List.forall_mem_cons.mp h
    rw [Casing.fold,List.flatMap_cons,byteLength_append,hd,byteLength_cons c,← ih htext]
    rw [byteLength_cons,byteLength_nil,hsize]
    rfl

/-- Where the lower case is cut, the text can be cut. -/
theorem Plain.cut_fold (h : Plain u text) {x z : List Char} (hfold : u.fold text = x ++ z) :
    ∃ a b, text = a ++ b ∧ u.fold a = x ∧ u.fold b = z := by
  induction text generalizing x with
  | nil =>
    obtain ⟨rfl,rfl⟩ := List.append_eq_nil_iff.mp hfold.symm
    exact ⟨[],[],rfl,rfl,rfl⟩
  | cons c text ih =>
    obtain ⟨⟨d,hd,-⟩,htext⟩ := List.forall_mem_cons.mp h
    cases x with
    | nil => exact ⟨[],c :: text,rfl,rfl,hfold⟩
    | cons e x =>
      rw [Casing.fold,List.flatMap_cons,hd,List.singleton_append,List.cons_append,
        List.cons.injEq] at hfold
      obtain ⟨a,b,rfl,ha,hb⟩ := ih htext hfold.2
      refine ⟨c :: a,b,rfl,?_,hb⟩
      rw [Casing.fold,List.flatMap_cons,hd,List.singleton_append,hfold.1,← ha]
      rfl

theorem Plain.regular (h : Plain u text) (htext : 'Σ' ∉ text) (hquery : 'Σ' ∉ s.findQuery) :
    Regular u s text := by
  have hlower : u.toLowercase text = u.fold text := toLowercaseFrom_of_notMem [] htext
  have hlowerQuery : u.toLowercase s.findQuery = u.fold s.findQuery :=
    toLowercaseFrom_of_notMem [] hquery
  refine ⟨fun a m b hab hm => ⟨u.fold a,u.fold b,?_,rfl⟩,fun x y hxy => ?_⟩
  · rw [hlower,hlowerQuery,hab,Casing.fold_append,Casing.fold_append,hm]
  · rw [hlower,hlowerQuery] at hxy
    obtain ⟨a,rest,rfl,ha,hrest⟩ := h.cut_fold hxy
    obtain ⟨m,b,rfl,hm,-⟩ :=
      Plain.cut_fold (fun c hc => h c (List.mem_append_right a hc)) hrest
    exact ⟨a,m,b,rfl,hm,by rw [ha]⟩

theorem mem_joined {c : Char} {p : List Char × List Char} (hp : p ∈ parts)
    (hc : c ∈ p.1 ∨ c ∈ p.2) : c ∈ joined parts rest := by
  induction parts with
  | nil => cases hp
  | cons q parts ih =>
    rw [joined,List.mem_append,List.mem_append]
    rcases List.mem_cons.mp hp with rfl | hp
    · exact hc.imp id Or.inl
    · exact Or.inr (Or.inr (ih hp))

theorem Plain.holds (h : Plain u text) (htext : 'Σ' ∉ text) (hquery : 'Σ' ∉ s.findQuery) :
    Holds u s text := by
  refine Or.inr (Or.inr ⟨h.regular htext hquery,?_⟩)
  rintro parts rest rfl - p hp
  exact ⟨Plain.byteLength_fold fun c hc => h c (mem_joined hp (Or.inl hc)),
    Plain.byteLength_fold fun c hc => h c (mem_joined hp (Or.inr hc))⟩

/-! ## Runs -/

/-- Only ASCII, sigma and the dotted capital I have a lower case. -/
def dotted : Casing where
  lower c := if c = 'İ' then ['i','\u0307'] else if c = 'Σ' then ['σ'] else [c.toLower]
  cased := Char.isAlpha
  ignorable := fun _ => false
  lower_ne_nil c := by
    split
    · exact List.cons_ne_nil _ _
    · split
      · exact List.cons_ne_nil _ _
      · exact List.cons_ne_nil _ _
  lower_sigma := rfl

def noRegex : Regex := fun _ _ => none

/-- A search for x that ignores case, to put y in its place. -/
def search : FindReplaceState where
  findQuery := ['x']
  replaceText := ['y']
  caseSensitive := false
  useRegex := false
  matchRanges := []
  currentMatchIndex := 0
  statusMessage := none

theorem plain_capitals : Plain dotted "aXbx".toList := by
  have hall : ("aXbx".toList.all fun c =>
      decide (dotted.lower c = [c.toLower] ∧ c.toLower.utf8Size = c.utf8Size)) = true := by decide
  exact fun c hc => ⟨c.toLower,of_decide_eq_true (List.all_eq_true.mp hall c hc)⟩

theorem capitals_correct : Correct dotted noRegex search "aXbx".toList :=
  (correct_of_holds dotted noRegex search "aXbx".toList rfl).1
    (plain_capitals.holds (by decide) (by decide))

/-- The place of the match is inside a character of the text. -/
theorem dotted_not_correct : ¬Correct dotted noRegex search "İxé".toList := by
  rintro ⟨s',parts,rest,hupdate,-,-,-,-,-,⟨t,result,hreplace⟩,-⟩
  have hfound : search.updateMatches dotted noRegex "İxé".toList =
      some (search.withMatches [(3,4)]) := by decide +kernel
  have hpanic : ((search.withMatches [(3,4)]).replaceAll dotted noRegex "İxé".toList).isNone =
      true := by decide +kernel
  rw [hfound,Option.some.injEq] at hupdate
  rw [← hupdate] at hreplace
  rw [hreplace] at hpanic
  cases hpanic

end Rullama.FindReplace
