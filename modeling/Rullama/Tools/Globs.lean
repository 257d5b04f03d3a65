import Rullama.Text.Runs
import Rullama.Tools.Settings

/-! # Globs of permission rules

The regex that a glob is translated to, against the language that globs are documented to have.
-/
namespace Rullama.Tools

open Text

/-! ## The documented language -/

/-- `**` with the slash that follows it, `**`, `*`, `?` and any other character. -/
inductive Glob where
  | folders
  | components
  | star
  | one
  | char (c : Char)

def globs : List Char → List Glob
  | [] => []
  | '*' :: '*' :: '/' :: cs => .folders :: globs cs
  | '*' :: '*' :: cs => .components :: globs cs
  | '*' :: cs => .star :: globs cs
  | '?' :: cs => .one :: globs cs
  | c :: cs => .char c :: globs cs

/-- A component begins after a text. -/
def Begins (before : List Char) : Prop := before = [] ∨ before.getLast? = some '/'

/-- A component ends before a text. -/
def EndsAt (rest : List Char) : Prop := rest = [] ∨ rest.head? = some '/'

/-- A run of whole components can be empty, and is inside none. -/
def Glob.Takes : Glob → List Char → List Char → List Char → Prop
  | folders, before, run, _ => run = [] ∨ (Begins before ∧ run.getLast? = some '/')
  | components, before, run, rest => run = [] ∨ (Begins before ∧ EndsAt rest)
  | star, _, run, _ => '/' ∉ run
  | one, _, run, _ => ∃ c ≠ '/', run = [c]
  | char c, _, run, _ => run = [c]

def Documented (pattern path : String) : Prop :=
  pattern = "*" ∨ Spells Glob.Takes (globs pattern.toList) [] path.toList

example : Documented "a/**/b" "a/b" :=
  Or.inr ⟨['a'],_,rfl,rfl,['/'],_,rfl,rfl,[],_,rfl,Or.inl rfl,['b'],_,rfl,rfl,rfl⟩

example : Documented "a/**/b" "a/x/b" :=
  Or.inr ⟨['a'],_,rfl,rfl,['/'],_,rfl,rfl,['x','/'],_,rfl,Or.inr ⟨Or.inr rfl,rfl⟩,['b'],_,rfl,rfl,
    rfl⟩

/-! ## The regex -/

/-- What a piece of the regex takes. -/
def GlobPiece.Takes : GlobPiece → List Char → List Char → List Char → Prop
  | deep, _, run, _ => '\n' ∉ run
  | star, _, run, _ => '/' ∉ run
  | one, _, run, _ => ∃ c ≠ '/', run = [c]
  | literal c, _, run, _ => run = [c]

variable {text rest : List Char} {pattern path : String} {ok : Char → Bool}

theorem mem_restsAfter : rest ∈ restsAfter ok text ↔
    ∃ run, text = run ++ rest ∧ ∀ c ∈ run, ok c = true := by
  induction text with
  | nil =>
    rw [restsAfter,List.mem_singleton]
    constructor
    · rintro rfl
      exact ⟨[],rfl,List.forall_mem_nil _⟩
    · rintro ⟨run,hrun,-⟩
      exact (List.append_eq_nil_iff.mp hrun.symm).2
  | cons c text ih =>
    rw [restsAfter,List.mem_cons]
    constructor
    · rintro (rfl | h)
      · exact ⟨[],rfl,List.forall_mem_nil _⟩
      · split at h
        · rename_i hc
          obtain ⟨run,rfl,hrun⟩ := ih.mp h
          exact ⟨c :: run,rfl,List.forall_mem_cons.mpr ⟨hc,hrun⟩⟩
        · cases h
    · rintro ⟨run,htext,hrun⟩
      cases run with
      | nil => exact Or.inl htext.symm
      | cons d run =>
        rw [List.cons_append,List.cons.injEq] at htext
        obtain ⟨rfl,htext⟩ := htext
        rw [List.forall_mem_cons] at hrun
        rw [if_pos hrun.1]
        exact Or.inr (ih.mpr ⟨run,htext,hrun.2⟩)

theorem forall_ne_iff {c : Char} {run : List Char} :
    (∀ d ∈ run, (d != c) = true) ↔ c ∉ run := by
  simp only [bne_iff_ne]
  exact ⟨fun h hc => h c hc rfl,fun h d hd => ne_of_mem_of_not_mem hd h⟩

theorem mem_rests {piece : GlobPiece} (before : List Char) : rest ∈ piece.rests text ↔
    ∃ run, text = run ++ rest ∧ piece.Takes before run rest := by
  cases piece with
  | deep => simp only [GlobPiece.rests,mem_restsAfter,GlobPiece.Takes,forall_ne_iff]
  | star => simp only [GlobPiece.rests,mem_restsAfter,GlobPiece.Takes,forall_ne_iff]
  | one =>
    cases text with
    | nil => simp [GlobPiece.rests,GlobPiece.Takes]
    | cons c text =>
      simp only [GlobPiece.rests,GlobPiece.Takes]
      constructor
      · intro h
        split at h
        · rename_i hc
          obtain rfl := List.mem_singleton.mp h
          exact ⟨[c],rfl,c,bne_iff_ne.mp hc,rfl⟩
        · cases h
      · rintro ⟨run,htext,d,hd,rfl⟩
        cases htext
        rw [if_pos (bne_iff_ne.mpr hd)]
        exact List.mem_singleton_self _
  | literal d =>
    cases text with
    | nil => simp [GlobPiece.rests,GlobPiece.Takes]
    | cons c text =>
      simp only [GlobPiece.rests,GlobPiece.Takes]
      constructor
      · intro h
        split at h
        · rename_i hc
          obtain rfl := List.mem_singleton.mp h
          exact ⟨[c],rfl,by rw [eq_of_beq hc]⟩
        · cases h
      · rintro ⟨run,htext,rfl⟩
        cases htext
        rw [if_pos (beq_self_eq_true _)]
        exact List.mem_singleton_self _

theorem GlobPiece.takes_behind (piece : GlobPiece) (before before' run rest : List Char)
    (h : piece.Takes before run rest) : piece.Takes before' run rest := by
  cases piece with
  | deep => exact h
  | star => exact h
  | one => exact h
  | literal c => exact h

theorem foldl_rests (pieces : List GlobPiece) (rests : List (List Char)) :
    (pieces.foldl (fun rests piece => rests.flatMap piece.rests) rests).any List.isEmpty = true ↔
      ∃ text ∈ rests, Spells GlobPiece.Takes pieces [] text := by
  induction pieces generalizing rests with
  | nil => simp only [List.foldl_nil,List.any_eq_true,List.isEmpty_iff,Spells]
  | cons piece pieces ih =>
    rw [List.foldl_cons,ih]
    constructor
    · rintro ⟨rest,hrest,hs⟩
      obtain ⟨text,htext,hrest⟩ := List.mem_flatMap.mp hrest
      obtain ⟨run,rfl,hrun⟩ := (mem_rests []).mp hrest
      exact ⟨run ++ rest,htext,run,rest,rfl,hrun,hs.behind GlobPiece.takes_behind _⟩
    · rintro ⟨text,htext,run,rest,rfl,hrun,hs⟩
      exact ⟨rest,List.mem_flatMap.mpr ⟨run ++ rest,htext,(mem_rests []).mpr ⟨run,rfl,hrun⟩⟩,
        hs.behind GlobPiece.takes_behind _⟩

theorem globMatches_iff : globMatches pattern path = true ↔
    pattern = "*" ∨ Spells GlobPiece.Takes (globPieces pattern.toList) [] path.toList := by
  rw [globMatches,Bool.or_eq_true,beq_iff_eq,foldl_rests]
  simp only [List.mem_singleton,exists_eq_left]

/-! ## Patterns without `**` -/

def Glob.piece : Glob → GlobPiece
  | folders | components => .deep
  | star => .star
  | one => .one
  | char c => .literal c

/-- Both read a pattern alike. -/
theorem map_globs (cs : List Char) : (globs cs).map Glob.piece = globPieces cs := by
  fun_induction globs cs with
  | case1 => rfl
  | case2 cs ih => rw [globPieces,← ih]; rfl
  | case3 cs h ih => rw [globPieces,← ih]; rfl; exact h
  | case4 cs h h' ih => rw [globPieces,← ih]; rfl; all_goals assumption
  | case5 cs ih => rw [globPieces,← ih]; rfl
  | case6 c cs h h' hstar hone ih => rw [globPieces,← ih]; rfl; all_goals assumption

def stars : List Char := ['*','*']

theorem stars_cons {c : Char} {cs : List Char}
    (h : ∀ cs' : List Char, c = '*' → cs = '*' :: cs' → False) :
    stars <:+: c :: cs ↔ stars <:+: cs := by
  rw [List.infix_cons_iff,or_iff_right]
  rintro ⟨tail,htail⟩
  rw [stars,List.cons_append,List.cons_append,List.nil_append] at htail
  obtain ⟨hc,hcs⟩ := List.cons.inj htail
  exact h tail hc.symm hcs.symm

theorem deep_mem_iff (cs : List Char) : .deep ∈ globPieces cs ↔ stars <:+: cs := by
  fun_induction globPieces cs with
  | case1 => simp [stars]
  | case2 cs ih => exact iff_of_true List.mem_cons_self ⟨[],'/' :: cs,rfl⟩
  | case3 cs h ih => exact iff_of_true List.mem_cons_self ⟨[],cs,rfl⟩
  | case4 cs h h' ih => rw [stars_cons fun cs' _ hcs => h' cs' hcs,← ih]; simp
  | case5 cs ih => rw [stars_cons fun cs' hc _ => absurd hc (by decide),← ih]; simp
  | case6 c cs h h' hstar hone ih => rw [stars_cons fun cs' hc _ => hstar hc,← ih]; simp

/-- Without `**` both take the same. -/
theorem takes_iff {glob : Glob} (h : glob.piece ≠ .deep) (before run rest : List Char) :
    glob.Takes before run rest ↔ glob.piece.Takes before run rest := by
  cases glob with
  | folders => exact absurd rfl h
  | components => exact absurd rfl h
  | star => exact Iff.rfl
  | one => exact Iff.rfl
  | char c => exact Iff.rfl

theorem globMatches_iff_of_not_stars (h : ¬stars <:+: pattern.toList) :
    globMatches pattern path = true ↔ Documented pattern path := by
  rw [globMatches_iff,Documented,← map_globs]
  refine or_congr Iff.rfl (spells_map_iff fun glob hglob => takes_iff ?_).symm
  intro hdeep
  refine h ((deep_mem_iff pattern.toList).mp ?_)
  rw [← map_globs,← hdeep]
  exact List.mem_map_of_mem hglob

/-- Every path without a line feed that a glob is documented to match is matched. -/
theorem globMatches_of_documented (hpath : '\n' ∉ path.toList) (h : Documented pattern path) :
    globMatches pattern path = true := by
  rw [globMatches_iff,← map_globs]
  refine h.imp id (Spells.map (· ≠ '\n') ?_ fun c hc => ne_of_mem_of_not_mem hc hpath)
  intro glob before run rest hrun htakes
  cases glob with
  | folders => exact fun hmem => hrun _ hmem rfl
  | components => exact fun hmem => hrun _ hmem rfl
  | star => exact htakes
  | one => exact htakes
  | char c => exact htakes

/-! ## Patterns with `**` -/

/-- The characters of a kind that a slash follows. -/
def pairs (kind : Char → Bool) : List Char → ℕ
  | [] => 0
  | c :: text => (if kind c = true ∧ text.head? = some '/' then 1 else 0) + pairs kind text

variable {kind : Char → Bool} {a b : List Char}

theorem pairs_cons_cons (c d : Char) (text : List Char) : pairs kind (c :: d :: text) =
    (if kind c = true ∧ some d = some '/' then 1 else 0) + pairs kind (d :: text) := rfl

theorem pairs_singleton (c : Char) : pairs kind [c] = 0 := by
  simp [pairs]

theorem pairs_append_le (a b : List Char) :
    pairs kind (a ++ b) ≤ pairs kind a + pairs kind b + 1 := by
  induction a with
  | nil =>
    rw [List.nil_append,pairs]
    omega
  | cons c a ih =>
    cases a with
    | nil =>
      simp only [List.cons_append,List.nil_append,pairs]
      split
      · omega
      · omega
    | cons d a =>
      rw [List.cons_append] at ih
      rw [List.cons_append,List.cons_append,pairs_cons_cons,pairs_cons_cons]
      omega

theorem le_pairs_append (a b : List Char) :
    pairs kind a + pairs kind b ≤ pairs kind (a ++ b) := by
  induction a with
  | nil =>
    rw [List.nil_append,pairs]
    omega
  | cons c a ih =>
    cases a with
    | nil =>
      simp only [List.cons_append,List.nil_append,pairs]
      simp
    | cons d a =>
      rw [List.cons_append] at ih
      rw [List.cons_append,List.cons_append,pairs_cons_cons,pairs_cons_cons]
      omega

theorem pairs_eq_zero (h : '/' ∉ text ∨ ∀ c ∈ text, kind c = false) : pairs kind text = 0 := by
  induction text with
  | nil => rfl
  | cons c text ih =>
    rw [pairs,if_neg,Nat.zero_add]
    · refine ih (h.imp (fun h hmem => h (List.mem_cons_of_mem c hmem)) fun h d hd => ?_)
      exact h d (List.mem_cons_of_mem c hd)
    · rintro ⟨hkind,hslash⟩
      rcases h with h | h
      · exact h (List.mem_cons_of_mem c (List.mem_of_mem_head? hslash))
      · rw [h c List.mem_cons_self] at hkind
        cases hkind

/-- All but the places of the slashes is forgotten. -/
def blur (c : Char) : Char := if c = '/' then '/' else '\n'

theorem blur_eq_slash {c : Char} : blur c = '/' ↔ c = '/' := by
  rw [blur]
  split
  · rename_i hc
    exact iff_of_true rfl hc
  · rename_i hc
    exact iff_of_false (by decide) hc

theorem blur_blur (c : Char) : blur (blur c) = blur c := by
  by_cases hc : c = '/'
  · rw [hc]
    rfl
  · rw [blur,if_neg (by rwa [blur_eq_slash]),blur,if_neg hc]

theorem eq_slash_of_blur {o o' : Option Char} (h : o.map blur = o'.map blur) :
    o = some '/' ↔ o' = some '/' := by
  cases o with
  | none =>
    cases o' with
    | none => exact Iff.rfl
    | some d => cases h
  | some c =>
    cases o' with
    | none => cases h
    | some d =>
      rw [Option.some.injEq,Option.some.injEq,← blur_eq_slash (c := c),← blur_eq_slash (c := d),
        Option.some.inj h]

theorem head_blur (h : a.map blur = b.map blur) : a.head? = some '/' ↔ b.head? = some '/' := by
  refine eq_slash_of_blur ?_
  rw [← List.head?_map,← List.head?_map,h]

theorem last_blur (h : a.map blur = b.map blur) :
    a.getLast? = some '/' ↔ b.getLast? = some '/' := by
  refine eq_slash_of_blur ?_
  rw [← List.getLast?_map,← List.getLast?_map,h]

theorem nil_blur (h : a.map blur = b.map blur) : a = [] ↔ b = [] := by
  rw [← List.map_eq_nil_iff,h,List.map_eq_nil_iff]

def isFeed (c : Char) : Bool := c == '\n'

def isPlain (c : Char) : Bool := c != '/'

/-- Where a run is blurred, its characters before a slash become line feeds before a slash. -/
theorem pairs_blur (run : List Char) (h : a.map blur = b.map blur) :
    pairs isFeed (run.map blur ++ b) + pairs isPlain a =
      pairs isPlain (run ++ a) + pairs isFeed b := by
  induction run with
  | nil => exact Nat.add_comm _ _
  | cons c run ih =>
    have hhead : (run.map blur ++ b).head? = some '/' ↔ (run ++ a).head? = some '/' := by
      refine head_blur ?_
      rw [List.map_append,List.map_append,List.map_map,h]
      exact congrArg (· ++ b.map blur) (List.map_congr_left fun d _ => blur_blur d)
    have hkind : isFeed (blur c) = true ↔ isPlain c = true := by
      rw [isFeed,isPlain,beq_iff_eq,bne_iff_ne,blur]
      split
      · rename_i hc
        exact iff_of_false (by decide) (fun hne => hne hc)
      · rename_i hc
        exact iff_of_true rfl hc
    rw [List.map_cons,List.cons_append,List.cons_append,pairs,pairs]
    simp only [hhead,hkind]
    omega

/-- A run can be blurred, at the cost of one character if the glob has it itself. -/
theorem takes_blur {glob : Glob} {before before' run rest : List Char}
    (hbefore : before.map blur = before'.map blur) (h : glob.Takes before run rest) :
    ∃ run', run'.map blur = run.map blur ∧ ∀ rest' : List Char, rest.map blur = rest'.map blur →
      glob.Takes before' run' rest' ∧ pairs isPlain (run ++ rest) + pairs isFeed rest' ≤
        pairs isFeed (run' ++ rest') + pairs isPlain rest + 1 := by
  have hmap : (run.map blur).map blur = run.map blur := by
    rw [List.map_map]
    exact List.map_congr_left fun d _ => blur_blur d
  have hbegins : Begins before → Begins before' :=
    Or.imp (nil_blur hbefore).mp (last_blur hbefore).mp
  have hpairs : ∀ rest' : List Char, rest.map blur = rest'.map blur →
      pairs isPlain (run ++ rest) + pairs isFeed rest' ≤
        pairs isFeed (run.map blur ++ rest') + pairs isPlain rest + 1 := by
    intro rest' hrest
    have heq := pairs_blur run hrest
    omega
  cases glob with
  | folders =>
    refine ⟨run.map blur,hmap,fun rest' hrest => ⟨?_,hpairs rest' hrest⟩⟩
    exact h.imp (nil_blur hmap).mpr fun h => ⟨hbegins h.1,(last_blur hmap).mpr h.2⟩
  | components =>
    refine ⟨run.map blur,hmap,fun rest' hrest => ⟨?_,hpairs rest' hrest⟩⟩
    exact h.imp (nil_blur hmap).mpr fun h =>
      ⟨hbegins h.1,h.2.imp (nil_blur hrest).mp (head_blur hrest).mp⟩
  | star =>
    refine ⟨run.map blur,hmap,fun rest' hrest => ⟨fun hmem => ?_,hpairs rest' hrest⟩⟩
    obtain ⟨c,hc,hslash⟩ := List.mem_map.mp hmem
    exact h (blur_eq_slash.mp hslash ▸ hc)
  | one =>
    obtain ⟨c,hc,rfl⟩ := h
    exact ⟨[c].map blur,hmap,fun rest' hrest =>
      ⟨⟨blur c,fun hslash => hc (blur_eq_slash.mp hslash),rfl⟩,hpairs rest' hrest⟩⟩
  | char c =>
    obtain rfl : run = [c] := h
    refine ⟨[c],rfl,fun rest' hrest => ⟨rfl,?_⟩⟩
    have hplain : pairs isPlain ([c] ++ rest) ≤ pairs isPlain [c] + pairs isPlain rest + 1 :=
      pairs_append_le [c] rest
    have hfeed : pairs isFeed [c] + pairs isFeed rest' ≤ pairs isFeed ([c] ++ rest') :=
      le_pairs_append [c] rest'
    rw [pairs_singleton] at hplain hfeed
    omega

/-- What a glob spells can be blurred but for the characters that the glob has itself. -/
theorem spells_blur {gs : List Glob} {before before' : List Char}
    (hbefore : before.map blur = before'.map blur) (h : Spells Glob.Takes gs before text) :
    ∃ text', text.map blur = text'.map blur ∧ Spells Glob.Takes gs before' text' ∧
      pairs isPlain text ≤ pairs isFeed text' + gs.length := by
  induction gs generalizing before before' text with
  | nil =>
    obtain rfl : text = [] := h
    exact ⟨[],rfl,rfl,Nat.le_refl _⟩
  | cons glob gs ih =>
    obtain ⟨run,rest,rfl,htakes,hrest⟩ := h
    obtain ⟨run',hrun,htakes⟩ := takes_blur hbefore htakes
    have hboth : (before ++ run).map blur = (before' ++ run').map blur := by
      rw [List.map_append,List.map_append,hbefore,hrun]
    obtain ⟨rest',hblur,hspells,hle⟩ := ih hboth hrest
    obtain ⟨htakes,hpairs⟩ := htakes rest' hblur
    refine ⟨run' ++ rest',?_,⟨run',rest',rfl,htakes,hspells⟩,?_⟩
    · rw [List.map_append,List.map_append,hrun,hblur]
    · rw [List.length_cons]
      omega

/-- The regex has a piece for every line feed that it takes before a slash. -/
theorem pairs_le_of_spells {pieces : List GlobPiece} {before : List Char}
    (h : Spells GlobPiece.Takes pieces before text) : pairs isFeed text ≤ pieces.length := by
  refine h.number_le (pairs isFeed) rfl pairs_append_le fun piece before run rest htakes => ?_
  cases piece with
  | deep =>
    refine pairs_eq_zero (Or.inr fun c hc => ?_)
    exact beq_eq_false_iff_ne.mpr (ne_of_mem_of_not_mem hc htakes)
  | star => exact pairs_eq_zero (Or.inl htakes)
  | one =>
    obtain ⟨c,-,rfl⟩ := htakes
    exact pairs_singleton c
  | literal c =>
    obtain rfl : run = [c] := htakes
    exact pairs_singleton c

theorem free_takes : Free GlobPiece.Takes
  | .deep => ⟨[],fun _ _ => List.not_mem_nil⟩
  | .star => ⟨[],fun _ _ => List.not_mem_nil⟩
  | .one => ⟨['x'],fun _ _ => ⟨'x',by decide,rfl⟩⟩
  | .literal c => ⟨[c],fun _ _ => rfl⟩

def folders : ℕ → List Char
  | 0 => []
  | n + 1 => 'x' :: '/' :: folders n

theorem feed_notMem_folders (n : ℕ) : '\n' ∉ folders n := by
  induction n with
  | zero => exact List.not_mem_nil
  | succ n ih => simp [folders,ih]

theorem le_pairs_folders (n : ℕ) : n ≤ pairs isPlain (folders n) := by
  induction n with
  | zero => exact Nat.zero_le _
  | succ n ih =>
    rw [folders,pairs_cons_cons,pairs,if_pos ⟨rfl,rfl⟩]
    omega

/-- Globs match what they are documented to match exactly if they have no `**`. -/
theorem globMatches_documented_iff (pattern : String) :
    (∀ path, globMatches pattern path = true ↔ Documented pattern path) ↔
      ¬stars <:+: pattern.toList := by
  refine ⟨fun h hstars => ?_,fun h path => globMatches_iff_of_not_stars h⟩
  have hne : pattern ≠ "*" := by
    rintro rfl
    exact absurd hstars (by decide)
  have hregex : ∀ text, globMatches pattern (.ofList text) = true ↔
      Spells GlobPiece.Takes (globPieces pattern.toList) [] text := by
    intro text
    rw [globMatches_iff,or_iff_right hne,String.toList_ofList]
  have hdoc : ∀ text, Documented pattern (.ofList text) ↔
      Spells Glob.Takes (globs pattern.toList) [] text := by
    intro text
    rw [Documented,or_iff_right hne,String.toList_ofList]
  have hlength : (globs pattern.toList).length = (globPieces pattern.toList).length := by
    rw [← map_globs,List.length_map]
  -- so many folders that the pieces cannot all take a line feed of one
  have hfolders := feed_notMem_folders (2 * (globPieces pattern.toList).length + 1)
  have hmany := le_pairs_folders (2 * (globPieces pattern.toList).length + 1)
  generalize folders (2 * (globPieces pattern.toList).length + 1) = run at hfolders hmany
  obtain ⟨a,b,hspells⟩ := free_takes.exists_spells_around ((deep_mem_iff _).mpr hstars)
    (fun _ _ => hfolders) []
  have hdocumented := (hdoc _).mp ((h _).mp ((hregex _).mpr hspells))
  obtain ⟨text,-,hblur,hle⟩ := spells_blur rfl hdocumented
  have hfeeds := pairs_le_of_spells ((hregex text).mp ((h _).mpr ((hdoc text).mpr hblur)))
  have ha : pairs isPlain a + pairs isPlain (run ++ b) ≤ pairs isPlain (a ++ (run ++ b)) :=
    le_pairs_append a _
  have hb : pairs isPlain run + pairs isPlain b ≤ pairs isPlain (run ++ b) := le_pairs_append run b
  omega

/-- A component that only ends like the next one of the glob is matched. -/
theorem inside_folder_matched :
    globMatches "a/**/b" "a/xb" = true ∧ ¬Documented "a/**/b" "a/xb" := by
  refine ⟨by decide +kernel,?_⟩
  rintro (h | h)
  · exact absurd h (by decide)
  · obtain ⟨_,rest,htext,rfl,_,rest',hrest,rfl,run,_,hrun,htakes,_,_,rfl,rfl,rfl⟩ := h
    obtain rfl : ['/','x','b'] = rest := (List.cons.inj htext).2
    obtain rfl : ['x','b'] = rest' := (List.cons.inj hrest).2
    obtain rfl : ['x'] = run :=
      List.append_cancel_right (show ['x'] ++ ['b'] = run ++ ['b'] from hrun)
    rcases htakes with h | ⟨-,h⟩
    · cases h
    · exact absurd h (by decide)

end Rullama.Tools
