import Rullama.Native.ToolCalling

/-! # Pythonic calls

On calls whose positional arguments come first and whose strings have no troublesome escapes the
port reads what the web app reads.
-/
namespace Rullama.Native.ToolCalling
open Text

/-! ## Trimming -/

theorem strip_padded (p : UInt16 → Bool) {before s after : Units} (hb : ∀ c ∈ before, p c = true)
    (ha : ∀ c ∈ after, p c = true) (hne : s ≠ []) (hh : ∀ c, s.head? = some c → p c = false)
    (hl : ∀ c, s.getLast? = some c → p c = false) :
    ((before ++ (s ++ after)).dropWhile p).rdropWhile p = s := by
  have hstart : (before ++ (s ++ after)).dropWhile p = s ++ after := by
    rw [List.dropWhile_append_of_pos hb]
    cases s with
    | nil => exact absurd rfl hne
    | cons c t => exact List.dropWhile_cons_of_neg (by simp [hh c rfl])
  have hend : s.reverse.dropWhile p = s.reverse := by
    cases hr : s.reverse with
    | nil => rfl
    | cons c t =>
      refine List.dropWhile_cons_of_neg ?_
      have hlast : s.getLast? = some c := by rw [List.getLast?_eq_head?_reverse,hr]; rfl
      simp [hl c hlast]
  have hrev : ∀ c ∈ after.reverse, p c = true := fun c hc => ha c (List.mem_reverse.mp hc)
  rw [hstart,List.rdropWhile,List.reverse_append,List.dropWhile_append_of_pos hrev,hend,
    List.reverse_reverse]

/-- No white space at either end, of whatever kind. -/
structure Tight (s : Units) : Prop where
  ne : s ≠ []
  head : ∀ c, s.head? = some c → isPadding c = false
  last : ∀ c, s.getLast? = some c → isPadding c = false

theorem isSpace_of_isPadding {c : UInt16} (h : isPadding c = false) :
    isSpace c = false ∧ isWhiteSpace c = false := Bool.or_eq_false_iff.mp h

theorem isSpace_of_isBlank {c : UInt16} (h : isBlank c = true) :
    isSpace c = true ∧ isWhiteSpace c = true := Bool.and_eq_true_iff.mp h

section Tight

variable {before s after : Units} (hs : Tight s) (hb : ∀ c ∈ before, isBlank c = true)
  (ha : ∀ c ∈ after, isBlank c = true)
include hs hb ha

theorem Tight.trim_padded : Text.trim (before ++ (s ++ after)) = s :=
  strip_padded isSpace (fun c hc => (isSpace_of_isBlank (hb c hc)).1)
    (fun c hc => (isSpace_of_isBlank (ha c hc)).1) hs.ne
    (fun c hc => (isSpace_of_isPadding (hs.head c hc)).1)
    (fun c hc => (isSpace_of_isPadding (hs.last c hc)).1)

theorem Tight.trim_padded' : trim (before ++ (s ++ after)) = s :=
  strip_padded isWhiteSpace (fun c hc => (isSpace_of_isBlank (hb c hc)).2)
    (fun c hc => (isSpace_of_isBlank (ha c hc)).2) hs.ne
    (fun c hc => (isSpace_of_isPadding (hs.head c hc)).2)
    (fun c hc => (isSpace_of_isPadding (hs.last c hc)).2)

end Tight

theorem Tight.trim_eq {s : Units} (hs : Tight s) : Text.trim s = s := by
  have h := @Tight.trim_padded [] s [] hs nofun nofun
  rwa [List.nil_append,List.append_nil] at h

theorem Tight.trim_eq' {s : Units} (hs : Tight s) : trim s = s := by
  have h := @Tight.trim_padded' [] s [] hs nofun nofun
  rwa [List.nil_append,List.append_nil] at h

/-! ## Words -/

theorem padding_not_word {c : UInt16} (h : isWord c = true) : isPadding c = false := by
  have hall : ∀ d ∈ spaces ++ [0x85], isWord d = false := by decide
  cases hp : isPadding c with
  | false => rfl
  | true =>
    have hmem : c ∈ spaces ++ [0x85] := by
      simp only [isPadding,isWhiteSpace,isSpace,Bool.or_eq_true,Bool.and_eq_true,
        decide_eq_true_eq,List.contains_iff_mem] at hp
      rcases hp with hp | hp | hp
      · exact List.mem_append_left _ hp
      · exact List.mem_append_right _ (List.mem_singleton.mpr hp)
      · exact List.mem_append_left _ hp.1
    rw [hall c hmem] at h
    cases h

theorem mark_not_word {c : UInt16} (h : isWord c = true) : c ∉ marks ∧ c ≠ unit '=' := by
  have hall : ∀ d ∈ marks ++ [unit '='], isWord d = false := by decide
  have hnot : c ∉ marks ++ [unit '='] := fun hmem => by
    rw [hall c hmem] at h
    cases h
  rwa [List.mem_append,not_or,List.mem_singleton] at hnot

theorem isIdentifier_word {s : Units} (h : ToolCalls.isIdentifier s = true) :
    s ≠ [] ∧ ∀ c ∈ s, isWord c = true := by
  cases s with
  | nil => cases h
  | cons c s =>
    simp only [ToolCalls.isIdentifier,Bool.and_eq_true,List.all_eq_true] at h
    exact ⟨List.cons_ne_nil c s,List.forall_mem_cons.mpr ⟨h.1.1,h.2⟩⟩

theorem tight_of_word {s : Units} (hne : s ≠ []) (h : ∀ c ∈ s, isWord c = true) : Tight s :=
  ⟨hne,fun c hc => padding_not_word (h c (List.mem_of_mem_head? hc)),
    fun c hc => padding_not_word (h c (List.mem_of_getLast? hc))⟩

/-! ## Arguments -/

theorem isPadding_quote {q : UInt16} (hq : q = unit '"' ∨ q = unit '\'') : isPadding q = false := by
  rcases hq with rfl | rfl <;> decide

theorem Literal.WellFormed.tight {l : Literal} (h : l.WellFormed) : Tight l.text := by
  cases l with
  | quoted q body =>
    refine ⟨List.cons_ne_nil _ _,fun c hc => ?_,fun c hc => ?_⟩
    · cases hc
      exact isPadding_quote h.1
    · rw [Literal.text,← List.cons_append,List.getLast?_append_of_ne_nil _ (List.cons_ne_nil q [])] at hc
      cases hc
      exact isPadding_quote h.1
  | bare t => exact ⟨h.1,h.2.2.1,h.2.2.2⟩

theorem Arg.WellFormed.tight {a : Arg} (h : a.WellFormed) : Tight a.core := by
  have hl := h.literal.tight
  rw [Arg.core,Arg.keyText]
  cases hk : a.key with
  | none => exact hl
  | some key =>
    obtain ⟨hne,hword⟩ := isIdentifier_word (h.key key hk)
    have hkey := tight_of_word hne hword
    refine ⟨List.append_ne_nil_of_right_ne_nil _ hl.ne,fun c hc => hkey.head c ?_,fun c hc => ?_⟩
    · simp only [List.append_assoc,List.head?_append_of_ne_nil _ hne] at hc
      exact hc
    · rw [List.getLast?_append_of_ne_nil _ hl.ne] at hc
      exact hl.last c hc

/-! ## Splitting in the web app -/

/-- Text without a mark, which both splitters pass over outside of strings. -/
def Ordinary (t : Units) : Prop := ∀ c ∈ t, c ∉ marks

theorem ne_of_not_mark {c : UInt16} (h : c ∉ marks) :
    c ≠ unit '"' ∧ c ≠ unit '\'' ∧ c ≠ unit '(' ∧ c ≠ unit ')' ∧ c ≠ unit '[' ∧ c ≠ unit ']' ∧
      c ≠ unit '{' ∧ c ≠ unit '}' ∧ c ≠ unit ',' := by
  refine ⟨?_,?_,?_,?_,?_,?_,?_,?_,?_⟩
  all_goals
    rintro rfl
    exact h (by decide)

theorem web_parts_cons {c : UInt16} (hc : c ∉ marks) (d : ℤ) (esc : Bool) (q : UInt16)
    (part s : Units) :
    ToolCalls.parts d false esc q part (c :: s) =
      ToolCalls.parts d false esc q (part ++ [c]) s := by
  obtain ⟨h₁,h₂,h₃,h₄,h₅,h₆,h₇,h₈,h₉⟩ := ne_of_not_mark hc
  rw [ToolCalls.parts]
  simp [h₁,h₂,h₃,h₄,h₅,h₆,h₇,h₈,h₉]

theorem web_parts_ordinary {t : Units} (ht : Ordinary t) (q : UInt16) (part s : Units) :
    ToolCalls.parts 0 false false q part (t ++ s) =
      ToolCalls.parts 0 false false q (part ++ t) s := by
  induction t generalizing part with
  | nil => rw [List.nil_append,List.append_nil]
  | cons c t ih =>
    rw [List.cons_append,web_parts_cons (ht c List.mem_cons_self),
      ih (fun d hd => ht d (List.mem_cons_of_mem c hd)),List.append_assoc]
    rfl

theorem quote_ne_backslash {q : UInt16} (hq : q = unit '"' ∨ q = unit '\'') : q ≠ unit '\\' := by
  rcases hq with rfl | rfl <;> decide

theorem web_parts_body {q : UInt16} (hq : q = unit '"' ∨ q = unit '\'') {esc : Bool} {body : Units}
    (hbody : Escaped q esc body) (part s : Units) :
    ToolCalls.parts 0 true esc q part (body ++ (q :: s)) =
      ToolCalls.parts 0 false false q (part ++ (body ++ [q])) s := by
  induction body generalizing esc part with
  | nil =>
    have hesc : esc = false := hbody
    have hback := quote_ne_backslash hq
    rw [List.nil_append,ToolCalls.parts]
    simp [hesc,hback]
  | cons c body ih =>
    rw [List.cons_append,ToolCalls.parts]
    have happend : part ++ (c :: body ++ [q]) = part ++ [c] ++ (body ++ [q]) := by
      simp only [List.append_assoc,List.cons_append,List.nil_append]
    rw [happend]
    simp only [Escaped] at hbody
    simp only [if_true]
    cases esc with
    | true => exact ih hbody _
    | false =>
      simp only [Bool.false_eq_true,if_false] at hbody ⊢
      by_cases hc : c = unit '\\'
      · rw [if_pos hc] at hbody ⊢
        exact ih hbody _
      · rw [if_neg hc] at hbody ⊢
        simp only [hbody.1,ne_eq,not_false_eq_true,decide_true]
        exact ih hbody.2 _

theorem web_parts_literal {l : Literal} (hl : l.WellFormed) (q : UInt16) (part s : Units) :
    ∃ q', ToolCalls.parts 0 false false q part (l.text ++ s) =
      ToolCalls.parts 0 false false q' (part ++ l.text) s := by
  cases l with
  | bare t => exact ⟨q,web_parts_ordinary (fun c hc => (hl.2.1 c hc).1) q part s⟩
  | quoted q' body =>
    obtain ⟨hq,hbody⟩ := hl
    refine ⟨q',?_⟩
    have hquote : (q' = unit '"' || q' = unit '\'') = true := by simpa using hq
    have hstart : ToolCalls.parts 0 false false q part (q' :: (body ++ (q' :: s))) =
        ToolCalls.parts 0 true false q' (part ++ [q']) (body ++ (q' :: s)) := by
      rw [ToolCalls.parts]
      simp only [Bool.false_eq_true,if_false,hquote,if_true]
    have htext : Literal.text (.quoted q' body) ++ s = q' :: (body ++ (q' :: s)) := by
      simp only [Literal.text,List.cons_append,List.append_assoc,List.nil_append]
    rw [htext,hstart,web_parts_body hq hbody]
    simp only [Literal.text,List.append_assoc,List.cons_append,List.nil_append]

theorem ordinary_of_blank {t : Units} (h : ∀ c ∈ t, isBlank c = true) : Ordinary t := by
  have hall : ∀ d ∈ marks, isBlank d = false := by decide
  intro c hc hmem
  have hblank := h c hc
  rw [hall c hmem] at hblank
  cases hblank

theorem Arg.WellFormed.keyText {a : Arg} (h : a.WellFormed) : Ordinary a.keyText := by
  rw [Arg.keyText]
  cases hk : a.key with
  | none => exact nofun
  | some key =>
    intro c hc
    rcases List.mem_append.mp hc with hc | hc
    · exact (mark_not_word ((isIdentifier_word (h.key key hk)).2 c hc)).1
    · rw [List.mem_singleton.mp hc]
      decide

theorem web_parts_arg {a : Arg} (ha : a.WellFormed) (q : UInt16) (part s : Units) :
    ∃ q', ToolCalls.parts 0 false false q part (a.text ++ s) =
      ToolCalls.parts 0 false false q' (part ++ a.text) s := by
  have htext : a.text ++ s = a.before ++ (a.keyText ++ (a.literal.text ++ (a.after ++ s))) := by
    simp only [Arg.text,Arg.core,List.append_assoc]
  obtain ⟨q',hq'⟩ := web_parts_literal ha.literal q (part ++ a.before ++ a.keyText) (a.after ++ s)
  refine ⟨q',?_⟩
  rw [htext,web_parts_ordinary (ordinary_of_blank ha.before),web_parts_ordinary ha.keyText,hq',
    web_parts_ordinary (ordinary_of_blank ha.after)]
  simp only [Arg.text,Arg.core,List.append_assoc]

theorem web_parts_comma (q : UInt16) (part s : Units) :
    ToolCalls.parts 0 false false q part (unit ',' :: s) =
      part :: ToolCalls.parts 0 false false q [] s := by
  rw [ToolCalls.parts]
  rfl

theorem web_parts_join {args : List Arg} (hargs : ∀ a ∈ args, a.WellFormed) (hne : args ≠ [])
    (q : UInt16) :
    ToolCalls.parts 0 false false q [] (joinArgs args) = args.map Arg.text := by
  induction args generalizing q with
  | nil => exact absurd rfl hne
  | cons a args ih =>
    obtain ⟨ha,hargs⟩ := List.forall_mem_cons.mp hargs
    cases args with
    | nil =>
      obtain ⟨q',hq'⟩ := web_parts_arg ha q [] []
      rw [List.append_nil,List.nil_append] at hq'
      exact hq'
    | cons b args =>
      obtain ⟨q',hq'⟩ := web_parts_arg ha q [] (unit ',' :: joinArgs (b :: args))
      rw [joinArgs,hq',web_parts_comma,ih hargs (List.cons_ne_nil b args) q']
      rfl

/-! ### White space around the whole list -/

theorem web_parts_prefix (d : ℤ) (inStr esc : Bool) (q : UInt16) (p part s : Units) :
    ∃ first rest, ToolCalls.parts d inStr esc q part s = first :: rest ∧
      ToolCalls.parts d inStr esc q (p ++ part) s = (p ++ first) :: rest := by
  induction s generalizing d inStr esc q part with
  | nil => exact ⟨part,[],rfl,rfl⟩
  | cons c s ih =>
    have hstep : ∀ (d : ℤ) (inStr esc : Bool) (q : UInt16),
        ∃ first rest, ToolCalls.parts d inStr esc q (part ++ [c]) s = first :: rest ∧
          ToolCalls.parts d inStr esc q (p ++ part ++ [c]) s = (p ++ first) :: rest := by
      intro d inStr esc q
      rw [List.append_assoc]
      exact ih d inStr esc q (part ++ [c])
    rw [ToolCalls.parts,ToolCalls.parts]
    split
    · exact hstep _ _ _ _
    · split
      · exact hstep _ _ _ _
      · split
        · exact hstep _ _ _ _
        · split
          · exact hstep _ _ _ _
          · split
            · exact ⟨part,_,rfl,rfl⟩
            · exact hstep _ _ _ _

theorem web_parts_tail {w : Units} (hw : Ordinary w) (d : ℤ) (inStr esc : Bool) (q : UInt16)
    (part : Units) : ToolCalls.parts d inStr esc q part w = [part ++ w] := by
  induction w generalizing inStr esc part with
  | nil => rw [ToolCalls.parts,List.append_nil]
  | cons c w ih =>
    have hrest : Ordinary w := fun e he => hw e (List.mem_cons_of_mem c he)
    have happend : part ++ c :: w = part ++ [c] ++ w := List.append_cons part c w
    rw [happend]
    cases inStr with
    | true =>
      rw [ToolCalls.parts]
      simp only [if_true]
      exact ih hrest _ _ _
    | false =>
      rw [web_parts_cons (hw c List.mem_cons_self)]
      exact ih hrest _ _ _

theorem web_parts_suffix {w : Units} (hw : Ordinary w) (d : ℤ) (inStr esc : Bool) (q : UInt16)
    (part s : Units) :
    ∃ init last, ToolCalls.parts d inStr esc q part s = init ++ [last] ∧
      ToolCalls.parts d inStr esc q part (s ++ w) = init ++ [last ++ w] := by
  induction s generalizing d inStr esc q part with
  | nil => exact ⟨[],part,by rw [ToolCalls.parts]; rfl,web_parts_tail hw d inStr esc q part⟩
  | cons c s ih =>
    rw [List.cons_append,ToolCalls.parts,ToolCalls.parts]
    split
    · exact ih _ _ _ _ _
    · split
      · exact ih _ _ _ _ _
      · split
        · exact ih _ _ _ _ _
        · split
          · exact ih _ _ _ _ _
          · split
            · obtain ⟨init,last,h,h'⟩ := ih d false esc q []
              exact ⟨part :: init,last,by rw [h]; rfl,by rw [h']; rfl⟩
            · exact ih _ _ _ _ _

theorem ordinary_of_space {w : Units} (hw : Blank w) : Ordinary w := by
  have hall : ∀ d ∈ marks, isSpace d = false := by decide
  intro c hc hmem
  have hspace := hw c hc
  rw [hall c hmem] at hspace
  cases hspace

theorem web_splitArgs_trim (s : Units) :
    ToolCalls.splitArgs (Text.trim s) = ToolCalls.splitArgs s := by
  obtain ⟨w,w',hw,hw',hs⟩ := exists_trim s
  obtain ⟨first,rest,h,hpre⟩ := web_parts_prefix 0 false false 0 w [] (Text.trim s ++ w')
  obtain ⟨init,last,h',hsuf⟩ := web_parts_suffix (ordinary_of_space hw') 0 false false 0 []
    (Text.trim s)
  have hfront : ToolCalls.parts 0 false false 0 [] s = (w ++ first) :: rest := by
    conv_lhs => rw [hs]
    rw [web_parts_ordinary (ordinary_of_space hw),List.nil_append]
    rwa [List.append_nil] at hpre
  have hmap : (ToolCalls.parts 0 false false 0 [] s).map Text.trim =
      (ToolCalls.parts 0 false false 0 [] (Text.trim s)).map Text.trim := by
    rw [hfront,List.map_cons,trim_append_left hw,← List.map_cons (f := Text.trim),← h,hsuf,h',
      List.map_append,List.map_append]
    simp only [List.map_singleton,trim_append_right hw']
  rw [ToolCalls.splitArgs,ToolCalls.splitArgs,hmap]

theorem web_splitArgs_join {args : List Arg} (hargs : ∀ a ∈ args, a.WellFormed) :
    ToolCalls.splitArgs (joinArgs args) = args.map Arg.core := by
  cases args with
  | nil => decide
  | cons a args =>
    rw [ToolCalls.splitArgs,web_parts_join hargs (List.cons_ne_nil a args),List.map_map]
    have hmap : (a :: args).map (Text.trim ∘ Arg.text) = (a :: args).map Arg.core :=
      List.map_congr_left (fun b hb =>
        (hargs b hb).tight.trim_padded (hargs b hb).before (hargs b hb).after)
    rw [hmap,List.filter_eq_self]
    intro x hx
    obtain ⟨b,hb,rfl⟩ := List.mem_map.mp hx
    simpa using (hargs b hb).tight.ne

/-! ## Splitting in the native app -/

theorem scan_append (st : Splitter) (t s : Units) :
    scan st (t ++ s) = (scan st t).bind (fun st => scan st s) := by
  induction t generalizing st with
  | nil => rfl
  | cons c t ih =>
    rw [List.cons_append,scan,scan]
    split
    · exact ih _
    · split
      · exact ih _
      · split
        · exact ih _
        · split
          · exact ih _
          · split
            · rfl
            · exact ih _

/-- The splitter goes on where the scan has left it. -/
theorem parts_of_scan {st st' : Splitter} {t : Units} (h : scan st t = some st') (part s : Units) :
    parts st.1 st.2.1 st.2.2 part (t ++ s) = parts st'.1 st'.2.1 st'.2.2 (part ++ t) s := by
  induction t generalizing st part with
  | nil =>
    cases h
    rw [List.nil_append,List.append_nil]
  | cons c t ih =>
    rw [scan] at h
    have happend : part ++ c :: t = part ++ [c] ++ t := List.append_cons part c t
    rw [List.cons_append,parts,happend]
    split at h
    · rename_i hin
      rw [if_pos hin]
      exact ih h _
    · rename_i hin
      rw [if_neg hin]
      split at h
      · rename_i hc
        rw [if_pos hc]
        exact ih h _
      · rename_i hc
        rw [if_neg hc]
        split at h
        · rename_i hc
          rw [if_pos hc]
          exact ih h _
        · rename_i hc
          rw [if_neg hc]
          split at h
          · rename_i hc
            rw [if_pos hc]
            exact ih h _
          · rename_i hc
            rw [if_neg hc]
            split at h
            · cases h
            · rename_i hc
              rw [if_neg hc]
              exact ih h _

theorem scan_ordinary {t : Units} (ht : Ordinary t) (d : ℤ) (q : UInt16) :
    scan (d,false,q) t = some (d,false,q) := by
  induction t with
  | nil => rfl
  | cons c t ih =>
    obtain ⟨h₁,h₂,h₃,h₄,h₅,h₆,h₇,h₈,h₉⟩ := ne_of_not_mark (ht c List.mem_cons_self)
    have hstep : scan (d,false,q) (c :: t) = scan (d,false,q) t := by
      rw [scan]
      simp [h₁,h₂,h₃,h₄,h₅,h₆,h₇,h₈,h₉]
    exact hstep.trans (ih (fun e he => ht e (List.mem_cons_of_mem c he)))

theorem scan_ordinary_isSome {t : Units} (ht : Ordinary t) (st : Splitter) :
    ∃ st', scan st t = some st' := by
  induction t generalizing st with
  | nil => exact ⟨st,rfl⟩
  | cons c t ih =>
    have hrest : Ordinary t := fun e he => ht e (List.mem_cons_of_mem c he)
    obtain ⟨d,inStr,q⟩ := st
    cases inStr with
    | true =>
      rw [scan]
      exact ih hrest _
    | false => exact ⟨_,scan_ordinary ht d q⟩

/-- Which quote was met last makes no difference before a literal. -/
theorem scan_literal {l : Literal} (hl : l.WellFormed) {isLast : Bool} (hs : l.Steady isLast)
    (q : UInt16) :
    ∃ d inStr q', scan (0,false,q) l.text = some (d,inStr,q') ∧
      (isLast = true ∨ d = 0 ∧ inStr = false) := by
  cases l with
  | bare t => exact ⟨0,false,q,scan_ordinary (fun c hc => (hl.2.1 c hc).1) 0 q,.inr ⟨rfl,rfl⟩⟩
  | quoted q' body =>
    have hquote : (q' = unit '"' || q' = unit '\'') = true := by simpa using hl.1
    have hstart (p : UInt16) : scan (0,false,p) (Literal.text (.quoted q' body)) =
        scan (0,true,q') (body ++ [q']) := by
      rw [Literal.text,scan]
      simp only [Bool.false_eq_true,if_false,hquote,if_true]
    rw [Literal.Steady,hstart] at hs
    rw [hstart]
    split at hs
    · exact absurd hs nofun
    · rename_i d inStr p hscan
      exact ⟨d,inStr,p,hscan,hs⟩

theorem parts_comma (q : UInt16) (part s : Units) :
    parts 0 false q part (unit ',' :: s) = part :: parts 0 false q [] s := by
  rw [parts]
  rfl

/-- An argument leaves the splitter where its literal does. -/
theorem scan_arg {a : Arg} (ha : a.WellFormed) {isLast : Bool} (hs : a.literal.Steady isLast)
    (q : UInt16) :
    ∃ st, scan (0,false,q) a.text = some st ∧
      (isLast = true ∨ ∃ q', st = (0,false,q')) := by
  obtain ⟨d,inStr,q',hscan,hend⟩ := scan_literal ha.literal hs q
  have htext : a.text = a.before ++ (a.keyText ++ (a.literal.text ++ a.after)) := by
    simp only [Arg.text,Arg.core,List.append_assoc]
  have hafter := ordinary_of_blank ha.after
  rw [htext,scan_append,scan_ordinary (ordinary_of_blank ha.before),Option.bind_some,scan_append,
    scan_ordinary ha.keyText,Option.bind_some,scan_append,hscan,Option.bind_some]
  rcases hend with hlast | ⟨rfl,rfl⟩
  · obtain ⟨st,hst⟩ := scan_ordinary_isSome hafter (d,inStr,q')
    exact ⟨st,hst,.inl hlast⟩
  · exact ⟨_,scan_ordinary hafter 0 q',.inr ⟨q',rfl⟩⟩

/-! ## Values -/

theorem head_of_quoted {q : UInt16} {body : Units} {c : Char} :
    (q :: (body ++ [q])).head? = some (unit c) ∧ (q :: (body ++ [q])).getLast? = some (unit c) ↔
      q = unit c := by
  have hlast : (q :: (body ++ [q])).getLast? = some q := by
    rw [← List.cons_append,List.getLast?_append_of_ne_nil _ (List.cons_ne_nil q [])]
    rfl
  rw [hlast,List.head?_cons,Option.some.injEq,and_self]

/-- Both read the same string from a literal that is as it is printed. -/
theorem valueText_parseScalar {number : Units → Units} {l : Literal} (hl : l.WellFormed)
    (hv : l.Verbatim number) : valueText number (ToolCalls.parseScalar l.text) = unquote l.text := by
  have htrim := hl.tight.trim_eq
  cases l with
  | quoted q body =>
    have hquoted : (q = unit '"' ∨ q = unit '\'') := hl.1
    have hboth (c : Char) : (decide ((q :: (body ++ [q])).head? = some (unit c)) &&
        decide ((q :: (body ++ [q])).getLast? = some (unit c))) = decide (q = unit c) := by
      rw [← Bool.decide_and,decide_eq_decide]
      exact head_of_quoted
    have hlen : 2 ≤ (q :: (body ++ [q])).length := by simp
    rw [Literal.text] at htrim
    rw [Literal.text]
    simp only [ToolCalls.parseScalar,unquote,htrim,hboth,hlen,decide_true,Bool.true_and,
      Bool.or_eq_true,decide_eq_true_eq,hquoted,if_true,valueText]
  | bare t =>
    obtain ⟨htrue,hfalse,hnone,hnumber⟩ := hv
    have hhead : ∀ c ∈ ['"','\''], t.head? ≠ some (unit c) := by
      intro c hc hhead
      have hmark : unit c ∈ marks := by
        have hall : (['"','\''].all (fun c => marks.contains (unit c))) = true := by decide
        exact List.contains_iff_mem.mp (List.all_eq_true.mp hall c hc)
      exact (hl.2.1 _ (List.mem_of_mem_head? hhead)).1 hmark
    have hdouble := hhead '"' (by decide)
    have hsingle := hhead '\'' (by decide)
    rw [Literal.text] at htrim
    have hraw : unquote t = t := by
      simp only [unquote,hdouble,hsingle,decide_false,Bool.false_and,Bool.or_self,Bool.and_false,
        Bool.false_eq_true,if_false]
    rw [Literal.text,hraw]
    simp only [ToolCalls.parseScalar,htrim,hdouble,hsingle,decide_false,Bool.false_and,
      Bool.or_self,Bool.false_eq_true,if_false,htrue,hfalse,hnone,decide_false,
      Bool.or_false,decide_eq_true_eq]
    split
    · rename_i ht
      rw [ht]
      rfl
    · split
      · rename_i ht
        rw [ht]
        rfl
      · split
        · rename_i ht
          rw [ht]
          rfl
        · split
          · rename_i ht
            simp only [Bool.and_eq_true] at ht
            exact hnumber ht.2
          · rfl

end Rullama.Native.ToolCalling
