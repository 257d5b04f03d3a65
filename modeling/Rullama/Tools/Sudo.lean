import Rullama.Text.Trim
import Rullama.Tools.Json

/-! # Commands that need sudo

A command line is searched for `sudo` before it is run, so that the password can be asked for. It
is cut at some of the separators of the shell, and what is left must begin with the word.
-/
namespace Rullama.Tools
open Text

def isCut (c : Char) : Bool := c = '|' || c = ';'

def andAnd : List Char := "&&".toList

def startsSudo (part : List Char) : Bool :=
  part = "sudo".toList || "sudo ".toList.isPrefixOf part

def commandNeedsSudo (command : List Char) : Bool :=
  (command.splitOnP isCut).any (fun segment =>
    (parts andAnd (trimmed isWhitespace segment)).any (fun part =>
      startsSudo (trimmed isWhitespace part)))

/-! ## Command lines -/

inductive Joiner where
  | semicolon
  | pipe
  | orElse
  | background
  | andThen
  | newline
deriving DecidableEq

def Joiner.text : Joiner → List Char
  | semicolon => [';']
  | pipe => ['|']
  | orElse => ['|','|']
  | background => ['&']
  | andThen => ['&','&']
  | newline => ['\n']

/-- The line is cut there. -/
def Joiner.cuts : Joiner → Bool
  | background | newline => false
  | _ => true

def isBlank (c : Char) : Bool := c = ' ' || c = '\t'

/-- Neither white space nor a separator, and without a meaning for quoting or substitution. -/
def isUnquoted (c : Char) : Bool := !isWhitespace c && !";|&'\"\\$\x60".toList.contains c

abbrev Blanks := {s : List Char // ∀ c ∈ s, isBlank c = true}

abbrev PlainWord := {s : List Char // s ≠ [] ∧ ∀ c ∈ s, isUnquoted c = true}

/-- The words of a simple command with the blanks before, between and behind them. -/
structure SimpleCommand where
  lead : Blanks
  first : PlainWord
  more : List ({gap : Blanks // gap.val ≠ []} × PlainWord)
  trail : Blanks

namespace SimpleCommand

def behind (c : SimpleCommand) : List Char :=
  c.more.flatMap (fun p => p.1.val.val ++ p.2.val) ++ c.trail.val

def text (c : SimpleCommand) : List Char := c.lead.val ++ (c.first.val ++ c.behind)

def IsSudo (c : SimpleCommand) : Prop := c.first.val = "sudo".toList

end SimpleCommand

/-- Simple commands that are joined to each other. -/
structure CommandLine where
  first : SimpleCommand
  more : List (Joiner × SimpleCommand)

def textFrom : SimpleCommand → List (Joiner × SimpleCommand) → List Char
  | c, [] => c.text
  | c, (joiner,d) :: more => c.text ++ (joiner.text ++ textFrom d more)

namespace CommandLine

def text (line : CommandLine) : List Char := textFrom line.first line.more

def commands (line : CommandLine) : List SimpleCommand := line.first :: line.more.map Prod.snd

end CommandLine

/-- A simple command where it stands: whether the line is cut before it, and whether the next one is
joined to it without a cut. -/
structure Stand where
  leads : Bool
  command : SimpleCommand
  goesOn : Bool

def goesOn : List (Joiner × SimpleCommand) → Bool
  | [] => false
  | (joiner,_) :: _ => !joiner.cuts

def standsFrom : List (Joiner × SimpleCommand) → List Stand
  | [] => []
  | (joiner,d) :: more => ⟨joiner.cuts,d,goesOn more⟩ :: standsFrom more

def CommandLine.stands (line : CommandLine) : List Stand :=
  ⟨true,line.first,goesOn line.more⟩ :: standsFrom line.more

/-- The line is cut before the `sudo`, and behind it comes a space or nothing up to the next cut but
blanks. -/
def Stand.Seen (s : Stand) : Prop :=
  s.leads = true ∧ s.command.IsSudo ∧
    (s.command.behind.head? = some ' ' ∨ s.command.more = [] ∧ s.goesOn = false)

/-! ## Where a line is cut -/

def pieces (command : List Char) : List (List Char) :=
  (command.splitOnP isCut).flatMap (parts andAnd)

theorem andAnd_ne_nil : andAnd ≠ [] := by decide

theorem commandNeedsSudo_iff {command : List Char} : commandNeedsSudo command = true ↔
    ∃ piece ∈ pieces command, startsSudo (trimmed isWhitespace piece) = true := by
  have hsegment (segment : List Char) :
      ((parts andAnd (trimmed isWhitespace segment)).any fun part =>
        startsSudo (trimmed isWhitespace part)) =
      (parts andAnd segment).any fun part => startsSudo (trimmed isWhitespace part) := by
    have hmap : (parts andAnd (trimmed isWhitespace segment)).map (trimmed isWhitespace) =
        (parts andAnd segment).map (trimmed isWhitespace) :=
      map_trimmed_parts andAnd_ne_nil (forall_mem_of_all (by decide)) segment
    have hany := congrArg (List.any · startsSudo) hmap
    simp only [List.any_map] at hany
    exact hany
  simp only [commandNeedsSudo,hsegment,← List.any_flatMap]
  exact List.any_eq_true

variable {c : Char} {s u : List Char}

theorem pieces_cut (h : isCut c = true) (s : List Char) : pieces (c :: s) = [] :: pieces s := by
  rw [pieces,List.splitOnP_cons_eq_if_modifyHead,if_pos h]
  rfl

theorem exists_splitOnP (s : List Char) :
    ∃ segment segments, s.splitOnP isCut = segment :: segments ∧ segment <+: s := by
  induction s with
  | nil => exact ⟨[],[],rfl,List.prefix_rfl⟩
  | cons c s ih =>
    rw [List.splitOnP_cons_eq_if_modifyHead]
    obtain ⟨segment,segments,hsplit,hpre⟩ := ih
    by_cases hc : isCut c = true
    · rw [if_pos hc]
      exact ⟨_,_,rfl,List.nil_prefix⟩
    · rw [if_neg hc,hsplit]
      exact ⟨_,_,rfl,List.cons_prefix_cons.mpr ⟨rfl,hpre⟩⟩

theorem pieces_ne_nil (s : List Char) : pieces s ≠ [] := by
  obtain ⟨segment,segments,hsplit,-⟩ := exists_splitOnP s
  rw [pieces,hsplit,List.flatMap_cons]
  intro h
  have hparts := (List.append_eq_nil_iff.mp h).1
  rw [parts] at hparts
  simp at hparts

theorem pieces_cons (hc : isCut c = false) (hand : ¬andAnd <+: c :: s) :
    pieces (c :: s) = (pieces s).modifyHead (c :: ·) := by
  obtain ⟨segment,segments,hsplit,hpre⟩ := exists_splitOnP s
  have hnot : ¬andAnd <+: c :: segment := fun h =>
    hand (h.trans (List.cons_prefix_cons.mpr ⟨rfl,hpre⟩))
  have hparts := parts_cons andAnd_ne_nil hnot
  rw [pieces,pieces,List.splitOnP_cons_eq_if_modifyHead,hc,if_neg Bool.false_ne_true,hsplit,
    List.modifyHead_cons,List.flatMap_cons,List.flatMap_cons,hparts]
  cases hseg : parts andAnd segment with
  | nil =>
    rw [parts] at hseg
    simp at hseg
  | cons part rest => rfl

theorem pieces_andAnd (s : List Char) : pieces ('&' :: '&' :: s) = [] :: pieces s := by
  obtain ⟨segment,segments,hsplit,-⟩ := exists_splitOnP s
  have hamp : isCut '&' = false := rfl
  rw [pieces,pieces,List.splitOnP_cons_eq_if_modifyHead,hamp,if_neg Bool.false_ne_true,
    List.splitOnP_cons_eq_if_modifyHead,hamp,if_neg Bool.false_ne_true,hsplit,List.modifyHead_cons,
    List.modifyHead_cons,List.flatMap_cons,List.flatMap_cons]
  have hparts : parts andAnd ('&' :: '&' :: segment) = [] :: parts andAnd segment :=
    parts_append_marker andAnd_ne_nil segment
  rw [hparts]
  rfl

/-- Nothing is cut in a text without separators. -/
theorem pieces_append (hu : ∀ c ∈ u, isCut c = false ∧ c ≠ '&') (s : List Char) :
    pieces (u ++ s) = (pieces s).modifyHead (u ++ ·) := by
  induction u with
  | nil =>
    rw [List.nil_append]
    cases pieces s <;> rfl
  | cons c u ih =>
    obtain ⟨hcut,hamp⟩ := hu c (.head _)
    have hand : ¬andAnd <+: c :: (u ++ s) := by
      rintro ⟨t,ht⟩
      exact hamp (List.cons.inj ht).1.symm
    rw [List.cons_append,pieces_cons hcut hand,ih fun d hd => hu d (.tail _ hd),
      List.modifyHead_modifyHead]
    rfl

/-! ## The parts of a command line -/

theorem not_plain_of_blank (h : isBlank c = true) : isUnquoted c = false := by
  rw [isBlank,Bool.or_eq_true,decide_eq_true_eq,decide_eq_true_eq] at h
  rcases h with rfl | rfl <;> rfl

theorem isWhitespace_of_blank (h : isBlank c = true) : isWhitespace c = true := by
  rw [isBlank,Bool.or_eq_true,decide_eq_true_eq,decide_eq_true_eq] at h
  rcases h with rfl | rfl <;> rfl

theorem not_whitespace_of_plain (h : isUnquoted c = true) : isWhitespace c = false := by
  rw [isUnquoted,Bool.and_eq_true] at h
  simpa using h.1

theorem uncut_of_blank (h : isBlank c = true) : isCut c = false ∧ c ≠ '&' := by
  rw [isBlank,Bool.or_eq_true,decide_eq_true_eq,decide_eq_true_eq] at h
  rcases h with rfl | rfl <;> exact ⟨rfl,by decide⟩

theorem uncut_of_plain (h : isUnquoted c = true) : isCut c = false ∧ c ≠ '&' := by
  constructor
  · by_contra hcut
    rw [Bool.not_eq_false,isCut,Bool.or_eq_true,decide_eq_true_eq,decide_eq_true_eq] at hcut
    rcases hcut with rfl | rfl <;> cases h
  · rintro rfl
    cases h

namespace SimpleCommand
variable (d : SimpleCommand)

theorem uncut_behind : ∀ c ∈ d.behind, isCut c = false ∧ c ≠ '&' := by
  intro c hc
  rcases List.mem_append.mp hc with hc | hc
  · obtain ⟨p,-,hp⟩ := List.mem_flatMap.mp hc
    rcases List.mem_append.mp hp with hp | hp
    · exact uncut_of_blank (p.1.val.property c hp)
    · exact uncut_of_plain (p.2.property.2 c hp)
  · exact uncut_of_blank (d.trail.property c hc)

theorem uncut : ∀ c ∈ d.text, isCut c = false ∧ c ≠ '&' := by
  intro c hc
  rcases List.mem_append.mp hc with hc | hc
  · exact uncut_of_blank (d.lead.property c hc)
  · rcases List.mem_append.mp hc with hc | hc
    · exact uncut_of_plain (d.first.property.2 c hc)
    · exact d.uncut_behind c hc

/-- Behind the first word come blanks, if anything. -/
theorem head?_behind : ∀ c ∈ d.behind.head?, isBlank c = true := by
  obtain ⟨lead,first,more,trail⟩ := d
  cases more with
  | nil =>
    intro c hc
    exact trail.property c (List.mem_of_mem_head? hc)
  | cons p more =>
    obtain ⟨⟨gap,hgap⟩,word⟩ := p
    obtain ⟨b,bs,hb⟩ := List.exists_cons_of_ne_nil hgap
    intro c hc
    have hhead : c = b := by
      simp only [behind,List.flatMap_cons,hb,List.cons_append,List.head?_cons,Option.mem_def,
        Option.some.injEq] at hc
      exact hc.symm
    rw [hhead]
    exact gap.property b (by rw [hb]; exact .head _)

theorem behind_blank_iff : (∀ c ∈ d.behind, isWhitespace c = true) ↔ d.more = [] := by
  obtain ⟨lead,first,more,trail⟩ := d
  cases more with
  | nil =>
    refine iff_of_true (fun c hc => ?_) rfl
    exact isWhitespace_of_blank (trail.property c hc)
  | cons p more =>
    refine iff_of_false (fun h => ?_) (List.cons_ne_nil _ _)
    obtain ⟨c,cs,hc⟩ := List.exists_cons_of_ne_nil p.2.property.1
    have hmem : c ∈ p.2.val := by rw [hc]; exact .head _
    have hblank := h c (List.mem_append_left _ (List.mem_flatMap.mpr
      ⟨p,.head _,List.mem_append_right _ hmem⟩))
    rw [not_whitespace_of_plain (p.2.property.2 c hmem)] at hblank
    cases hblank

theorem first_not_blank : ∀ c ∈ d.first.val, isWhitespace c = false :=
  fun c hc => not_whitespace_of_plain (d.first.property.2 c hc)

end SimpleCommand

theorem startsSudo_iff {word t : List Char} (hword : ∀ c ∈ word, isUnquoted c = true)
    (ht : ∀ c ∈ t.head?, isUnquoted c = false) :
    startsSudo (word ++ t) = true ↔ word = "sudo".toList ∧ (t = [] ∨ t.head? = some ' ') := by
  have hsudo : ∀ c ∈ "sudo".toList, isUnquoted c = true := forall_mem_of_all (by decide)
  rw [startsSudo,Bool.or_eq_true,decide_eq_true_eq,List.isPrefixOf_iff_prefix]
  constructor
  · rintro (heq | ⟨y,heq⟩)
    · cases t with
      | nil => exact ⟨by rw [← heq,List.append_nil],.inl rfl⟩
      | cons c t =>
        have hplain := hsudo c (by rw [← heq]; simp)
        rw [ht c rfl] at hplain
        cases hplain
    · have hsplit : "sudo".toList ++ (' ' :: y) = word ++ t := heq
      rcases List.append_eq_append_iff.mp hsplit with ⟨e,rfl,he⟩ | ⟨e,he,ht'⟩
      · cases e with
        | nil =>
          refine ⟨List.append_nil _,.inr ?_⟩
          rw [List.nil_append] at he
          rw [← he]
          rfl
        | cons d e =>
          have hspace : ' ' = d := (List.cons.inj he).1
          have hplain := hword d (by simp)
          rw [← hspace] at hplain
          cases hplain
      · cases e with
        | nil =>
          refine ⟨?_,.inr ?_⟩
          · rw [he,List.append_nil]
          · rw [ht']
            rfl
        | cons d e =>
          have hplain := hsudo d (by rw [he]; simp)
          rw [ht d (by rw [ht']; rfl)] at hplain
          cases hplain
  · rintro ⟨rfl,rfl | hspace⟩
    · exact .inl (List.append_nil _)
    · obtain ⟨t',rfl⟩ : ∃ t', t = ' ' :: t' := by
        cases t with
        | nil => cases hspace
        | cons c t =>
          cases hspace
          exact ⟨t,rfl⟩
      exact .inr ⟨t',rfl⟩

/-- What stands behind a simple command without a cut: nothing, or a separator and another
command. -/
def Follows (x : List Char) : Prop :=
  x = [] ∨ (x.head? = some '&' ∨ x.head? = some '\n') ∧ ∃ c ∈ x, isWhitespace c = false

section Trimmed
variable (d : SimpleCommand) {x : List Char}

theorem trimmed_text (x : List Char) : trimmed isWhitespace (d.text ++ x) =
    d.first.val ++ (d.behind ++ x).rdropWhile isWhitespace := by
  obtain ⟨b,bs,hb⟩ := List.exists_cons_of_ne_nil d.first.property.1
  rw [SimpleCommand.text,List.append_assoc,List.append_assoc,
    trimmed_append_left (fun c hc => isWhitespace_of_blank (d.lead.property c hc))]
  refine trimmed_append_of_not_blank (c := b) (by rw [hb]; rfl)
    (d.first_not_blank b (by rw [hb]; exact .head _)) ?_ _
  intro c hc
  exact d.first_not_blank c (List.mem_of_getLast? hc)

/-- The first word ends where it seems to, and a space behind it is one of the command. -/
theorem head?_behind_append (hx : Follows x) : ∀ c ∈ (d.behind ++ x).head?,
    isUnquoted c = false ∧ (c = ' ' ↔ d.behind.head? = some ' ') := by
  intro c hc
  cases hbehind : d.behind with
  | nil =>
    rw [hbehind,List.nil_append] at hc
    rcases hx with rfl | ⟨hamp | hline,-⟩
    · cases hc
    · rw [hamp] at hc
      cases hc
      exact ⟨rfl,by decide⟩
    · rw [hline] at hc
      cases hc
      exact ⟨rfl,by decide⟩
  | cons y ys =>
    rw [hbehind] at hc
    cases hc
    refine ⟨not_plain_of_blank (d.head?_behind c (by rw [hbehind]; rfl)),?_⟩
    rw [List.head?_cons,Option.some.injEq]

/-- All that is behind the first word is taken off only where it is the whole rest. -/
theorem rdropWhile_behind_eq_nil_iff (hx : Follows x) :
    (d.behind ++ x).rdropWhile isWhitespace = [] ↔ d.more = [] ∧ x = [] := by
  rw [List.rdropWhile_eq_nil_iff,List.forall_mem_append,d.behind_blank_iff]
  refine and_congr_right fun _ => ?_
  constructor
  · intro hall
    refine hx.resolve_right ?_
    rintro ⟨-,c,hc,hnot⟩
    rw [hall c hc] at hnot
    cases hnot
  · rintro rfl
    exact List.forall_mem_nil _

theorem startsSudo_text (hx : Follows x) :
    startsSudo (trimmed isWhitespace (d.text ++ x)) = true ↔
      d.IsSudo ∧ (d.behind.head? = some ' ' ∨ d.more = [] ∧ x = []) := by
  have hhead := head?_behind_append d hx
  have hplain : ∀ c ∈ ((d.behind ++ x).rdropWhile isWhitespace).head?, isUnquoted c = false := by
    intro c hc
    have hne : (d.behind ++ x).rdropWhile isWhitespace ≠ [] := by
      intro hnil
      rw [hnil] at hc
      cases hc
    rw [head?_rdropWhile hne] at hc
    exact (hhead c hc).1
  rw [trimmed_text,startsSudo_iff d.first.property.2 hplain,← rdropWhile_behind_eq_nil_iff d hx]
  refine and_congr_right fun _ => ?_
  by_cases hnil : (d.behind ++ x).rdropWhile isWhitespace = []
  · exact iff_of_true (.inl hnil) (.inr hnil)
  · rw [or_iff_right hnil,or_iff_left hnil,head?_rdropWhile hnil]
    have hne : d.behind ++ x ≠ [] := fun hempty => hnil (by rw [hempty]; rfl)
    obtain ⟨c,cs,hcons⟩ := List.exists_cons_of_ne_nil hne
    have hc := (hhead c (by rw [hcons]; rfl)).2
    rw [← hc,hcons,List.head?_cons,Option.some.injEq]

end Trimmed

/-! ## The pieces of a command line -/

/-- What is left of the first piece behind a command, and the other pieces. -/
def tailFrom : List (Joiner × SimpleCommand) → List Char × List (List Char)
  | [] => ([],[])
  | (joiner,d) :: more =>
    let rest := tailFrom more
    if joiner.cuts then
      ([],(if joiner = .orElse then [[]] else []) ++ (d.text ++ rest.1) :: rest.2)
    else (joiner.text ++ (d.text ++ rest.1),rest.2)

theorem exists_textFrom (d : SimpleCommand) (more : List (Joiner × SimpleCommand)) :
    ∃ c s, textFrom d more = c :: s ∧ c ≠ '&' := by
  have hstart : ∃ s, textFrom d more = d.text ++ s := by
    cases more with
    | nil => exact ⟨[],(List.append_nil _).symm⟩
    | cons p more => exact ⟨_,rfl⟩
  obtain ⟨s,hs⟩ := hstart
  have hne : d.text ≠ [] := by
    intro h
    exact d.first.property.1 (List.append_eq_nil_iff.mp (List.append_eq_nil_iff.mp h).2).1
  obtain ⟨c,cs,hc⟩ := List.exists_cons_of_ne_nil hne
  refine ⟨c,cs ++ s,by rw [hs,hc,List.cons_append],?_⟩
  exact (d.uncut c (by rw [hc]; exact .head _)).2

theorem pieces_textFrom (d : SimpleCommand) (more : List (Joiner × SimpleCommand)) :
    pieces (textFrom d more) = (d.text ++ (tailFrom more).1) :: (tailFrom more).2 := by
  induction more generalizing d with
  | nil =>
    have htext := pieces_append d.uncut []
    rw [List.append_nil] at htext
    rw [textFrom,htext]
    rfl
  | cons p more ih =>
    obtain ⟨joiner,e⟩ := p
    obtain ⟨c,s,hstart,hamp⟩ := exists_textFrom e more
    rw [textFrom,pieces_append d.uncut]
    cases joiner with
    | semicolon =>
      have hcut : pieces (Joiner.semicolon.text ++ textFrom e more) =
          [] :: pieces (textFrom e more) :=
        pieces_cut rfl _
      rw [hcut,ih]
      rfl
    | pipe =>
      have hcut : pieces (Joiner.pipe.text ++ textFrom e more) = [] :: pieces (textFrom e more) :=
        pieces_cut rfl _
      rw [hcut,ih]
      rfl
    | orElse =>
      have hcut : pieces (Joiner.orElse.text ++ textFrom e more) =
          [] :: [] :: pieces (textFrom e more) :=
        (pieces_cut rfl _).trans (congrArg ([] :: ·) (pieces_cut rfl _))
      rw [hcut,ih]
      rfl
    | andThen =>
      have hcut : pieces (Joiner.andThen.text ++ textFrom e more) =
          [] :: pieces (textFrom e more) :=
        pieces_andAnd _
      rw [hcut,ih]
      rfl
    | newline =>
      have hkeep : pieces (Joiner.newline.text ++ textFrom e more) =
          (pieces (textFrom e more)).modifyHead (['\n'] ++ ·) :=
        pieces_append (forall_mem_of_all (by decide)) _
      rw [hkeep,ih]
      rfl
    | background =>
      have hkeep : pieces (Joiner.background.text ++ textFrom e more) =
          (pieces (textFrom e more)).modifyHead ('&' :: ·) := by
        refine pieces_cons rfl ?_
        rintro ⟨t,ht⟩
        rw [hstart] at ht
        exact hamp (List.cons.inj (List.cons.inj ht).2).1.symm
      rw [hkeep,ih]
      rfl

theorem follows_tailFrom (more : List (Joiner × SimpleCommand)) : Follows (tailFrom more).1 := by
  cases more with
  | nil => exact .inl rfl
  | cons p more =>
    obtain ⟨joiner,d⟩ := p
    obtain ⟨c,cs,hc⟩ := List.exists_cons_of_ne_nil d.first.property.1
    have hword : c ∈ d.text ++ (tailFrom more).1 := by
      rw [SimpleCommand.text,hc]
      simp
    have hplain := d.first_not_blank c (by rw [hc]; exact .head _)
    cases joiner with
    | background => exact .inr ⟨.inl rfl,c,.tail _ hword,hplain⟩
    | newline => exact .inr ⟨.inr rfl,c,.tail _ hword,hplain⟩
    | _ => exact .inl rfl

theorem tailFrom_eq_nil_iff (more : List (Joiner × SimpleCommand)) :
    (tailFrom more).1 = [] ↔ goesOn more = false := by
  cases more with
  | nil => exact iff_of_true rfl rfl
  | cons p more =>
    obtain ⟨joiner,d⟩ := p
    cases joiner <;> simp [tailFrom,goesOn,Joiner.cuts,Joiner.text]

theorem startsSudo_stand (d : SimpleCommand) (more : List (Joiner × SimpleCommand)) :
    startsSudo (trimmed isWhitespace (d.text ++ (tailFrom more).1)) = true ↔
      (⟨true,d,goesOn more⟩ : Stand).Seen := by
  rw [startsSudo_text d (follows_tailFrom more),tailFrom_eq_nil_iff]
  exact (and_iff_right rfl).symm

/-- The pieces behind the first one are those of the commands that the line is cut before. -/
theorem exists_seen_standsFrom (more : List (Joiner × SimpleCommand)) :
    (∃ piece ∈ (tailFrom more).2, startsSudo (trimmed isWhitespace piece) = true) ↔
      ∃ s ∈ standsFrom more, s.Seen := by
  induction more with
  | nil =>
    refine iff_of_false ?_ ?_
    · rintro ⟨_,h,-⟩
      cases h
    · rintro ⟨_,h,-⟩
      cases h
  | cons p more ih =>
    obtain ⟨joiner,d⟩ := p
    have hhead := startsSudo_stand d more
    rw [standsFrom,List.exists_mem_cons_iff]
    have huncut (b : Bool) (hb : b = false) : ¬(⟨b,d,goesOn more⟩ : Stand).Seen := by
      rintro ⟨hleads,-⟩
      rw [hb] at hleads
      cases hleads
    cases joiner with
    | background =>
      rw [or_iff_right (huncut Joiner.background.cuts rfl),← ih]
      rfl
    | newline =>
      rw [or_iff_right (huncut Joiner.newline.cuts rfl),← ih]
      rfl
    | orElse =>
      rw [← ih]
      change (∃ piece ∈ [] :: (d.text ++ (tailFrom more).1) :: (tailFrom more).2,_) ↔ _
      have hnot : ¬startsSudo (trimmed isWhitespace []) = true := by decide
      rw [List.exists_mem_cons_iff,or_iff_right hnot,List.exists_mem_cons_iff,hhead]
      rfl
    | _ =>
      rw [← ih]
      change (∃ piece ∈ (d.text ++ (tailFrom more).1) :: (tailFrom more).2,_) ↔ _
      rw [List.exists_mem_cons_iff,hhead]
      rfl

theorem commandNeedsSudo_text (line : CommandLine) :
    commandNeedsSudo line.text = true ↔ ∃ s ∈ line.stands, s.Seen := by
  rw [commandNeedsSudo_iff,CommandLine.text,pieces_textFrom,List.exists_mem_cons_iff,
    startsSudo_stand,exists_seen_standsFrom,CommandLine.stands,List.exists_mem_cons_iff]

theorem map_command_standsFrom (more : List (Joiner × SimpleCommand)) :
    (standsFrom more).map Stand.command = more.map Prod.snd := by
  induction more with
  | nil => rfl
  | cons p more ih => exact congrArg (p.2 :: ·) ih

theorem CommandLine.map_command_stands (line : CommandLine) :
    line.stands.map Stand.command = line.commands :=
  congrArg (line.first :: ·) (map_command_standsFrom line.more)

/-- The password is asked for exactly when some command begins with `sudo`, if and only if there is
no such command, or one of them can be seen. -/
theorem needsSudo_iff (line : CommandLine) :
    (commandNeedsSudo line.text = true ↔ ∃ d ∈ line.commands, d.IsSudo) ↔
      ((∃ d ∈ line.commands, d.IsSudo) → ∃ s ∈ line.stands, s.Seen) := by
  rw [commandNeedsSudo_text]
  constructor
  · exact fun h => h.mpr
  · intro h
    refine ⟨?_,h⟩
    rintro ⟨s,hs,-,hsudo,-⟩
    refine ⟨s.command,?_,hsudo⟩
    rw [← line.map_command_stands]
    exact List.mem_map_of_mem hs

/-- `sudo` and `ls`, with a tab between them. -/
def sudoLs : CommandLine where
  first := ⟨⟨[],List.forall_mem_nil _⟩,⟨"sudo".toList,by decide,forall_mem_of_all (by decide)⟩,
    [(⟨⟨['\t'],forall_mem_of_all (by decide)⟩,by decide⟩,
      ⟨"ls".toList,by decide,forall_mem_of_all (by decide)⟩)],⟨[],List.forall_mem_nil _⟩⟩
  more := []

theorem sudoLs_not_seen : ¬ ∀ line : CommandLine,
    (commandNeedsSudo line.text = true ↔ ∃ d ∈ line.commands, d.IsSudo) := by
  intro h
  have hneeds := (h sudoLs).mpr ⟨sudoLs.first,.head _,rfl⟩
  exact absurd hneeds (by decide)

end Rullama.Tools
