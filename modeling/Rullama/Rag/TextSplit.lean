import Rullama.Text.Parts
import Rullama.Text.Units

/-! # Splitting a document into chunks

A text is split on a hierarchy of separators until every piece is short enough, and the pieces
are packed into chunks that carry the end of one into the next. What is carried is not counted
against the length of a chunk before the next piece is added to it.
-/
namespace Rullama.Rag
open Text

structure Chunk where
  text : Units
  /-- Page number for PDF sources. -/
  page : Option ℕ
  deriving DecidableEq

structure SplitOptions where
  chunkChars : Option ℕ
  overlapChars : Option ℕ

def defaultChunkChars : ℕ := 2000

def defaultOverlapChars : ℕ := 256

def separators : List Units :=
  [units "\n\n",units "\n",units ". ",units "? ",units "! ",units "; ",units ", ",units " ",[]]

def SplitOptions.chars (opts : SplitOptions) : ℕ := opts.chunkChars.getD defaultChunkChars

def SplitOptions.overlap (opts : SplitOptions) : ℕ :=
  min (opts.overlapChars.getD defaultOverlapChars) (opts.chars - 1)

/-- Recursively split until each piece has at most `maxChars` units, descending separators. -/
def recursiveSplit (maxChars : ℕ) : List Units → Units → List Units
  | [],text =>
    if text.length ≤ maxChars then if text.length ≠ 0 then [text] else []
    else slices maxChars text
  | sep::rest,text =>
    if text.length ≤ maxChars then if text.length ≠ 0 then [text] else []
    else if sep = [] then slices maxChars text
    else (parts sep text).flatMap (fun part =>
      if maxChars < (part ++ sep).length then recursiveSplit maxChars rest part
      else [part ++ sep])

/-- The next piece does not go into the chunk that is being packed. -/
def Flushes (maxChars : ℕ) (cur piece : Units) : Prop :=
  maxChars < cur.length + piece.length ∧ 0 < cur.length

instance (maxChars : ℕ) (cur piece : Units) : Decidable (Flushes maxChars cur piece) :=
  inferInstanceAs (Decidable (_ ∧ _))

/-- What the next chunk begins with. -/
def carry (overlap : ℕ) (cur : Units) : Units :=
  if 0 < overlap then cur.drop (cur.length - overlap) else []

/-- The loop over the pieces, with the chunk that is being packed. -/
def pack (maxChars overlap : ℕ) : Units → List Units → List Units
  | cur,[] => if (trim cur).length ≠ 0 then [trim cur] else []
  | cur,piece::pieces =>
    if Flushes maxChars cur piece then
      trim cur :: pack maxChars overlap (carry overlap cur ++ piece) pieces
    else pack maxChars overlap (cur ++ piece) pieces

def mergeWithOverlap (pieces : List Units) (maxChars overlap : ℕ) : List Units :=
  (pack maxChars overlap [] pieces).filter (fun c => 0 < c.length)

def splitText (text : Units) (opts : SplitOptions) : List Chunk :=
  (mergeWithOverlap (recursiveSplit opts.chars separators (trim text)) opts.chars
    opts.overlap).map (fun t => ⟨t,none⟩)

def splitPages (pages : List (Units × ℕ)) (opts : SplitOptions) : List Chunk :=
  pages.flatMap (fun p => (splitText p.1 opts).map (fun c => ⟨c.text,some p.2⟩))

variable {maxChars overlap : ℕ}

/-! ## Pieces -/

/-- What every piece keeps to. -/
def Fits (maxChars : ℕ) (piece : Units) : Prop := piece ≠ [] ∧ piece.length ≤ maxChars

theorem recursiveSplit_of_le {text : Units} (h : text.length ≤ maxChars) (seps : List Units) :
    recursiveSplit maxChars seps text = if text.length ≠ 0 then [text] else [] := by
  cases seps with
  | nil => rw [recursiveSplit,if_pos h]
  | cons sep rest => rw [recursiveSplit,if_pos h]

theorem recursiveSplit_nil_of_lt {text : Units} (h : maxChars < text.length) :
    recursiveSplit maxChars [] text = slices maxChars text := by
  rw [recursiveSplit,if_neg (by omega)]

theorem recursiveSplit_blank_of_lt {text : Units} (h : maxChars < text.length)
    (rest : List Units) : recursiveSplit maxChars ([] :: rest) text = slices maxChars text := by
  rw [recursiveSplit,if_neg (by omega),if_pos rfl]

theorem recursiveSplit_cons_of_lt {text sep : Units} (h : maxChars < text.length)
    (hsep : sep ≠ []) (rest : List Units) :
    recursiveSplit maxChars (sep :: rest) text = (parts sep text).flatMap (fun part =>
      if maxChars < (part ++ sep).length then recursiveSplit maxChars rest part
      else [part ++ sep]) := by
  rw [recursiveSplit,if_neg (by omega),if_neg hsep]

/-- Descending separators, every piece is short enough and none is empty. -/
theorem fits_of_mem_recursiveSplit (hmax : 1 ≤ maxChars) {seps : List Units} {text p : Units}
    (hp : p ∈ recursiveSplit maxChars seps text) : Fits maxChars p := by
  induction seps generalizing text with
  | nil =>
    by_cases hlen : text.length ≤ maxChars
    · rw [recursiveSplit_of_le hlen] at hp
      split at hp
      · rename_i hne
        rw [List.mem_singleton] at hp
        subst hp
        exact ⟨fun h => hne (congrArg List.length h),hlen⟩
      · cases hp
    · rw [recursiveSplit_nil_of_lt (by omega)] at hp
      exact mem_slices hmax hp
  | cons sep rest ih =>
    by_cases hlen : text.length ≤ maxChars
    · rw [recursiveSplit_of_le hlen,← recursiveSplit_of_le hlen rest] at hp
      exact ih hp
    · by_cases hsep : sep = []
      · subst hsep
        rw [recursiveSplit_blank_of_lt (by omega)] at hp
        exact mem_slices hmax hp
      · rw [recursiveSplit_cons_of_lt (by omega) hsep,List.mem_flatMap] at hp
        obtain ⟨part,-,hp⟩ := hp
        split at hp
        · exact ih hp
        · rw [List.mem_singleton] at hp
          subst hp
          exact ⟨List.append_ne_nil_of_right_ne_nil _ hsep,by omega⟩

/-! ## Packing -/

/-- At no flush is the carried text with the next piece longer than a chunk may be. -/
def CarriesFit (maxChars overlap : ℕ) : Units → List Units → Prop
  | _,[] => True
  | cur,piece::pieces =>
    if Flushes maxChars cur piece then
      (trim (carry overlap cur ++ piece)).length ≤ maxChars ∧
        CarriesFit maxChars overlap (carry overlap cur ++ piece) pieces
    else CarriesFit maxChars overlap (cur ++ piece) pieces

theorem length_trim_le (s : Units) : (trim s).length ≤ s.length := (trim_isInfix s).length_le

/-- What the loop packs next goes out trimmed, alone if it is too long already. -/
theorem pack_le_iff {cur : Units} {pieces : List Units}
    (hpieces : ∀ p ∈ pieces, Fits maxChars p) :
    (∀ c ∈ pack maxChars overlap cur pieces, c.length ≤ maxChars) ↔
      (trim cur).length ≤ maxChars ∧ CarriesFit maxChars overlap cur pieces := by
  induction pieces generalizing cur with
  | nil =>
    rw [pack,CarriesFit,and_true]
    split
    · exact List.forall_mem_singleton
    · refine ⟨fun _ => by omega,fun _ c hc => by cases hc⟩
  | cons piece pieces ih =>
    have hfit := hpieces piece List.mem_cons_self
    have hrest : ∀ p ∈ pieces, Fits maxChars p :=
      fun p hp => hpieces p (List.mem_cons_of_mem _ hp)
    by_cases hf : Flushes maxChars cur piece
    · rw [pack,if_pos hf,CarriesFit,if_pos hf,List.forall_mem_cons,ih hrest]
    · rw [pack,if_neg hf,CarriesFit,if_neg hf,ih hrest]
      -- What is added to without a flush is empty or leaves room for the piece.
      have hroom : (cur ++ piece).length ≤ maxChars := by
        rw [Flushes,not_and_or] at hf
        have hlen := hfit.2
        rw [List.length_append]
        omega
      have hcur : cur.length ≤ (cur ++ piece).length := by
        rw [List.length_append]
        exact Nat.le_add_right _ _
      have h1 := length_trim_le cur
      have h2 := length_trim_le (cur ++ piece)
      constructor
      · rintro ⟨-,h⟩
        exact ⟨by omega,h⟩
      · rintro ⟨-,h⟩
        exact ⟨by omega,h⟩

theorem mergeWithOverlap_le_iff {pieces : List Units} (hpieces : ∀ p ∈ pieces, Fits maxChars p) :
    (∀ c ∈ mergeWithOverlap pieces maxChars overlap, Fits maxChars c) ↔
      CarriesFit maxChars overlap [] pieces := by
  have htrim : (trim ([] : Units)).length ≤ maxChars := Nat.zero_le _
  have hpack : (∀ c ∈ pack maxChars overlap [] pieces, c.length ≤ maxChars) ↔
      (trim ([] : Units)).length ≤ maxChars ∧ CarriesFit maxChars overlap [] pieces :=
    pack_le_iff hpieces
  rw [← and_iff_right (b := CarriesFit maxChars overlap [] pieces) htrim,← hpack]
  simp only [mergeWithOverlap,List.mem_filter,Fits,decide_eq_true_eq]
  constructor
  · intro h c hc
    rcases Nat.eq_zero_or_pos c.length with h0 | h0
    · omega
    · exact (h c ⟨hc,h0⟩).2
  · rintro h c ⟨hc,h0⟩
    exact ⟨List.length_pos_iff.mp h0,h c hc⟩

/-- Where nothing is carried, the next piece always fits. -/
theorem carriesFit_zero {cur : Units} {pieces : List Units}
    (hpieces : ∀ p ∈ pieces, Fits maxChars p) : CarriesFit maxChars 0 cur pieces := by
  induction pieces generalizing cur with
  | nil => trivial
  | cons piece pieces ih =>
    have hrest : ∀ p ∈ pieces, Fits maxChars p :=
      fun p hp => hpieces p (List.mem_cons_of_mem _ hp)
    rw [CarriesFit]
    split
    · refine ⟨?_,ih hrest⟩
      have hcarry : carry 0 cur = [] := rfl
      rw [hcarry,List.nil_append]
      exact (length_trim_le piece).trans (hpieces piece List.mem_cons_self).2
    · exact ih hrest

/-! ## The size of chunks -/

/-- Greedily packed chunks have at most `chunkChars` units, and none is empty. -/
def Bounded (opts : SplitOptions) (chunks : List Chunk) : Prop :=
  ∀ c ∈ chunks, c.text ≠ [] ∧ c.text.length ≤ opts.chars

/-- No flush of the loop over the pieces of the text carries too much. -/
def NoOverflow (text : Units) (opts : SplitOptions) : Prop :=
  CarriesFit opts.chars opts.overlap [] (recursiveSplit opts.chars separators (trim text))

theorem noOverflow_of_no_overlap (text : Units) {opts : SplitOptions} (h : 1 ≤ opts.chars)
    (hzero : opts.overlap = 0) : NoOverflow text opts := by
  rw [NoOverflow,hzero]
  exact carriesFit_zero (fun p hp => fits_of_mem_recursiveSplit h hp)

/-- Pages are chunked one by one. -/
theorem splitPages_bounded_iff (pages : List (Units × ℕ)) (opts : SplitOptions)
    (h : 1 ≤ opts.chars) :
    Bounded opts (splitPages pages opts) ↔ ∀ p ∈ pages, NoOverflow p.1 opts := by
  rw [Bounded,splitPages,List.forall_mem_flatMap]
  refine forall₂_congr (fun p _ => ?_)
  have hpieces : ∀ q ∈ recursiveSplit opts.chars separators (trim p.1), Fits opts.chars q :=
    fun q hq => fits_of_mem_recursiveSplit h hq
  rw [NoOverflow,← mergeWithOverlap_le_iff hpieces,List.forall_mem_map,splitText,
    List.forall_mem_map]
  rfl

/-- Two words of six letters, with an overlap of three. -/
def twoWords : Units := units "aaaaaa bbbbbb"

def smallChunks : SplitOptions := ⟨some 7,some 3⟩

end Rullama.Rag
