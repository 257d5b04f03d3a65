import Rullama.Rag.TextSplit

/-! # Chunks as parts of the text

The chunks of a text should stand in it, one after the other, and together show all of it. The
packing loop keeps to that for the pieces that it is given. The pieces are the text itself
only where no separator was dropped before a part that is split further, and none was put
after the last part.
-/
namespace Rullama.Rag
open Text

/-! ## Chunks at their places -/

/-- Chunks at their places in a text, in order, that together show all but white space. -/
structure Placed (text : Units) (places : List (ℕ × Units)) : Prop where
  within : ∀ p ∈ places, p.2 <+: text.drop p.1
  ordered : (places.map Prod.fst).Pairwise (· ≤ ·)
  covers : ∀ k c, text[k]? = some c → isSpace c = false →
    ∃ p ∈ places, p.1 ≤ k ∧ k < p.1 + p.2.length

def Faithful (text : Units) (chunks : List Units) : Prop :=
  ∃ places, places.map Prod.snd = chunks ∧ Placed text places

theorem Faithful.isInfix {text c : Units} {chunks : List Units} (h : Faithful text chunks)
    (hc : c ∈ chunks) : c <:+: text := by
  obtain ⟨places,rfl,h⟩ := h
  obtain ⟨p,hp,rfl⟩ := List.mem_map.mp hc
  exact (h.within p hp).isInfix.trans (List.drop_suffix _ _).isInfix

/-- Empty chunks show nothing. -/
theorem Placed.filter {text : Units} {places : List (ℕ × Units)} (h : Placed text places) :
    Placed text (places.filter (fun p => 0 < p.2.length)) where
  within p hp := h.within p (List.mem_filter.mp hp).1
  ordered := h.ordered.sublist (List.filter_sublist.map _)
  covers k c hk hc := by
    obtain ⟨p,hp,hle,hlt⟩ := h.covers k c hk hc
    have hpos : 0 < p.2.length := by omega
    exact ⟨p,List.mem_filter.mpr ⟨hp,by simpa using hpos⟩,hle,hlt⟩

/-! ## The packing loop -/

variable {text done cur : Units} {places : List (ℕ × Units)} {maxChars overlap : ℕ}

/-- What is packed of the text that was gone through, and what the next chunk has of it. -/
structure Packed (done : Units) (places : List (ℕ × Units)) (cur : Units) : Prop where
  ends : cur <:+ done
  within : ∀ p ∈ places, p.2 <+: done.drop p.1
  behind : ∀ p ∈ places, p.1 + (trimStart cur).length ≤ done.length
  ordered : (places.map Prod.fst).Pairwise (· ≤ ·)
  covers : ∀ k c, done[k]? = some c → isSpace c = false → k + cur.length < done.length →
    ∃ p ∈ places, p.1 ≤ k ∧ k < p.1 + p.2.length

theorem packed_nil : Packed [] [] [] where
  ends := List.nil_suffix
  within _ hp := by cases hp
  behind _ hp := by cases hp
  ordered := List.Pairwise.nil
  covers k c hk := by cases hk

theorem length_trimStart_append_le (s t : Units) :
    (trimStart (s ++ t)).length ≤ (trimStart s).length + t.length := by
  induction s with
  | nil =>
    rw [List.nil_append]
    exact Nat.le_trans (List.dropWhile_suffix _).length_le (Nat.le_add_left _ _)
  | cons c s ih =>
    cases hc : isSpace c with
    | true =>
      rw [trimStart,trimStart,List.cons_append,List.dropWhile_cons_of_pos hc,
        List.dropWhile_cons_of_pos hc]
      exact ih
    | false =>
      have hneg : ¬ isSpace c = true := by simp [hc]
      rw [trimStart,trimStart,List.cons_append,List.dropWhile_cons_of_neg hneg,
        List.dropWhile_cons_of_neg hneg,← List.cons_append,List.length_append]

theorem length_trimStart_le_append (s t : Units) :
    (trimStart t).length ≤ (trimStart (s ++ t)).length := by
  induction s with
  | nil => exact Nat.le_refl _
  | cons c s ih =>
    rw [trimStart,trimStart,List.cons_append,List.dropWhile_cons]
    split
    · exact ih
    · have hdrop := (List.dropWhile_suffix isSpace (l := t)).length_le
      rw [List.length_cons,List.length_append]
      omega

theorem Packed.append (h : Packed done places cur) (piece : Units) :
    Packed (done ++ piece) places (cur ++ piece) where
  ends := by
    obtain ⟨pre,rfl⟩ := h.ends
    exact ⟨pre,(List.append_assoc ..).symm⟩
  within p hp := by
    have hlen := h.behind p hp
    rw [List.drop_append_of_le_length (by omega)]
    exact (h.within p hp).trans (List.prefix_append _ _)
  behind p hp := by
    have hlen := h.behind p hp
    have happ := length_trimStart_append_le cur piece
    rw [List.length_append]
    omega
  ordered := h.ordered
  covers k c hk hc hlt := by
    simp only [List.length_append] at hlt
    rw [List.getElem?_append_left (by omega)] at hk
    exact h.covers k c hk hc (by omega)

/-- The place of the chunk that is packed. -/
def place (done cur : Units) : ℕ × Units := (done.length - (trimStart cur).length,trim cur)

/-- White space around the chunk is all that it does not show of what was packed. -/
theorem Packed.shows (h : Packed done places cur) {k : ℕ} {c : UInt16} (hk : done[k]? = some c)
    (hc : isSpace c = false) (hle : done.length ≤ k + cur.length) :
    (place done cur).1 ≤ k ∧ k < (place done cur).1 + (place done cur).2.length := by
  obtain ⟨pre,rfl⟩ := h.ends
  obtain ⟨w,hw,hcur⟩ := exists_trimStart cur
  obtain ⟨w',hw',hstart⟩ := exists_trimEnd (trimStart cur)
  rw [← trim] at hstart
  have hlen := congrArg List.length hcur
  have hlen' := congrArg List.length hstart
  rw [List.length_append] at hlen hlen' hle
  rw [List.getElem?_append_right (by omega)] at hk
  have hmem : ∀ d, d ∈ w ∨ d ∈ w' → d ≠ c := by
    rintro d hd rfl
    have : isSpace d = true := hd.elim (hw d) (hw' d)
    rw [hc] at this
    cases this
  have hleft : w.length ≤ k - pre.length := by
    by_contra hlt
    rw [hcur,List.getElem?_append_left (by omega)] at hk
    exact hmem c (.inl (List.mem_of_getElem? hk)) rfl
  have hright : k - pre.length - w.length < (trim cur).length := by
    by_contra hlt
    rw [hcur,List.getElem?_append_right hleft,hstart,
      List.getElem?_append_right (by omega)] at hk
    exact hmem c (.inr (List.mem_of_getElem? hk)) rfl
  simp only [place,List.length_append]
  omega

theorem Packed.within_place (h : Packed done places cur) :
    (place done cur).2 <+: done.drop (place done cur).1 := by
  obtain ⟨pre,rfl⟩ := h.ends
  obtain ⟨w,-,hcur⟩ := exists_trimStart cur
  obtain ⟨w',-,hstart⟩ := exists_trimEnd (trimStart cur)
  have hlen := congrArg List.length hcur
  rw [List.length_append] at hlen
  have hpre : (pre ++ cur).length - (trimStart cur).length = (pre ++ w).length := by
    rw [List.length_append,List.length_append]
    omega
  have hdone : pre ++ cur = (pre ++ w) ++ trimStart cur := by
    rw [List.append_assoc,← hcur]
  rw [place,hpre,hdone,List.drop_left]
  exact ⟨w',hstart.symm⟩

/-- Whatever is carried into the next chunk, all that came before is shown. -/
theorem Packed.flush (h : Packed done places cur) {next : Units} (hnext : next <:+ cur) :
    Packed done (places ++ [place done cur]) next where
  ends := hnext.trans h.ends
  within p hp := by
    rcases List.mem_append.mp hp with hp | hp
    · exact h.within p hp
    · rw [List.mem_singleton.mp hp]
      exact h.within_place
  behind p hp := by
    obtain ⟨t,rfl⟩ := hnext
    have hle := length_trimStart_le_append t next
    rcases List.mem_append.mp hp with hp | hp
    · have hbehind := h.behind p hp
      omega
    · have hdrop := (List.dropWhile_suffix isSpace (l := t ++ next)).length_le
      have hends := h.ends.length_le
      rw [← trimStart] at hdrop
      rw [List.mem_singleton.mp hp,place]
      omega
  ordered := by
    rw [List.map_append,List.pairwise_append]
    refine ⟨h.ordered,List.pairwise_singleton _ _,fun i hi j hj => ?_⟩
    obtain ⟨p,hp,rfl⟩ := List.mem_map.mp hi
    rw [List.map_singleton,List.mem_singleton] at hj
    have hbehind := h.behind p hp
    rw [hj,place]
    omega
  covers k c hk hc _ := by
    rcases Nat.lt_or_ge (k + cur.length) done.length with hlt | hle
    · obtain ⟨p,hp,hcov⟩ := h.covers k c hk hc hlt
      exact ⟨p,List.mem_append_left _ hp,hcov⟩
    · exact ⟨place done cur,by simp,h.shows hk hc hle⟩

theorem Packed.placed (h : Packed done places []) : Placed done places where
  within := h.within
  ordered := h.ordered
  covers k c hk hc := h.covers k c hk hc (by simpa using List.getElem?_eq_some_iff.mp hk |>.1)

theorem carry_suffix (overlap : ℕ) (cur : Units) : carry overlap cur <:+ cur := by
  rw [carry]
  split
  · exact List.drop_suffix _ _
  · exact List.nil_suffix

/-- The loop places a chunk at every flush and one at its end. -/
theorem Packed.exists_placed (h : Packed done places cur) (pieces : List Units) :
    ∃ more, (more.filter (fun p => 0 < p.2.length)).map Prod.snd =
        (pack maxChars overlap cur pieces).filter (fun c => 0 < c.length) ∧
      Placed (done ++ pieces.flatten) (places ++ more) := by
  induction pieces generalizing done places cur with
  | nil =>
    refine ⟨[place done cur],?_,?_⟩
    · rw [pack]
      split
      · rename_i hne
        have hpos : 0 < (trim cur).length := Nat.pos_of_ne_zero hne
        simp [place,hpos]
      · rename_i hzero
        have hlen : (trim cur).length = 0 := by omega
        simp [place,hlen]
    · rw [List.flatten_nil,List.append_nil]
      exact (h.flush List.nil_suffix).placed
  | cons piece pieces ih =>
    rw [List.flatten_cons,← List.append_assoc]
    by_cases hf : Flushes maxChars cur piece
    · obtain ⟨more,hmore,hplaced⟩ := ih ((h.flush (carry_suffix overlap cur)).append piece)
      refine ⟨place done cur :: more,?_,?_⟩
      · rw [pack,if_pos hf,List.filter_cons,List.filter_cons,← hmore,place]
        split <;> rfl
      · have happ : places ++ [place done cur] ++ more = places ++ place done cur :: more := by
          simp
        rwa [happ] at hplaced
    · obtain ⟨more,hmore,hplaced⟩ := ih (h.append piece)
      rw [pack,if_neg hf]
      exact ⟨more,hmore,hplaced⟩

/-- Packing is faithful to the pieces that are packed. -/
theorem faithful_mergeWithOverlap (pieces : List Units) :
    Faithful pieces.flatten (mergeWithOverlap pieces maxChars overlap) := by
  obtain ⟨more,hmore,hplaced⟩ := packed_nil.exists_placed pieces
  exact ⟨more.filter (fun p => 0 < p.2.length),hmore,hplaced.filter⟩

/-! ## Chunks are trimmed -/

theorem trim_of_mem_pack {pieces : List Units} {c : Units}
    (hc : c ∈ pack maxChars overlap cur pieces) : trim c = c := by
  induction pieces generalizing cur with
  | nil =>
    rw [pack] at hc
    split at hc
    · rw [List.mem_singleton.mp hc,trim_trim]
    · cases hc
  | cons piece pieces ih =>
    rw [pack] at hc
    split at hc
    · rcases List.mem_cons.mp hc with rfl | hc
      · exact trim_trim cur
      · exact ih hc
    · exact ih hc

theorem getLast?_of_trim {c : Units} {d : UInt16} (hc : trim c = c) (hd : c.getLast? = some d) :
    isSpace d = false := by
  by_contra hspace
  obtain ⟨t,rfl⟩ := List.getLast?_eq_some_iff.mp hd
  have hblank : Blank [d] := List.forall_mem_singleton.mpr (by simpa using hspace)
  have hlen := length_trim_le t
  rw [trim_append_right hblank] at hc
  rw [hc,List.length_append,List.length_singleton] at hlen
  omega

/-- A chunk that does not end in white space does not stand in the white space at the end. -/
theorem isPrefix_of_append_blank {c s w : Units} (hc : trim c = c) (hw : Blank w)
    (h : c <+: s ++ w) : c <+: s := by
  obtain ⟨t,ht⟩ := h
  rcases List.append_eq_append_iff.mp ht with ⟨e,he,-⟩ | ⟨e,he,hwe⟩
  · exact ⟨e,he.symm⟩
  · cases hlast : e.getLast? with
    | none =>
      rw [List.getLast?_eq_none_iff.mp hlast,List.append_nil] at he
      exact ⟨[],by rw [he,List.append_nil]⟩
    | some d =>
      have hd : c.getLast? = some d := by rw [he,List.getLast?_append,hlast]; rfl
      have hmem : d ∈ w := hwe ▸ List.mem_append_left t (List.mem_of_getLast? hlast)
      have hspace := hw d hmem
      rw [getLast?_of_trim hc hd] at hspace
      cases hspace

theorem Placed.of_append_blank {w : Units} (hw : Blank w) (h : Placed (text ++ w) places)
    (htrim : ∀ p ∈ places, trim p.2 = p.2) : Placed text places where
  within p hp := by
    have hpre := h.within p hp
    rw [List.drop_append] at hpre
    have hdrop : Blank (w.drop (p.1 - text.length)) := fun d hd => hw d (List.mem_of_mem_drop hd)
    exact isPrefix_of_append_blank (htrim p hp) hdrop hpre
  ordered := h.ordered
  covers k c hk hc := by
    have hlt := (List.getElem?_eq_some_iff.mp hk).1
    exact h.covers k c (by rw [List.getElem?_append_left hlt,hk]) hc

/-! ## Pieces that are the text -/

/-- No separator is dropped before a part that is split further, nor put after the last part. -/
def Clean (maxChars : ℕ) : List Units → Units → Prop
  | [],_ => True
  | sep::rest,text =>
    text.length ≤ maxChars ∨ sep = [] ∨
      (∀ part ∈ (split (cut sep) text).1, (part ++ sep).length ≤ maxChars) ∧
        if maxChars < ((split (cut sep) text).2 ++ sep).length then
          Clean maxChars rest (split (cut sep) text).2
        else Blank sep

theorem flatten_of_le (h : text.length ≤ maxChars) (seps : List Units) :
    (recursiveSplit maxChars seps text).flatten = text := by
  rw [recursiveSplit_of_le h]
  split
  · exact List.append_nil text
  · rename_i hzero
    exact (List.length_eq_zero_iff.mp (not_not.mp hzero)).symm

/-- White space after the last part is all that such pieces add to the text. -/
theorem Clean.flatten (hmax : 1 ≤ maxChars) {seps : List Units} (h : Clean maxChars seps text) :
    ∃ w, Blank w ∧ (recursiveSplit maxChars seps text).flatten = text ++ w := by
  have hexact {t : Units} {pieces : List Units} (hp : pieces.flatten = t) :
      ∃ w, Blank w ∧ pieces.flatten = t ++ w :=
    ⟨[],blank_nil,by rw [hp,List.append_nil]⟩
  induction seps generalizing text with
  | nil =>
    by_cases hlen : text.length ≤ maxChars
    · exact hexact (flatten_of_le hlen [])
    · rw [recursiveSplit_nil_of_lt (by omega)]
      exact hexact (flatten_slices hmax text)
  | cons sep rest ih =>
    by_cases hlen : text.length ≤ maxChars
    · exact hexact (flatten_of_le hlen (sep :: rest))
    by_cases hsep : sep = []
    · subst hsep
      rw [recursiveSplit_blank_of_lt (by omega)]
      exact hexact (flatten_slices hmax text)
    obtain ⟨hparts,hlast⟩ := (h.resolve_left hlen).resolve_left hsep
    -- The parts before the last one keep their separators.
    have hkept : (split (cut sep) text).1.flatMap (fun part =>
        if maxChars < (part ++ sep).length then recursiveSplit maxChars rest part
        else [part ++ sep]) = (split (cut sep) text).1.map (· ++ sep) := by
      rw [List.map_eq_flatMap]
      refine List.flatMap_congr (fun part hpart => ?_)
      have hle := hparts part hpart
      rw [if_neg (by omega)]
    have htext := split_cut_append hsep text
    rw [recursiveSplit_cons_of_lt (by omega) hsep,parts,List.flatMap_append,List.flatten_append,
      hkept,List.flatMap_singleton]
    split at hlast
    · rename_i hlong
      obtain ⟨w,hw,hflat⟩ := ih hlast
      rw [if_pos hlong,hflat,← List.append_assoc,htext]
      exact ⟨w,hw,rfl⟩
    · rename_i hshort
      rw [if_neg hshort,List.flatten_singleton,← List.append_assoc,htext]
      exact ⟨sep,hlast,rfl⟩

/-! ## Faithful chunks -/

/-- The text is put together again from its pieces. -/
def KeepsSeparators (text : Units) (opts : SplitOptions) : Prop :=
  Clean opts.chars separators (trim text)

/-- The chunks stand in the trimmed text in order and show all of it but white space, when no
separator is lost or added on the way to its pieces. -/
theorem splitText_faithful (text : Units) (opts : SplitOptions) (h : 1 ≤ opts.chars)
    (hkeeps : KeepsSeparators text opts) :
    Faithful (trim text) ((splitText text opts).map Chunk.text) := by
  obtain ⟨w,hw,hflat⟩ := Clean.flatten h hkeeps
  have hmerge : Faithful (recursiveSplit opts.chars separators (trim text)).flatten
      (mergeWithOverlap (recursiveSplit opts.chars separators (trim text)) opts.chars
        opts.overlap) := faithful_mergeWithOverlap _
  rw [hflat] at hmerge
  obtain ⟨places,hplaces,hplaced⟩ := hmerge
  refine ⟨places,?_,hplaced.of_append_blank hw (fun p hp => ?_)⟩
  · rw [hplaces,splitText,List.map_map]
    exact (List.map_id _).symm
  · have hmem : p.2 ∈ places.map Prod.snd := List.mem_map_of_mem hp
    rw [hplaces] at hmem
    exact trim_of_mem_pack (List.mem_filter.mp hmem).1

/-- Two paragraphs that are short enough. -/
def twoParagraphs : Units := units "aaaa\n\nbbbb"

def sixChars : SplitOptions := ⟨some 6,some 0⟩

theorem twoParagraphs_faithful :
    Faithful (trim twoParagraphs) ((splitText twoParagraphs sixChars).map Chunk.text) := by
  refine splitText_faithful twoParagraphs sixChars (by decide) ?_
  refine .inr (.inr ⟨by decide,?_⟩)
  exact (if_neg (by decide)).mpr (by decide)

/-- Two sentences, the second without its full stop. -/
def twoSentences : Units := units "aaaa. bbbb"

theorem twoSentences_not_faithful :
    ¬ Faithful (trim twoSentences) ((splitText twoSentences sixChars).map Chunk.text) := by
  have hmem : units "bbbb." ∈ (splitText twoSentences sixChars).map Chunk.text := by
    decide +kernel
  intro h
  exact absurd (h.isInfix hmem) (by decide)

end Rullama.Rag
