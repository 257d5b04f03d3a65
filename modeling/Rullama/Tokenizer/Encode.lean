import Mathlib.Data.List.Forall2
import Mathlib.Order.OrderDual
import Rullama.Sorting.Stable
import Rullama.Tokenizer.ByteLevel

/-! # Encoding a text

Special tokens are split out first, and what is between them goes through byte-level pair
encoding. The loop over the special tokens goes on after each match, and never ends where the
match may be empty.
-/
namespace Rullama.Tokenizer
open Text Sorting

/-! ## What an encoding is -/

/-- The vocabulary has the byte characters, and what two pieces of these are merged to. -/
structure Covers (json : TokenizerJson) : Prop where
  bytes : ∀ b, (json.vocab [(fromJson json).byteChar b]).isSome
  merged : ∀ m ∈ json.merges, ∀ a b, m.key = pairKey a b → unit ' ' ∉ a → unit ' ' ∉ b →
    (json.vocab (a ++ b)).isSome

/-- The merging loop ends, keeps the token together, and leaves no pair of the merge table. -/
structure Saturates (json : TokenizerJson) (token : Units) : Prop where
  ends : mergeStep (fromJson json).rank ((fromJson json).pieces token) = none
  kept : ∀ n, ((fromJson json).rounds token n).flatten = token
  settled : ((fromJson json).pieces token).IsChain (fun a b =>
    ∀ m ∈ json.merges, m.key ≠ pairKey a b)

/-- The words of the ids are the bytes of the span, and of nothing else. -/
def MapsBack (json : TokenizerJson) (span : Units) (ids : List ℕ) : Prop :=
  ∃ words : List Units, List.Forall₂ (fun w id => json.vocab w = some id) words ids ∧
    ∀ bytes : List UInt8,
      words.flatten = bytes.map (fromJson json).byteChar ↔ bytes = encodeUtf8 span

inductive Segment
  | ordinary (span : Units)
  | special (sp : AddedToken)

/-- The leftmost match of an added token, the longest one that begins there. -/
structure Found (added : List AddedToken) (before : Units) (sp : AddedToken) (after : Units) :
    Prop where
  leftmost : ∀ i < before.length, ∀ s ∈ added,
    ¬ s.content <+: (before ++ (sp.content ++ after)).drop i
  longest : ∀ s ∈ added, s.content <+: sp.content ++ after → s.content.length ≤ sp.content.length
  first : added.find? (fun s => s.content = sp.content) = some sp

inductive Splits (added : List AddedToken) : Units → List Segment → Prop
  | last {text : Units} : (∀ s ∈ added, ¬ s.content <:+: text) → Splits added text [.ordinary text]
  | next {before after : Units} {sp : AddedToken} {segments : List Segment} :
    Found added before sp after → Splits added after segments →
      Splits added (before ++ (sp.content ++ after)) (.ordinary before :: .special sp :: segments)

namespace Qwen2Tokenizer
variable (t : Qwen2Tokenizer)

/-- The ids of ordinary text, with no memory of earlier ones. -/
def spanIds (pretok : Units → List Units) (span : Units) : List ℕ :=
  if span = [] then [] else (pretok span).flatMap (fun tok => t.ids (t.mapped tok))

def segmentIds (pretok : Units → List Units) : Segment → List ℕ
  | .ordinary span => t.spanIds pretok span
  | .special sp => [sp.id]

/-- What is remembered is what would be computed again. -/
def Recalls (cache : Cache) : Prop :=
  ∀ token ids, cache.lookup token = some ids → ids = t.ids token

/-- What earlier encodings have left behind. -/
inductive Reached (pretok : Units → List Units) : Cache → Prop
  | new : Reached pretok []
  | encoded {rounds : ℕ} {cache : Cache} {text : Units} {out : List ℕ × Cache} :
    Reached pretok cache → t.encode pretok rounds cache text = some out → Reached pretok out.2

end Qwen2Tokenizer

open Qwen2Tokenizer

/-- The encoding of a text comes to an end, and is lossless and saturating. -/
def Lossless (json : TokenizerJson) (pretok : Units → List Units) (cache : Cache)
    (text : Units) : Prop :=
  ∃ rounds out segments,
    (fromJson json).encode pretok rounds cache text = some out ∧
    Splits (json.addedTokens.getD []) text segments ∧
    out.1 = segments.flatMap ((fromJson json).segmentIds pretok) ∧
    (∀ span, .ordinary span ∈ segments →
      (∀ tok ∈ pretok span, Saturates json ((fromJson json).mapped tok)) ∧
        MapsBack json span ((fromJson json).spanIds pretok span)) ∧
    (fromJson json).Recalls out.2

/-! ## Ordinary text -/

section Ordinary

variable {json : TokenizerJson} {pretok : Units → List Units}

theorem saturates (json : TokenizerJson) (token : Units) : Saturates json token where
  ends := mergeStep_mergeAll (Nat.le_refl _)
  kept n := (flatten_mergeAll n _).trans (flatten_chars token)
  settled := by
    have hends : mergeStep (fromJson json).rank ((fromJson json).pieces token) = none :=
      mergeStep_mergeAll (Nat.le_refl _)
    have hchain := mergeStep_eq_none_iff.mp hends
    exact hchain.imp (fun a b hab => (mergeRanks_eq_none_iff _ _).mp hab)

/-- A piece without a space, that is in the vocabulary. -/
def Known (json : TokenizerJson) (p : Units) : Prop := unit ' ' ∉ p ∧ (json.vocab p).isSome

theorem known_of_mem_pieces (hvocab : Covers json) {tok p : Units}
    (hp : p ∈ (fromJson json).pieces ((fromJson json).mapped tok)) : Known json p := by
  rw [pieces,rounds] at hp
  refine forall_mem_mergeAll ?_ ?_ _ p hp
  · intro c hc
    rw [chars_mapped,List.mem_map] at hc
    obtain ⟨b,-,rfl⟩ := hc
    refine ⟨fun h => ?_,hvocab.bytes b⟩
    exact byteChar_ne_space json b (List.mem_singleton.mp h).symm
  · intro a b r ha hb hr
    have hrank : mergeRanks json.merges (pairKey a b) = some r := hr
    have hne : mergeRanks json.merges (pairKey a b) ≠ none := by
      rw [hrank]
      exact Option.some_ne_none r
    rw [Ne,mergeRanks_eq_none_iff] at hne
    push Not at hne
    obtain ⟨m,hm,hkey⟩ := hne
    refine ⟨?_,hvocab.merged m hm a b hkey ha.1 hb.1⟩
    rw [List.mem_append,not_or]
    exact ⟨ha.1,hb.1⟩

theorem forall₂_filterMap {f : Units → Option ℕ} {words : List Units}
    (h : ∀ w ∈ words, (f w).isSome) :
    List.Forall₂ (fun w id => f w = some id) words (words.filterMap f) := by
  induction words with
  | nil => exact .nil
  | cons w words ih =>
    obtain ⟨id,hid⟩ := Option.isSome_iff_exists.mp (h w List.mem_cons_self)
    rw [List.filterMap_cons_some hid]
    exact .cons hid (ih (fun v hv => h v (List.mem_cons_of_mem w hv)))

/-- No piece is skipped. -/
theorem forall₂_ids (hvocab : Covers json) (tok : Units) :
    List.Forall₂ (fun w id => json.vocab w = some id)
      ((fromJson json).pieces ((fromJson json).mapped tok))
      ((fromJson json).ids ((fromJson json).mapped tok)) :=
  forall₂_filterMap (fun _ hw => (known_of_mem_pieces hvocab hw).2)

theorem mapsBack_spanIds (hvocab : Covers json)
    (hpretok : ∀ text, (pretok text).flatMap chars = chars text) (span : Units) :
    MapsBack json span ((fromJson json).spanIds pretok span) := by
  have hwords (toks : List Units) : ∃ words : List Units,
      List.Forall₂ (fun w id => json.vocab w = some id) words
        (toks.flatMap (fun tok => (fromJson json).ids ((fromJson json).mapped tok))) ∧
      words.flatten = (toks.flatMap encodeUtf8).map (fromJson json).byteChar := by
    induction toks with
    | nil => exact ⟨[],.nil,rfl⟩
    | cons tok toks ih =>
      obtain ⟨words,hids,hflat⟩ := ih
      refine ⟨(fromJson json).pieces ((fromJson json).mapped tok) ++ words,?_,?_⟩
      · rw [List.flatMap_cons]
        exact List.rel_append (forall₂_ids hvocab tok) hids
      · have hkept := (saturates json ((fromJson json).mapped tok)).kept
          (chars ((fromJson json).mapped tok)).length
        rw [List.flatten_append,hflat,List.flatMap_cons,List.map_append]
        exact congrArg (· ++ _) hkept
  have hback {words : List Units} (hflat : words.flatten =
      (encodeUtf8 span).map (fromJson json).byteChar) (bytes : List UInt8) :
      words.flatten = bytes.map (fromJson json).byteChar ↔ bytes = encodeUtf8 span := by
    rw [hflat]
    constructor
    · intro h
      exact List.map_injective_iff.mpr (byteChar_injective json) h.symm
    · rintro rfl
      rfl
  rw [Qwen2Tokenizer.spanIds]
  split
  · rename_i hspan
    subst hspan
    exact ⟨[],.nil,hback rfl⟩
  · obtain ⟨words,hids,hflat⟩ := hwords (pretok span)
    rw [← encodeUtf8_of_flatMap (hpretok span)] at hflat
    exact ⟨words,hids,hback hflat⟩

end Ordinary

/-! ## The memory of earlier tokens -/

section Cache

variable {t : Qwen2Tokenizer}

theorem recalls_nil : t.Recalls [] := fun _ _ h => by cases h

theorem bpe_spec {cache : Cache} (h : t.Recalls cache) (token : Units) :
    (t.bpe cache token).1 = t.ids token ∧ t.Recalls (t.bpe cache token).2 := by
  rw [bpe]
  cases hlookup : cache.lookup token with
  | some cached => exact ⟨h token cached hlookup,h⟩
  | none =>
    dsimp only
    split
    · rename_i hchars
      refine ⟨?_,h⟩
      rw [ids,pieces,rounds,hchars]
      rfl
    · refine ⟨rfl,fun token' ids' h' => ?_⟩
      rw [List.lookup_cons] at h'
      split at h'
      · rename_i heq
        cases h'
        rw [eq_of_beq heq]
      · exact h token' ids' h'

theorem encodeOrdinary_spec (pretok : Units → List Units) (out : List ℕ × Cache)
    (h : t.Recalls out.2) (text : Units) :
    (t.encodeOrdinary pretok text out).1 = out.1 ++ t.spanIds pretok text ∧
      t.Recalls (t.encodeOrdinary pretok text out).2 := by
  have hfold (toks : List Units) : ∀ out : List ℕ × Cache, t.Recalls out.2 →
      (toks.foldl (fun out tok => (out.1 ++ (t.bpe out.2 (t.mapped tok)).1,
        (t.bpe out.2 (t.mapped tok)).2)) out).1 =
          out.1 ++ toks.flatMap (fun tok => t.ids (t.mapped tok)) ∧
      t.Recalls (toks.foldl (fun out tok => (out.1 ++ (t.bpe out.2 (t.mapped tok)).1,
        (t.bpe out.2 (t.mapped tok)).2)) out).2 := by
    induction toks with
    | nil => exact fun out h => ⟨(List.append_nil _).symm,h⟩
    | cons tok toks ih =>
      intro out h
      obtain ⟨hids,hrecalls⟩ := bpe_spec h (t.mapped tok)
      rw [List.foldl_cons,List.flatMap_cons,← List.append_assoc,← hids]
      exact ih _ hrecalls
  rw [encodeOrdinary,spanIds]
  split
  · exact ⟨(List.append_nil _).symm,h⟩
  · exact hfold (pretok text) out h

end Cache

/-! ## Special tokens -/

section Specials

variable {added : List AddedToken}

theorem mergeSort_longestFirst (added : List AddedToken) : added.mergeSort longestFirst =
    byKey (fun s => OrderDual.toDual s.content.length) added := rfl

/-- Tokens of one content stay in order. -/
theorem filter_mergeSort (added : List AddedToken) (content : Units) :
    (added.mergeSort longestFirst).filter (fun s => s.content = content) =
      added.filter (fun s => s.content = content) := by
  rw [mergeSort_longestFirst,filter_byKey,byKey_of_sorted]
  refine List.pairwise_of_forall_mem_list (fun a ha b hb => ?_)
  have hac := of_decide_eq_true (List.mem_filter.mp ha).2
  have hbc := of_decide_eq_true (List.mem_filter.mp hb).2
  rw [hac,hbc]

theorem find?_mergeSort (added : List AddedToken) (content : Units) :
    (added.mergeSort longestFirst).find? (fun s => s.content = content) =
      added.find? (fun s => s.content = content) := by
  rw [← List.head?_filter,filter_mergeSort,List.head?_filter]

theorem mem_contents {content : Units} :
    content ∈ (added.mergeSort longestFirst).map AddedToken.content ↔
      ∃ s ∈ added, s.content = content := by
  simp only [List.mem_map,List.mem_mergeSort]

/-- The first of the sorted contents that the text begins with is a longest one. -/
theorem front_longest {text content : Units}
    (h : front ((added.mergeSort longestFirst).map AddedToken.content) text = some content)
    {s : AddedToken} (hs : s ∈ added) (hpre : s.content <+: text) :
    s.content.length ≤ content.length := by
  have hsorted : ((added.mergeSort longestFirst).map AddedToken.content).Pairwise
      (fun a b => b.length ≤ a.length) := by
    have hbyKey : (added.mergeSort longestFirst).Pairwise (fun a b =>
        OrderDual.toDual a.content.length ≤ OrderDual.toDual b.content.length) :=
      byKey_sorted added
    exact List.pairwise_map.mpr hbyKey
  obtain ⟨-,before,after,hlist,hbefore⟩ := List.find?_eq_some_iff_append.mp h
  have hmem : s.content ∈ (added.mergeSort longestFirst).map AddedToken.content :=
    mem_contents.mpr ⟨s,hs,rfl⟩
  rw [hlist,List.mem_append] at hmem
  rcases hmem with hmem | hmem
  · have := hbefore s.content hmem
    simp [hpre] at this
  · rw [hlist,List.pairwise_append] at hsorted
    rcases List.mem_cons.mp hmem with heq | hmem
    · rw [heq]
    · exact List.rel_of_pairwise_cons hsorted.2.1 hmem

/-- What the search finds is the leftmost match and the longest there. -/
theorem exists_found {text before content after : Units}
    (h : leftmost ((added.mergeSort longestFirst).map AddedToken.content) text =
      some (before,content,after)) :
    ∃ sp, sp.content = content ∧ text = before ++ (sp.content ++ after) ∧
      (added.mergeSort longestFirst).find? (fun s => s.content = content) = some sp ∧
      Found added before sp after := by
  obtain ⟨htext,hfront,hleft⟩ := leftmost_spec h
  obtain ⟨s,hs,hcontent⟩ := mem_contents.mp (mem_of_front hfront)
  have hsome : (added.find? (fun s => s.content = content)).isSome := by
    rw [List.find?_isSome]
    exact ⟨s,hs,decide_eq_true hcontent⟩
  obtain ⟨sp,hsp⟩ := Option.isSome_iff_exists.mp hsome
  have hspc : sp.content = content := by simpa using List.find?_some hsp
  subst hspc
  refine ⟨sp,rfl,htext,by rw [find?_mergeSort,hsp],?_,fun s hs => front_longest hfront hs,hsp⟩
  intro i hi s hs
  rw [← htext]
  exact front_eq_none_iff.mp (hleft i hi) s.content (mem_contents.mpr ⟨s,hs,rfl⟩)

end Specials

/-! ## The loop -/

section Loop

variable {json : TokenizerJson} {pretok : Units → List Units} {n : ℕ} {text : Units}
  {out res : List ℕ × Cache}

/-- The contents that the loop looks for. -/
def contents (json : TokenizerJson) : List Units :=
  (fromJson json).specials.map AddedToken.content

/-- One round of the loop: the ordinary text before a special token, and its id. -/
theorem encodeLoop_succ (pretok : Units → List Units) (out : List ℕ × Cache) (n : ℕ)
    {before content after : Units}
    (h : leftmost (contents json) text = some (before,content,after)) :
    ∃ sp, sp.content = content ∧ text = before ++ (sp.content ++ after) ∧
      Found (json.addedTokens.getD []) before sp after ∧
      (fromJson json).encodeLoop pretok (n + 1) text out =
        (fromJson json).encodeLoop pretok n after
          (((fromJson json).encodeOrdinary pretok before out).1 ++ [sp.id],
            ((fromJson json).encodeOrdinary pretok before out).2) := by
  obtain ⟨sp,hcontent,htext,hfind,hfound⟩ := exists_found h
  refine ⟨sp,hcontent,htext,hfound,?_⟩
  have hfind' : (fromJson json).specials.find? (fun s => s.content = content) = some sp := hfind
  rw [contents] at h
  rw [encodeLoop,h]
  dsimp only
  rw [hfind']

theorem encodeLoop_none (n : ℕ) (h : leftmost (contents json) text = none) :
    (fromJson json).encodeLoop pretok (n + 1) text out =
      some ((fromJson json).encodeOrdinary pretok text out) := by
  rw [contents] at h
  rw [encodeLoop,h]

/-- What the loop returns is the text, split at its special tokens. -/
theorem encodeLoop_spec (h : (fromJson json).encodeLoop pretok n text out = some res)
    (hcache : (fromJson json).Recalls out.2) :
    ∃ segments, Splits (json.addedTokens.getD []) text segments ∧
      res.1 = out.1 ++ segments.flatMap ((fromJson json).segmentIds pretok) ∧
      (fromJson json).Recalls res.2 := by
  induction n generalizing text out with
  | zero => cases h
  | succ n ih =>
    cases hleft : leftmost (contents json) text with
    | none =>
      rw [encodeLoop_none n hleft] at h
      cases h
      obtain ⟨hids,hrecalls⟩ := encodeOrdinary_spec pretok out hcache text
      have hlast : ∀ s ∈ json.addedTokens.getD [], ¬ s.content <:+: text :=
        fun s hs => leftmost_eq_none_iff.mp hleft s.content (mem_contents.mpr ⟨s,hs,rfl⟩)
      refine ⟨[.ordinary text],.last hlast,?_,hrecalls⟩
      rw [hids,List.flatMap_singleton]
      rfl
    | some found =>
      obtain ⟨before,content,after⟩ := found
      obtain ⟨sp,-,htext,hfound,hloop⟩ := encodeLoop_succ pretok out n hleft
      obtain ⟨hids,hrecalls⟩ := encodeOrdinary_spec pretok out hcache before
      rw [hloop] at h
      obtain ⟨segments,hsplits,hout,hres⟩ := ih h hrecalls
      refine ⟨.ordinary before :: .special sp :: segments,htext ▸ .next hfound hsplits,?_,hres⟩
      rw [hout,hids,List.flatMap_cons,List.flatMap_cons,List.append_assoc,List.append_assoc]
      rfl

/-- Every match takes something from the text, so the loop ends with it. -/
theorem encodeLoop_returns (hne : ∀ s ∈ json.addedTokens.getD [], s.content ≠ [])
    (hn : text.length < n) : ∃ res, (fromJson json).encodeLoop pretok n text out = some res := by
  induction n generalizing text out with
  | zero => cases hn
  | succ n ih =>
    cases hleft : leftmost (contents json) text with
    | none => exact ⟨_,encodeLoop_none n hleft⟩
    | some found =>
      obtain ⟨before,content,after⟩ := found
      obtain ⟨sp,-,htext,hfound,hloop⟩ := encodeLoop_succ pretok out n hleft
      rw [hloop]
      apply ih
      have hpos := List.length_pos_iff.mpr (hne sp (List.mem_of_find?_eq_some hfound.first))
      rw [htext] at hn
      simp only [List.length_append] at hn
      omega

/-- An empty match is found again and again. -/
theorem encodeLoop_of_empty {s : AddedToken} (hs : s ∈ json.addedTokens.getD [])
    (hempty : s.content = []) (n : ℕ) :
    (fromJson json).encodeLoop pretok n text out = none := by
  induction n generalizing text out with
  | zero => rfl
  | succ n ih =>
    cases hleft : leftmost (contents json) text with
    | none =>
      have hnot := leftmost_eq_none_iff.mp hleft s.content (mem_contents.mpr ⟨s,hs,rfl⟩)
      rw [hempty] at hnot
      exact absurd List.nil_infix hnot
    | some found =>
      obtain ⟨before,content,after⟩ := found
      obtain ⟨sp,-,-,-,hloop⟩ := encodeLoop_succ pretok out n hleft
      rw [hloop]
      exact ih

end Loop

/-! ## Encodings -/

section Encode

variable {json : TokenizerJson} {pretok : Units → List Units} {rounds : ℕ} {text : Units}
  {cache : Cache} {res : List ℕ × Cache}

theorem specials_eq_nil_iff : (fromJson json).specials = [] ↔ json.addedTokens.getD [] = [] := by
  have hlen := (List.mergeSort_perm (json.addedTokens.getD []) longestFirst).length_eq
  have hspecials : (fromJson json).specials.length = (json.addedTokens.getD []).length := hlen
  rw [← List.length_eq_zero_iff,hspecials,List.length_eq_zero_iff]

theorem encode_spec (h : (fromJson json).encode pretok rounds cache text = some res)
    (hcache : (fromJson json).Recalls cache) :
    ∃ segments, Splits (json.addedTokens.getD []) text segments ∧
      res.1 = segments.flatMap ((fromJson json).segmentIds pretok) ∧
      (fromJson json).Recalls res.2 := by
  rw [encode] at h
  split at h
  · rename_i hnil
    cases h
    obtain ⟨hids,hrecalls⟩ := encodeOrdinary_spec pretok ([],cache) hcache text
    rw [specials_eq_nil_iff] at hnil
    refine ⟨[.ordinary text],.last ?_,?_,hrecalls⟩
    · rw [hnil]
      exact List.forall_mem_nil _
    · rw [hids,List.nil_append,List.flatMap_singleton]
      rfl
  · exact encodeLoop_spec h hcache

theorem Reached.recalls (h : (fromJson json).Reached pretok cache) :
    (fromJson json).Recalls cache := by
  induction h with
  | new => exact recalls_nil
  | encoded _ hencode ih =>
    obtain ⟨segments,-,-,hrecalls⟩ := encode_spec hencode ih
    exact hrecalls

theorem not_lossless_of_empty {s : AddedToken} (hs : s ∈ json.addedTokens.getD [])
    (hempty : s.content = []) : ¬ Lossless json pretok cache text := by
  rintro ⟨rounds,out,segments,hencode,-⟩
  rw [encode] at hencode
  split at hencode
  · rename_i hnil
    rw [specials_eq_nil_iff.mp hnil] at hs
    cases hs
  · rw [encodeLoop_of_empty hs hempty] at hencode
    cases hencode

/-- Encoding ends and is lossless and saturating, whatever was encoded before, exactly if no
added token is empty. -/
theorem encode_lossless_iff (json : TokenizerJson) (hvocab : Covers json)
    (pretok : Units → List Units) (hpretok : ∀ text, (pretok text).flatMap chars = chars text)
    (cache : Cache) (hcache : (fromJson json).Reached pretok cache) (text : Units) :
    Lossless json pretok cache text ↔ ∀ s ∈ json.addedTokens.getD [], s.content ≠ [] := by
  constructor
  · intro h s hs hempty
    exact not_lossless_of_empty hs hempty h
  · intro hne
    have hreturns : ∃ res,
        (fromJson json).encode pretok (text.length + 1) cache text = some res := by
      rw [encode]
      split
      · exact ⟨_,rfl⟩
      · exact encodeLoop_returns hne (Nat.lt_succ_self _)
    obtain ⟨res,hres⟩ := hreturns
    obtain ⟨segments,hsplits,hids,hrecalls⟩ := encode_spec hres (Reached.recalls hcache)
    refine ⟨text.length + 1,res,segments,hres,hsplits,hids,fun span _ => ⟨?_,?_⟩,hrecalls⟩
    · exact fun tok _ => saturates json _
    · exact mapsBack_spanIds hvocab hpretok span

/-! A vocabulary of the byte characters and one merge. -/

def smallVocab : Units → Option ℕ
  | [c] => some c.toNat
  | w => if w = units "us" then some 355 else none

/-- Ordinary text of one word, with the added tokens of a model. -/
def smallJson (added : List AddedToken) : TokenizerJson where
  vocab := smallVocab
  merges := [.pair (units "u") (units "s")]
  addedTokens := some added

theorem smallJson_covers (added : List AddedToken) : Covers (smallJson added) where
  bytes _ := rfl
  merged m hm a b hkey _ _ := by
    rw [List.mem_singleton.mp hm] at hkey
    have hsplit := (List.append_cons_inj_of_notMem (by decide) (by decide)).mp hkey
    rw [← hsplit.1,← hsplit.2.2]
    rfl

/-- A text of one word is matched as a whole. -/
def oneWord (text : Units) : List Units := if text = [] then [] else [text]

theorem flatMap_oneWord (text : Units) : (oneWord text).flatMap chars = chars text := by
  rw [oneWord]
  split
  · rename_i h
    rw [h]
    rfl
  · exact List.flatMap_singleton ..

theorem imStart_lossless_iff :
    Lossless (smallJson [⟨151644,units "<|im_start|>"⟩]) oneWord [] (units "<|im_start|>us") ↔
      ∀ s ∈ [(⟨151644,units "<|im_start|>"⟩ : AddedToken)], s.content ≠ [] :=
  encode_lossless_iff _ (smallJson_covers _) oneWord flatMap_oneWord [] .new _

theorem emptyToken_not_lossless : Covers (smallJson [⟨0,[]⟩]) ∧
    ¬ Lossless (smallJson [⟨0,[]⟩]) oneWord [] (units "us") :=
  ⟨smallJson_covers _,not_lossless_of_empty (List.mem_singleton.mpr rfl) rfl⟩

end Encode

end Rullama.Tokenizer
