import Mathlib.Logic.Function.Basic
import Rullama.Text.CodePoints
import Rullama.Text.Markers
import Rullama.Text.PairMerging
import Rullama.Tokenizer.ByteAlphabet

/-! # Byte-level pair encoding

A text is encoded in UTF-8, the bytes are mapped to printable characters, and these are merged
by the ranks of a merge table until no two neighbours are in it.
-/
namespace Rullama.Tokenizer
open Text

/-! ## The tokenizer -/

/-- An entry of `model.merges`: a line, or a pair of pieces. -/
inductive MergeEntry
  | line (m : Units)
  | pair (a b : Units)
deriving DecidableEq

structure AddedToken where
  id : ℕ
  content : Units
deriving DecidableEq

structure TokenizerJson where
  vocab : Units → Option ℕ
  merges : List MergeEntry
  addedTokens : Option (List AddedToken)

def pairKey (a b : Units) : Units := a ++ unit ' ' :: b

def MergeEntry.key : MergeEntry → Units
  | line m => m
  | pair a b => pairKey a b

structure Qwen2Tokenizer where
  vocab : Units → Option ℕ
  /-- From `a b` to its rank. -/
  merges : Units → Option ℕ
  byteEncoder : List (ℕ × ℕ)
  specials : List AddedToken

/-- A key that comes again has its last rank. -/
def mergeRanks (merges : List MergeEntry) : Units → Option ℕ :=
  merges.zipIdx.foldl (fun ranks p key => if key = p.1.key then some p.2 else ranks key)
    (fun _ => none)

def longestFirst (a b : AddedToken) : Bool := b.content.length ≤ a.content.length

/-- Specials are matched longest first. -/
def fromJson (json : TokenizerJson) : Qwen2Tokenizer where
  vocab := json.vocab
  merges := mergeRanks json.merges
  byteEncoder := bytesToUnicode
  specials := (json.addedTokens.getD []).mergeSort longestFirst

theorem mergeRanks_concat (merges : List MergeEntry) (m : MergeEntry) (key : Units) :
    mergeRanks (merges ++ [m]) key =
      if key = m.key then some merges.length else mergeRanks merges key := by
  rw [mergeRanks,List.zipIdx_append,List.foldl_append,Nat.zero_add]
  rfl

theorem mergeRanks_eq_none_iff (merges : List MergeEntry) (key : Units) :
    mergeRanks merges key = none ↔ ∀ m ∈ merges, m.key ≠ key := by
  induction merges using List.reverseRecOn with
  | nil => exact iff_of_true rfl (fun m hm => by cases hm)
  | append_singleton merges m ih =>
    rw [mergeRanks_concat,List.forall_mem_append,← ih]
    simp only [List.forall_mem_singleton]
    split
    · rename_i hkey
      simp [hkey]
    · rename_i hkey
      exact ⟨fun h => ⟨h,fun heq => hkey heq.symm⟩,fun h => h.1⟩

namespace Qwen2Tokenizer
variable (t : Qwen2Tokenizer)

def byteChar (b : UInt8) : UInt16 := ((t.byteEncoder.lookup b.toNat).getD 0).toUInt16

/-- Each byte of the encoded text as a character of the alphabet. -/
def mapped (tok : Units) : Units := (encodeUtf8 tok).map t.byteChar

def rank (a b : Units) : Option ℕ := t.merges (pairKey a b)

/-- The word after a number of rounds of the merging loop. -/
def rounds (token : Units) (n : ℕ) : List Units := mergeAll t.rank n (chars token)

def pieces (token : Units) : List Units := t.rounds token (chars token).length

def ids (token : Units) : List ℕ := (t.pieces token).filterMap t.vocab

abbrev Cache := List (Units × List ℕ)

/-- Merge a single token into ids, unless that was done before. -/
def bpe (cache : Cache) (token : Units) : List ℕ × Cache :=
  match cache.lookup token with
  | some cached => (cached,cache)
  | none => if chars token = [] then ([],cache) else (t.ids token,(token,t.ids token) :: cache)

/-- `pretok` gives what `PRETOK_RE` matches of a text, one after the other. -/
def encodeOrdinary (pretok : Units → List Units) (text : Units) (out : List ℕ × Cache) :
    List ℕ × Cache :=
  if text = [] then out
  else (pretok text).foldl (fun out tok =>
    (out.1 ++ (t.bpe out.2 (t.mapped tok)).1,(t.bpe out.2 (t.mapped tok)).2)) out

/-- The loop over the matches of the specials, which ends when there is none. -/
def encodeLoop (pretok : Units → List Units) : ℕ → Units → List ℕ × Cache →
    Option (List ℕ × Cache)
  | 0,_,_ => none
  | n + 1,text,out =>
    match leftmost (t.specials.map AddedToken.content) text with
    | none => some (t.encodeOrdinary pretok text out)
    | some (before,content,after) =>
      let out := t.encodeOrdinary pretok before out
      let out := match t.specials.find? (fun s => s.content = content) with
        | some sp => (out.1 ++ [sp.id],out.2)
        | none => out
      encodeLoop pretok n after out

/-- Encode a text, within a number of rounds; none if these are not enough. -/
def encode (pretok : Units → List Units) (rounds : ℕ) (cache : Cache) (text : Units) :
    Option (List ℕ × Cache) :=
  if t.specials = [] then some (t.encodeOrdinary pretok text ([],cache))
  else t.encodeLoop pretok rounds text ([],cache)

end Qwen2Tokenizer

/-! ## The byte alphabet -/

variable (json : TokenizerJson)

theorem toNat_byteChar (b : UInt8) : ((fromJson json).byteChar b).toNat = byteCode b.toNat := by
  have hb := b.toNat_lt
  have hcode := byteCode_bounds hb
  rw [Qwen2Tokenizer.byteChar,fromJson,bytesToUnicode_lookup hb,Option.getD_some]
  exact Nat.mod_eq_of_lt (by omega)

/-- The mapping of bytes is reversible. -/
theorem byteChar_injective : Function.Injective (fromJson json).byteChar := by
  intro a b hab
  have hcode := congrArg UInt16.toNat hab
  rw [toNat_byteChar,toNat_byteChar] at hcode
  exact UInt8.toNat_inj.mp (byteCode_injOn a.toNat_lt b.toNat_lt hcode)

theorem byteChar_ne_space (b : UInt8) : (fromJson json).byteChar b ≠ unit ' ' := by
  intro h
  have hcode := congrArg UInt16.toNat h
  rw [toNat_byteChar] at hcode
  exact absurd hcode (Nat.ne_of_gt (byteCode_bounds b.toNat_lt).1)

theorem leads_byteChar (b : UInt8) : leads ((fromJson json).byteChar b) = false := by
  have hlt := (byteCode_bounds b.toNat_lt).2
  rw [leads,Bool.and_eq_false_iff]
  left
  rw [decide_eq_false_iff_not,UInt16.le_iff_toNat_le,toNat_byteChar]
  exact Nat.not_le.mpr hlt

/-- A token begins as its characters, one for each byte. -/
theorem chars_mapped (tok : Units) :
    chars ((fromJson json).mapped tok) =
      (encodeUtf8 tok).map (fun b => [(fromJson json).byteChar b]) := by
  rw [chars_of_not_leads,Qwen2Tokenizer.mapped,List.map_map]
  · rfl
  · intro c hc
    obtain ⟨b,-,rfl⟩ := List.mem_map.mp hc
    exact leads_byteChar json b

end Rullama.Tokenizer
