import Rullama.Bytes.Views

/-! # The envelope of a conversation snapshot

The tokens of a conversation in front of the state of the model. What is encoded is read back, and
what is read is well formed, wherever in a buffer it stands.
-/
namespace Rullama.CoreWorker
open Bytes (Uint8Array DataView toLe ofLe words wordBytes uint32Array)

def RLCV_VERSION : ℕ := 1

def HEADER_BYTES : ℕ := 12

/-- "RLCV" -/
def rlcvMagic : List UInt8 := [0x52,0x4c,0x43,0x56]

/-- The header: magic, version, three reserved bytes and the number of ids. -/
def rlcvHeader (reserved : List UInt8) (idsLen : ℕ) : List UInt8 :=
  rlcvMagic ++ (UInt8.ofNat RLCV_VERSION :: (reserved ++ toLe 4 idsLen))

/-- What is not set in a new buffer is zero. -/
def encodeRlcvEnvelope (ids : List UInt32) (kvBytes : Uint8Array) : Uint8Array :=
  .ofBytes (rlcvHeader [0,0,0] ids.length ++ (ids.flatMap wordBytes ++ kvBytes.bytes))

def decodeRlcvEnvelope (bytes : Uint8Array) : Except String (List UInt32 × Uint8Array) := do
  if bytes.byteLength < HEADER_BYTES ∨ bytes.bytes.take 4 ≠ rlcvMagic then
    throw "RLCV: bad magic"
  let dv ← DataView.new bytes.buffer bytes.byteOffset bytes.byteLength
  let version ← dv.getUint8 4
  if version ≠ RLCV_VERSION then
    throw ("RLCV: unknown version " ++ toString version)
  let idsLen ← dv.getUint32 8
  let idsByteLen := idsLen * 4
  if bytes.byteLength < HEADER_BYTES + idsByteLen then
    throw "RLCV: truncated ids"
  let ids ← uint32Array (bytes.slice HEADER_BYTES (HEADER_BYTES + idsByteLen)).buffer
  return (ids,bytes.subarray (HEADER_BYTES + idsByteLen))

def rlcvTokenCount (bytes : Uint8Array) : Except String ℕ := do
  let dv ← DataView.new bytes.buffer bytes.byteOffset HEADER_BYTES
  dv.getUint32 8

/-! ## Well-formed envelopes -/

/-- The number of ids that a header tells. -/
def idsLen (bytes : List UInt8) : ℕ := ofLe ((bytes.drop 8).take 4)

/-- The magic, the version, and as many bytes as the header tells at least. -/
structure IsEnvelope (bytes : List UInt8) : Prop where
  magic : bytes.take 4 = rlcvMagic
  version : bytes[4]? = some 1
  length : HEADER_BYTES + 4 * idsLen bytes ≤ bytes.length

variable {v kv : Uint8Array} {ids : List UInt32}

/-! ## Reading -/

/-- The fields of a header that is there are read. -/
theorem fields_eq (h : HEADER_BYTES ≤ v.byteLength) :
    DataView.getUint8 ⟨v.buffer,v.byteOffset,v.byteLength⟩ 4 =
        .ok (ofLe ((v.bytes.drop 4).take 1)) ∧
      DataView.getUint32 ⟨v.buffer,v.byteOffset,v.byteLength⟩ 8 = .ok (idsLen v.bytes) := by
  rw [HEADER_BYTES] at h
  have hversion : 4 + 1 ≤ v.byteLength := by omega
  have hids : 8 + 4 ≤ v.byteLength := by omega
  rw [DataView.getUint8,DataView.getUint32,DataView.field_of_le hversion (Nat.le_refl _),
    DataView.field_of_le hids (Nat.le_refl _)]
  exact ⟨rfl,rfl⟩

theorem version_iff {bytes : List UInt8} (h : HEADER_BYTES ≤ bytes.length) :
    ofLe ((bytes.drop 4).take 1) = RLCV_VERSION ↔ bytes[4]? = some 1 := by
  have hlt : 4 < bytes.length := Nat.lt_of_lt_of_le (by decide) h
  have hdrop : bytes.drop 4 = bytes[4] :: bytes.drop 5 := List.drop_eq_getElem_cons hlt
  have hone : ofLe ((bytes.drop 4).take 1) = bytes[4].toNat := by
    rw [hdrop]
    exact Nat.add_zero _
  rw [hone,List.getElem?_eq_getElem hlt,Option.some.injEq,RLCV_VERSION,← UInt8.toNat_inj]
  rfl

/-- The ids stand behind the header, and are as many words. -/
theorem ids_eq {n : ℕ} (h : HEADER_BYTES + n * 4 ≤ v.byteLength) :
    uint32Array (v.slice HEADER_BYTES (HEADER_BYTES + n * 4)).buffer =
      .ok (words ((v.bytes.drop HEADER_BYTES).take (4 * n))) := by
  have hbytes : (v.slice HEADER_BYTES (HEADER_BYTES + n * 4)).buffer =
      (v.bytes.drop HEADER_BYTES).take (4 * n) := by
    change (v.bytes.take (HEADER_BYTES + n * 4)).drop HEADER_BYTES = _
    rw [List.drop_take,Nat.add_sub_cancel_left,Nat.mul_comm]
  have hlen : ((v.bytes.drop HEADER_BYTES).take (4 * n)).length = 4 * n := by
    rw [List.length_take,List.length_drop,Uint8Array.length_bytes]
    omega
  rw [hbytes,uint32Array,if_pos (by omega)]

/-- The checks in their order, with what they read. -/
theorem decode_eq (hheader : HEADER_BYTES ≤ v.byteLength) : decodeRlcvEnvelope v =
    if v.bytes.take 4 ≠ rlcvMagic then .error "RLCV: bad magic"
    else if ofLe ((v.bytes.drop 4).take 1) ≠ RLCV_VERSION then
      .error ("RLCV: unknown version " ++ toString (ofLe ((v.bytes.drop 4).take 1)))
    else if v.byteLength < HEADER_BYTES + idsLen v.bytes * 4 then .error "RLCV: truncated ids"
    else .ok (words ((v.bytes.drop HEADER_BYTES).take (4 * idsLen v.bytes)),
      v.subarray (HEADER_BYTES + idsLen v.bytes * 4)) := by
  obtain ⟨hversion,hids⟩ := fields_eq hheader
  have hnot : ¬ v.byteLength < HEADER_BYTES := Nat.not_lt.mpr hheader
  simp only [decodeRlcvEnvelope,hnot,false_or,DataView.new_of_le v.within,bind,Except.bind,hversion,
    hids,pure,Except.pure,throw,throwThe,MonadExceptOf.throw]
  by_cases hmagic : v.bytes.take 4 ≠ rlcvMagic
  · rw [if_pos hmagic,if_pos hmagic]
  · rw [if_neg hmagic,if_neg hmagic]
    by_cases hv : ofLe ((v.bytes.drop 4).take 1) ≠ RLCV_VERSION
    · rw [if_pos hv,if_pos hv]
    · rw [if_neg hv,if_neg hv]
      by_cases hlen : v.byteLength < HEADER_BYTES + idsLen v.bytes * 4
      · rw [if_pos hlen,if_pos hlen]
      · rw [if_neg hlen,if_neg hlen,ids_eq (Nat.le_of_not_lt hlen)]

theorem decode_of_isEnvelope (h : IsEnvelope v.bytes) : decodeRlcvEnvelope v =
    .ok (words ((v.bytes.drop HEADER_BYTES).take (4 * idsLen v.bytes)),
      v.subarray (HEADER_BYTES + idsLen v.bytes * 4)) := by
  have hlen := h.length
  rw [Uint8Array.length_bytes,Nat.mul_comm] at hlen
  have hheader : HEADER_BYTES ≤ v.byteLength := by omega
  have hversion := (version_iff (by rwa [Uint8Array.length_bytes])).mpr h.version
  rw [decode_eq hheader,if_neg (not_not.mpr h.magic),if_neg (not_not.mpr hversion),
    if_neg (Nat.not_lt.mpr hlen)]

/-- What is accepted is an envelope, and every envelope is accepted. -/
theorem decode_isOk_iff (v : Uint8Array) :
    (∃ r, decodeRlcvEnvelope v = .ok r) ↔ IsEnvelope v.bytes := by
  refine ⟨?_,fun h => ⟨_,decode_of_isEnvelope h⟩⟩
  rintro ⟨r,hr⟩
  by_cases hheader : HEADER_BYTES ≤ v.byteLength
  · rw [decode_eq hheader] at hr
    split at hr
    · cases hr
    · rename_i hmagic
      split at hr
      · cases hr
      · rename_i hversion
        split at hr
        · cases hr
        · rename_i hlen
          have hlong : HEADER_BYTES ≤ v.bytes.length := by rwa [Uint8Array.length_bytes]
          refine ⟨not_not.mp hmagic,(version_iff hlong).mp (not_not.mp hversion),?_⟩
          rw [Uint8Array.length_bytes,Nat.mul_comm]
          exact Nat.le_of_not_lt hlen
  · have hshort : v.byteLength < HEADER_BYTES ∨ v.bytes.take 4 ≠ rlcvMagic :=
      .inl (Nat.lt_of_not_le hheader)
    rw [decodeRlcvEnvelope,if_pos hshort] at hr
    cases hr

theorem tokenCount_eq (h : HEADER_BYTES ≤ v.byteLength) :
    rlcvTokenCount v = .ok (idsLen v.bytes) := by
  have hwithin := v.within
  have hids : 8 + 4 ≤ HEADER_BYTES := by decide
  rw [rlcvTokenCount,DataView.new_of_le (by omega)]
  simp only [bind,Except.bind]
  rw [DataView.getUint32,DataView.field_of_le hids h]
  rfl

/-! ## Round trips -/

theorem bytes_encode (ids : List UInt32) (kv : Uint8Array) : (encodeRlcvEnvelope ids kv).bytes =
    rlcvHeader [0,0,0] ids.length ++ (ids.flatMap wordBytes ++ kv.bytes) :=
  Uint8Array.bytes_ofBytes _

theorem length_rlcvHeader {reserved : List UInt8} (h : reserved.length = 3) (n : ℕ) :
    (rlcvHeader reserved n).length = HEADER_BYTES := by
  simp [rlcvHeader,rlcvMagic,h,HEADER_BYTES]

theorem idsLen_encode (hids : ids.length < 2 ^ 32) :
    idsLen (encodeRlcvEnvelope ids kv).bytes = ids.length := by
  have hfield : ((encodeRlcvEnvelope ids kv).bytes.drop 8).take 4 = toLe 4 ids.length := by
    rw [bytes_encode]
    rfl
  rw [idsLen,hfield,Bytes.ofLe_toLe hids]

theorem isEnvelope_encode (hids : ids.length < 2 ^ 32) :
    IsEnvelope (encodeRlcvEnvelope ids kv).bytes := by
  refine ⟨by rw [bytes_encode]; rfl,by rw [bytes_encode]; rfl,?_⟩
  rw [idsLen_encode hids,bytes_encode,List.length_append,List.length_append,
    length_rlcvHeader rfl,Bytes.length_flatMap_wordBytes]
  omega

theorem decode_encode_eq (hids : ids.length < 2 ^ 32) :
    ∃ kv', decodeRlcvEnvelope (encodeRlcvEnvelope ids kv) = .ok (ids,kv') ∧
      kv'.bytes = kv.bytes := by
  have hdrop : (encodeRlcvEnvelope ids kv).bytes.drop HEADER_BYTES =
      ids.flatMap wordBytes ++ kv.bytes := by
    have hheader : (rlcvHeader [0,0,0] ids.length).length = HEADER_BYTES :=
      length_rlcvHeader rfl ids.length
    rw [bytes_encode,← hheader,List.drop_left]
  have hwords := Bytes.length_flatMap_wordBytes ids
  refine ⟨(encodeRlcvEnvelope ids kv).subarray (HEADER_BYTES + ids.length * 4),?_,?_⟩
  · rw [decode_of_isEnvelope (isEnvelope_encode hids),idsLen_encode hids,hdrop,← hwords,
      List.take_left,Bytes.words_flatMap]
  · rw [Uint8Array.bytes_subarray,← List.drop_drop,hdrop,Nat.mul_comm,← hwords,List.drop_left]

/-- An envelope by its parts. -/
theorem IsEnvelope.bytes_eq {bytes : List UInt8} (h : IsEnvelope bytes) :
    bytes.take 5 = rlcvMagic ++ [1] ∧
      bytes.drop 8 = toLe 4 (idsLen bytes) ++ bytes.drop HEADER_BYTES := by
  have hlen := h.length
  rw [HEADER_BYTES] at hlen
  constructor
  · rw [List.take_add_one,h.magic,h.version]
    rfl
  · have hfield : ((bytes.drop 8).take 4).length = 4 := by
      rw [List.length_take,List.length_drop]
      omega
    have hle := Bytes.toLe_ofLe ((bytes.drop 8).take 4)
    rw [hfield] at hle
    rw [idsLen,hle,HEADER_BYTES,← List.drop_drop (i := 4) (j := 8),List.take_append_drop]

theorem encode_decode_eq (h : decodeRlcvEnvelope v = .ok (ids,kv)) :
    (encodeRlcvEnvelope ids kv).bytes = v.bytes.take 5 ++ ([0,0,0] ++ v.bytes.drop 8) := by
  have henv := (decode_isOk_iff v).mp ⟨_,h⟩
  rw [decode_of_isEnvelope henv] at h
  obtain ⟨rfl,rfl⟩ := Prod.mk.inj (Except.ok.inj h)
  obtain ⟨htake,hdrop⟩ := henv.bytes_eq
  have hlen : ((v.bytes.drop HEADER_BYTES).take (4 * idsLen v.bytes)).length =
      4 * idsLen v.bytes := by
    have hle := henv.length
    rw [List.length_take,List.length_drop]
    omega
  obtain ⟨hbytes,hcount⟩ := Bytes.flatMap_words hlen
  rw [bytes_encode,hbytes,hcount,Uint8Array.bytes_subarray,← List.drop_drop,Nat.mul_comm,
    List.take_append_drop,htake,hdrop,rlcvHeader]
  simp [RLCV_VERSION]

/-- Envelopes are read as they were written, exactly the well-formed ones are read, and what is read
is written as it was but for the reserved bytes. -/
theorem rlcv_codec (ids : List UInt32) (kv : Uint8Array) (hids : ids.length < 2 ^ 32) :
    (∃ kv', decodeRlcvEnvelope (encodeRlcvEnvelope ids kv) = .ok (ids,kv') ∧
      kv'.bytes = kv.bytes) ∧
    rlcvTokenCount (encodeRlcvEnvelope ids kv) = .ok ids.length ∧
    ∀ v : Uint8Array, ((∃ r, decodeRlcvEnvelope v = .ok r) ↔ IsEnvelope v.bytes) ∧
      ∀ ids' kv', decodeRlcvEnvelope v = .ok (ids',kv') →
        (encodeRlcvEnvelope ids' kv').bytes = v.bytes.take 5 ++ ([0,0,0] ++ v.bytes.drop 8) := by
  have henv : IsEnvelope (encodeRlcvEnvelope ids kv).bytes := isEnvelope_encode hids
  have hheader : HEADER_BYTES ≤ (encodeRlcvEnvelope ids kv).byteLength := by
    have hlen := henv.length
    rw [Uint8Array.length_bytes] at hlen
    omega
  refine ⟨decode_encode_eq hids,?_,fun v => ⟨decode_isOk_iff v,fun ids' kv' => encode_decode_eq⟩⟩
  rw [tokenCount_eq hheader,idsLen_encode hids]

/-- A part of a buffer that begins at an odd offset. -/
def oddView : Uint8Array := ⟨[9,9,9,10,20,30],3,2,by decide⟩

theorem oddView_codec : [(1 : UInt32),105,4294967295].length < 2 ^ 32 ∧
    ((∃ kv', decodeRlcvEnvelope (encodeRlcvEnvelope [1,105,4294967295] oddView) =
        .ok ([1,105,4294967295],kv') ∧ kv'.bytes = oddView.bytes) ∧
      rlcvTokenCount (encodeRlcvEnvelope [1,105,4294967295] oddView) = .ok 3 ∧
      ∀ v : Uint8Array, ((∃ r, decodeRlcvEnvelope v = .ok r) ↔ IsEnvelope v.bytes) ∧
        ∀ ids' kv', decodeRlcvEnvelope v = .ok (ids',kv') →
          (encodeRlcvEnvelope ids' kv').bytes =
            v.bytes.take 5 ++ ([0,0,0] ++ v.bytes.drop 8)) :=
  ⟨by decide,rlcv_codec [1,105,4294967295] oddView (by decide)⟩

end Rullama.CoreWorker
