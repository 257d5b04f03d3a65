import Rullama.Opfs.Snapshots
import Mathlib.Tactic.Common

/-! # Crashes of snapshot calls

What is read after a crash has been written by one call, unless a snapshot was there that a
write has begun to replace.
-/
namespace Rullama.Opfs

namespace SnapDir
variable {s : SnapDir} {f g : PairFile} {call : ℕ}

@[simp] theorem setFile_self (x : Option SnapFile) : (s.setFile f x).files f = x :=
  Function.update_self ..

theorem setFile_of_ne (h : g ≠ f) (x : Option SnapFile) : (s.setFile f x).files g = s.files g :=
  Function.update_of_ne h ..

theorem applyAll_append (ops ops' : List FileOp) :
    s.applyAll call (ops ++ ops') = (s.applyAll call ops).applyAll call ops' := List.foldl_append

theorem applyAll_cons (op : FileOp) (ops : List FileOp) :
    s.applyAll call (op :: ops) = (s.apply call op).applyAll call ops := rfl

@[simp] theorem applyAll_nil : s.applyAll call [] = s := rfl

/-- What every operation keeps. -/
theorem applyAll_induction {P : SnapDir → Prop} {ops : List FileOp}
    (h : ∀ op ∈ ops, ∀ s, P s → P (s.apply call op)) (hs : P s) : P (s.applyAll call ops) := by
  induction ops generalizing s with
  | nil => exact hs
  | cons op ops ih =>
    rw [List.forall_mem_cons] at h
    exact ih h.2 (h.1 s hs)

end SnapDir

/-- The operation leaves a file alone that is there. -/
def FileOp.Spares (f : PairFile) : FileOp → Prop
  | .truncate g _ | .write g _ | .close g | .removeEntry g => f ≠ g
  | _ => True

def FileOp.Removes (f : PairFile) : FileOp → Prop
  | .removeEntry g => f = g
  | _ => False

namespace SnapDir
variable {s : SnapDir} {f : PairFile} {call : ℕ} {op : FileOp} {ops : List FileOp}

theorem apply_of_spares (s : SnapDir) (call : ℕ) (h : op.Spares f) :
    (s.apply call op).files f = s.files f ∨
      s.files f = none ∧ (s.apply call op).files f = some ⟨[],call⟩ := by
  cases op with
  | getFileHandle g =>
    by_cases hg : f = g
    · subst hg
      cases hf : s.files f with
      | none => exact .inr ⟨rfl,by simp [apply,hf]⟩
      | some x => exact .inl (by simp [apply,hf])
    · exact .inl (setFile_of_ne hg _)
  | truncate g n => exact .inl (setFile_of_ne h _)
  | write g data => exact .inl (setFile_of_ne h _)
  | close g => exact .inl (setFile_of_ne h _)
  | removeEntry g => exact .inl (setFile_of_ne h _)
  | flush => exact .inl rfl
  | closeHandle => exact .inl rfl
  | createWritable => exact .inl rfl
  | stageTruncate n => exact .inl rfl
  | stageWrite data => exact .inl rfl

/-- A file that operations spare is as it was, or new and empty. -/
theorem applyAll_of_spares (s : SnapDir) (call : ℕ) (h : ∀ op ∈ ops, op.Spares f) :
    (s.applyAll call ops).files f = s.files f ∨
      s.files f = none ∧ (s.applyAll call ops).files f = some ⟨[],call⟩ := by
  refine applyAll_induction (P := fun t => t.files f = s.files f ∨
    s.files f = none ∧ t.files f = some ⟨[],call⟩) (fun op hop t ht => ?_) (.inl rfl)
  rcases apply_of_spares t call (h op hop) with heq | ⟨hnone,hnew⟩
  · rw [heq]
    exact ht
  · rcases ht with ht | ⟨-,ht⟩
    · exact .inr ⟨ht ▸ hnone,hnew⟩
    · rw [ht] at hnone
      cases hnone

/-- A file of a call stays one of that call as long as it is not removed. -/
theorem apply_call (h : ¬ op.Removes f) (hs : (s.files f).map SnapFile.call = some call) :
    ((s.apply call op).files f).map SnapFile.call = some call := by
  have hset : ∀ g x, (f = g → x.map SnapFile.call = some call) →
      ((s.setFile g x).files f).map SnapFile.call = some call := by
    intro g x hx
    by_cases hg : f = g
    · subst hg
      rw [setFile_self]
      exact hx rfl
    · rw [setFile_of_ne hg]
      exact hs
  obtain ⟨x,hx,hcall⟩ := Option.map_eq_some_iff.mp hs
  cases op with
  | getFileHandle g =>
    refine hset g _ (fun hg => ?_)
    rw [← hg,hx,Option.getD_some,Option.map_some,hcall]
  | truncate g n =>
    refine hset g _ (fun hg => ?_)
    rw [← hg,hx]
    rfl
  | write g data =>
    refine hset g _ (fun hg => ?_)
    rw [← hg,hx]
    rfl
  | close g => exact hset g _ (fun _ => rfl)
  | removeEntry g => exact hset g _ (fun hg => absurd hg h)
  | flush => exact hs
  | closeHandle => exact hs
  | createWritable => exact hs
  | stageTruncate n => exact hs
  | stageWrite data => exact hs

theorem applyAll_call (h : ∀ op ∈ ops, ¬ op.Removes f)
    (hs : (s.files f).map SnapFile.call = some call) :
    ((s.applyAll call ops).files f).map SnapFile.call = some call :=
  applyAll_induction (P := fun t => (t.files f).map SnapFile.call = some call)
    (fun op hop _ ht => apply_call (h op hop) ht) hs

end SnapDir
section calls
variable {M : Type*} (json : JsonCodec M)

/-- What is read comes from one call: it has written both files, and what it was to write. -/
def Consistent (calls : List (SnapCall M)) (s : SnapDir) : Prop :=
  ∀ bytes meta_, readSnapshotPair json s = some (bytes,meta_) → ∃ call sync,
    calls[call]? = some (.writeSnapshotPair sync bytes meta_) ∧
      (s.files .kv).map SnapFile.call = some call ∧ (s.files .json).map SnapFile.call = some call

/-- How many operations of a write leave the payload alone. -/
def untouched (sync : Bool) : ℕ := if sync then 1 else 4

/-- No snapshot is there that the last call begins to replace and does not end to. -/
def SafeCrash (calls : List (SnapCall M)) (last : SnapCall M) (k : ℕ) : Prop :=
  match last with
  | .deleteSnapshotPair => True
  | .writeSnapshotPair sync _ _ => (∀ c ∈ calls.getLast?, c = .deleteSnapshotPair) ∨
      k ≤ untouched sync ∨ (last.ops json).length ≤ k

/-! ## Calls that end -/

theorem applyAll_write (s : SnapDir) (call : ℕ) (sync : Bool) (bytes : Bytes) (meta_ : M) :
    (s.applyAll call ((SnapCall.writeSnapshotPair sync bytes meta_).ops json)).files .kv =
        some ⟨bytes,call⟩ ∧
      (s.applyAll call ((SnapCall.writeSnapshotPair sync bytes meta_).ops json)).files .json =
        some ⟨json.stringify meta_,call⟩ := by
  cases sync <;> simp [SnapCall.ops,payloadOps,sidecarOps,SnapDir.applyAll,SnapDir.apply,
    SnapDir.setFile,Bytes.writeAt_zero]

theorem applyAll_delete (s : SnapDir) (call : ℕ) :
    (s.applyAll call (SnapCall.deleteSnapshotPair.ops json)).files .kv = none ∧
      (s.applyAll call (SnapCall.deleteSnapshotPair.ops json)).files .json = none := by
  simp [SnapCall.ops,SnapDir.applyAll,SnapDir.apply,SnapDir.setFile]

theorem afterCalls_concat (calls : List (SnapCall M)) (call : ℕ) (s : SnapDir) (c : SnapCall M) :
    afterCalls json call s (calls ++ [c]) =
      (afterCalls json call s calls).applyAll (call + calls.length) (c.ops json) := by
  induction calls generalizing call s with
  | nil => rfl
  | cons c' cs ih =>
    rw [List.cons_append,afterCalls,ih,afterCalls,List.length_cons,Nat.add_assoc,Nat.add_comm 1]

/-- The last call alone says what is there: nothing, or the snapshot it has written. -/
theorem afterCalls_cases (calls : List (SnapCall M)) :
    ((∀ c ∈ calls.getLast?, c = .deleteSnapshotPair) ∧
      (afterCalls json 0 {} calls).files .kv = none ∧
      (afterCalls json 0 {} calls).files .json = none) ∨
    ∃ call sync bytes meta_, calls.getLast? = some (.writeSnapshotPair sync bytes meta_) ∧
      calls[call]? = some (.writeSnapshotPair sync bytes meta_) ∧
      (afterCalls json 0 {} calls).files .kv = some ⟨bytes,call⟩ ∧
      (afterCalls json 0 {} calls).files .json = some ⟨json.stringify meta_,call⟩ := by
  rcases List.eq_nil_or_concat calls with rfl | ⟨cs,c,rfl⟩
  · exact .inl ⟨nofun,rfl,rfl⟩
  · rw [List.concat_eq_append,afterCalls_concat,List.getLast?_concat,Nat.zero_add]
    cases c with
    | deleteSnapshotPair => exact .inl ⟨fun c hc => (Option.some.inj hc).symm,applyAll_delete json _ _⟩
    | writeSnapshotPair sync bytes meta_ =>
      exact .inr ⟨cs.length,sync,bytes,meta_,rfl,List.getElem?_concat_length ..,
        applyAll_write json _ _ sync bytes meta_⟩

/-! ## Calls that are cut off -/

theorem sidecar_spared (sync : Bool) (bytes : Bytes) (meta_ : M) {k : ℕ}
    (hk : k < ((SnapCall.writeSnapshotPair sync bytes meta_).ops json).length) :
    ∀ op ∈ ((SnapCall.writeSnapshotPair sync bytes meta_).ops json).take k, op.Spares .json := by
  have hops : ∃ ops : List FileOp, (SnapCall.writeSnapshotPair sync bytes meta_).ops json =
      ops ++ [.close .json] ∧ ∀ op ∈ ops, op.Spares .json := by
    refine ⟨payloadOps sync bytes ++ [.getFileHandle .json,.createWritable,.stageTruncate 0,
      .stageWrite (json.stringify meta_)],?_,?_⟩
    · simp [SnapCall.ops,sidecarOps]
    · cases sync <;> simp [payloadOps,FileOp.Spares]
  obtain ⟨ops,hops,hspares⟩ := hops
  rw [hops,List.length_append,List.length_singleton] at hk
  rw [hops,List.take_append_of_le_length (by omega)]
  exact fun op hop => hspares op (List.mem_of_mem_take hop)

theorem payload_spared (sync : Bool) (bytes : Bytes) (meta_ : M) {k : ℕ} (hk : k ≤ untouched sync) :
    ∀ op ∈ ((SnapCall.writeSnapshotPair sync bytes meta_).ops json).take k, op.Spares .kv := by
  have hspares : ∀ op ∈ ((SnapCall.writeSnapshotPair sync bytes meta_).ops json).take
      (untouched sync), op.Spares .kv := by
    cases sync <;> simp [SnapCall.ops,payloadOps,untouched,FileOp.Spares]
  intro op hop
  refine hspares op (List.mem_of_mem_take (i := k) ?_)
  rwa [List.take_take,Nat.min_eq_left hk]

/-- Past the operations that leave it alone, the payload is the last call's. -/
theorem payload_touched (s : SnapDir) (call : ℕ) (sync : Bool) (bytes : Bytes) (meta_ : M) {k : ℕ}
    (hk : untouched sync < k) :
    ((s.applyAll call (((SnapCall.writeSnapshotPair sync bytes meta_).ops json).take k)).files
      .kv).map SnapFile.call = some call := by
  have hkeep : ∀ op ∈ (SnapCall.writeSnapshotPair sync bytes meta_).ops json,
      ¬ op.Removes .kv := by
    cases sync <;> simp [SnapCall.ops,payloadOps,sidecarOps,FileOp.Removes]
  have htouched : ((s.applyAll call (((SnapCall.writeSnapshotPair sync bytes meta_).ops json).take
      (untouched sync + 1))).files .kv).map SnapFile.call = some call := by
    cases sync <;> simp [SnapCall.ops,payloadOps,untouched,SnapDir.applyAll,SnapDir.apply,
      SnapDir.setFile]
  rw [← List.take_append_drop (untouched sync + 1) (List.take k _),SnapDir.applyAll_append,
    List.take_take,Nat.min_eq_left hk]
  refine SnapDir.applyAll_call (fun op hop => hkeep op ?_) htouched
  exact List.mem_of_mem_take (List.mem_of_mem_drop hop)

variable {json}

/-- Without a sidecar nothing is read. -/
theorem consistent_of_no_sidecar {calls : List (SnapCall M)} {s : SnapDir}
    (h : s.files .json = none ∨ ∃ call, s.files .json = some ⟨[],call⟩) :
    Consistent json calls s := by
  intro bytes meta_ hread
  unfold readSnapshotPair at hread
  rcases h with h | ⟨call,h⟩
  · simp [h] at hread
  · cases hkv : s.files .kv <;> simp [h,hkv,json.parse_nil] at hread

theorem consistent_of_pair {calls : List (SnapCall M)} {s : SnapDir} {call : ℕ} {sync : Bool}
    {bytes : Bytes} {meta_ : M} (hcall : calls[call]? = some (.writeSnapshotPair sync bytes meta_))
    (hkv : s.files .kv = some ⟨bytes,call⟩)
    (hjson : s.files .json = some ⟨json.stringify meta_,call⟩) : Consistent json calls s := by
  intro bytes' meta' hread
  simp only [readSnapshotPair,hkv,hjson,json.parse_stringify,Option.map_some,Option.some.injEq,
    Prod.mk.injEq] at hread
  obtain ⟨rfl,rfl⟩ := hread
  exact ⟨call,sync,hcall,by rw [hkv]; rfl,by rw [hjson]; rfl⟩

theorem consistent_of_no_payload {calls : List (SnapCall M)} {s : SnapDir}
    (h : s.files .kv = none) : Consistent json calls s := by
  intro bytes meta_ hread
  unfold readSnapshotPair at hread
  cases hjson : s.files .json <;> simp [h,hjson] at hread

/-- What calls that end leave is consistent. -/
theorem afterCalls_consistent (calls : List (SnapCall M)) (last : SnapCall M) :
    Consistent json (calls ++ [last]) (afterCalls json 0 {} calls) := by
  rcases afterCalls_cases json calls with
    ⟨-,hkv,-⟩ | ⟨call,sync,bytes,m,-,hcall,hkv,hjson⟩
  · exact consistent_of_no_payload hkv
  · obtain ⟨hlt,-⟩ := List.getElem?_eq_some_iff.mp hcall
    exact consistent_of_pair ((List.getElem?_append_left hlt).trans hcall) hkv hjson

theorem delete_consistent (calls : List (SnapCall M)) (k : ℕ) :
    Consistent json (calls ++ [.deleteSnapshotPair])
      (afterCrash json calls .deleteSnapshotPair k) := by
  cases k with
  | zero => exact afterCalls_consistent calls _
  | succ k =>
    refine consistent_of_no_payload ?_
    cases k <;> simp [afterCrash,SnapCall.ops,SnapDir.applyAll,SnapDir.apply,SnapDir.setFile]

theorem not_consistent_of_stale {calls : List (SnapCall M)} {s : SnapDir} {call call' : ℕ}
    {meta_ : M} (hkv : (s.files .kv).map SnapFile.call = some call')
    (hjson : s.files .json = some ⟨json.stringify meta_,call⟩) (hne : call ≠ call') :
    ¬ Consistent json calls s := by
  obtain ⟨payload,hpayload,hcall⟩ := Option.map_eq_some_iff.mp hkv
  intro hcon
  have hread : readSnapshotPair json s = some (payload.content,meta_) := by
    simp only [readSnapshotPair,hpayload,hjson,json.parse_stringify,Option.map_some]
  obtain ⟨n,-,-,hn,hn'⟩ := hcon _ _ hread
  rw [hkv] at hn
  rw [hjson,Option.map_some] at hn'
  exact hne (Option.some.inj (hn'.trans hn.symm))

/-- After a crash, what is read comes from one call exactly when the crash is safe. -/
theorem afterCrash_consistent_iff (calls : List (SnapCall M)) (last : SnapCall M) (k : ℕ) :
    Consistent json (calls ++ [last]) (afterCrash json calls last k) ↔
      SafeCrash json calls last k := by
  cases last with
  | deleteSnapshotPair => exact iff_of_true (delete_consistent calls k) trivial
  | writeSnapshotPair sync bytes meta_ =>
    by_cases hlen : ((SnapCall.writeSnapshotPair sync bytes meta_).ops json).length ≤ k
    · refine iff_of_true ?_ (.inr (.inr hlen))
      unfold afterCrash
      rw [List.take_of_length_le hlen]
      obtain ⟨hkv,hjson⟩ := applyAll_write json (afterCalls json 0 {} calls)
        calls.length sync bytes meta_
      exact consistent_of_pair (List.getElem?_concat_length ..) hkv hjson
    · have hsidecar := SnapDir.applyAll_of_spares (afterCalls json 0 {} calls) calls.length
        (sidecar_spared json sync bytes meta_ (Nat.lt_of_not_le hlen))
      rcases afterCalls_cases json calls with
        ⟨hlast,-,hnone⟩ | ⟨call,sync',bytes',meta',hlast,hcall,hkv,hjson⟩
      · refine iff_of_true (consistent_of_no_sidecar ?_) (.inl hlast)
        rcases hsidecar with heq | ⟨-,hnew⟩
        · exact .inl (heq.trans hnone)
        · exact .inr ⟨_,hnew⟩
      · have hkept := hsidecar.resolve_right (fun h => by rw [hjson] at h; cases h.1)
        obtain ⟨hlt,-⟩ := List.getElem?_eq_some_iff.mp hcall
        by_cases hk : k ≤ untouched sync
        · refine iff_of_true ?_ (.inr (.inl hk))
          have hpayload := SnapDir.applyAll_of_spares (afterCalls json 0 {} calls) calls.length
            (payload_spared json sync bytes meta_ hk)
          have hpayload' := hpayload.resolve_right (fun h => by rw [hkv] at h; cases h.1)
          exact consistent_of_pair ((List.getElem?_append_left hlt).trans hcall)
            (hpayload'.trans hkv) (hkept.trans hjson)
        · refine iff_of_false ?_ ?_
          · have htouched := payload_touched json (afterCalls json 0 {} calls)
              calls.length sync bytes meta_ (Nat.lt_of_not_le hk)
            exact not_consistent_of_stale htouched (hkept.trans hjson) (Nat.ne_of_lt hlt)
          · rintro (hdel | hle | hle)
            · exact absurd (hdel _ hlast) nofun
            · exact hk hle
            · exact hlen hle

end calls
/-- Sidecars that are one digit. -/
def digitCodec : JsonCodec (Fin 10) where
  stringify m := [0x30 + UInt8.ofNat m]
  parse text := (List.finRange 10).find? (fun m => [0x30 + UInt8.ofNat m] = text)
  parse_stringify := by decide
  parse_nil := by decide

def firstWrite : SnapCall (Fin 10) := .writeSnapshotPair true [7,8] 1

def secondWrite : SnapCall (Fin 10) := .writeSnapshotPair true [9] 2

/-- The worker is killed when a second write has truncated the payload of the first. -/
theorem secondWrite_not_consistent :
    readSnapshotPair digitCodec (afterCrash digitCodec [firstWrite] secondWrite 2) = some ([],1) ∧
      ¬ Consistent digitCodec ([firstWrite] ++ [secondWrite])
        (afterCrash digitCodec [firstWrite] secondWrite 2) := by
  refine ⟨by decide,fun h => ?_⟩
  obtain ⟨call,sync,-,hkv,hjson⟩ := h [] 1 (by decide)
  exact absurd (hkv.trans hjson.symm) (by decide)

end Rullama.Opfs
