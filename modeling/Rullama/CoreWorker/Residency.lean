import Rullama.CoreWorker.Rpc

/-! # The resident sequence

`residentIds` is a second account of the KV cache: while it is tracked it should name the
very tokens the cache holds, all of them computed under the adapter applied now. Every RPC
keeps that by itself but `restoreConvKv`, which takes the word of an envelope that may have
been saved under another adapter.
-/
namespace Rullama.CoreWorker
open Rullama.Cache Rullama.Transition

def tokens (ids : List ℕ) : List Token := ids.map .id

namespace State

def Tracked (s : State) : Prop :=
  ∀ ids m, s.residentIds = some ids → s.model = some m → m.cache.Holds (tokens ids)

/-- What was saved is a sequence as the adapter of its time computed it. -/
def SavedHeld (s : State) : Prop :=
  ∀ snapshot ∈ s.saved, snapshot.envelope.kvBytes =
    (tokens snapshot.envelope.ids).map (·,snapshot.adapter)

structure Resident (s : State) : Prop where
  tracked : s.Tracked
  saved : s.SavedHeld

theorem resident_initial : State.initial.Resident :=
  ⟨fun _ _ h => (by cases h),fun _ h => (by cases h)⟩

variable {s t : State}

theorem Resident.same (h : s.Resident) (hm : t.model = s.model)
    (hi : t.residentIds = s.residentIds) (hs : t.saved = s.saved) : t.Resident := by
  refine ⟨?_,?_⟩
  · rw [Tracked,hm,hi]
    exact h.tracked
  · rw [SavedHeld,hs]
    exact h.saved

theorem Resident.untracked (h : s.Resident) (hi : t.residentIds = none) (hs : t.saved = s.saved) :
    t.Resident :=
  ⟨fun _ _ he _ => absurd (hi.symm.trans he) (by simp),fun x hx => h.saved x (hs ▸ hx)⟩

theorem Resident.unloaded (h : s.Resident) (hm : t.model = none) (hs : t.saved = s.saved) :
    t.Resident :=
  ⟨fun _ _ _ he => absurd (hm.symm.trans he) (by simp),fun x hx => h.saved x (hs ▸ hx)⟩

/-- The tracker and the cache are changed together. -/
theorem Resident.moved {l : List ℕ} {m : Engine} (h : s.Resident) (hm : t.model = some m)
    (hi : t.residentIds = some l) (hs : t.saved = s.saved) (hh : m.cache.Holds (tokens l)) :
    t.Resident := by
  refine ⟨fun ids' m' hi' hm' => ?_,fun x hx => h.saved x (hs ▸ hx)⟩
  rw [hi] at hi'
  rw [hm] at hm'
  cases hi'
  cases hm'
  exact hh

theorem Resident.notify (h : s.Resident) (n : Notice) : (s.notify n).Resident :=
  h.same rfl rfl rfl

theorem Resident.kvInvalidate (h : s.Resident) : s.kvInvalidate.Resident := h.untracked rfl rfl

theorem Resident.resetKv (h : s.Resident) (m : Engine) : (s.resetKv m).Resident :=
  h.moved (m := m.reset) rfl rfl rfl (PrefixCache.holds_reset m.cache)

/-- A fed token is committed. An untracked sequence stays untracked. -/
theorem Resident.commit {m : Engine} (h : s.Resident) (hm : s.model = some m) (id : ℕ) :
    ((s.setModel (m.step (.id id))).kvCommit id).Resident := by
  cases hi : s.residentIds with
  | none => exact h.untracked (by simp [State.kvCommit,hi]) rfl
  | some ids =>
    refine h.moved (l := ids ++ [id]) rfl (by simp [State.kvCommit,hi]) rfl ?_
    rw [tokens,List.map_append]
    exact (h.tracked ids m hi hm).step (.id id)

theorem Resident.load (h : s.Resident) (args : LoadArgs) (calls : LoadCalls) :
    (s.load args calls).1.Resident := by
  have hf : (s.freeModel.notify (.modelLoading args.modelKey args.filename)).Resident := by
    refine Resident.notify ?_ _
    simp only [freeModel]
    split
    · exact h.unloaded rfl rfl
    · exact h
  apply orThrow_of h
  intro _ _
  split
  · exact h
  split
  · exact h
  refine orThrow_of hf (fun _ _ => orThrow_of hf (fun loaded _ => ?_))
  exact hf.moved (m := .fresh args loaded.1 loaded.2) rfl rfl rfl rfl

theorem Resident.free (h : s.Resident) : s.free.1.Resident := by
  simp only [State.free]
  split <;> exact h.unloaded rfl rfl

theorem Resident.step (h : s.Resident) (tokenId : ℕ) (next : Except String ℕ) :
    (s.step tokenId next).1.Resident :=
  orThrow_of h (fun _ hm => orThrow_of h (fun _ _ => h.commit (requireModel_ok hm).2 tokenId))

theorem Resident.stepAndDecode (h : s.Resident) (tokenId : ℕ) (next : Except String ℕ)
    (isEos : Bool) (str : Option String) : (s.stepAndDecode tokenId next isEos str).1.Resident :=
  orThrow_of h (fun _ hm => orThrow_of h (fun _ _ => h.commit (requireModel_ok hm).2 tokenId))

theorem Resident.stepWithEmb (h : s.Resident) (embedding : ℕ) (next : Except String ℕ) :
    (s.stepWithEmb embedding next).1.Resident :=
  orThrow_of h.kvInvalidate
    (fun _ _ => orThrow_of h.kvInvalidate (fun _ _ => h.untracked rfl rfl))

theorem Resident.kvReusePlan (h : s.Resident) (ids : List ℕ) : (s.kvReusePlan ids).1.Resident := by
  apply orThrow_of h
  intro m hm
  have hm := (requireModel_ok hm).2
  cases hi : s.residentIds with
  | none => exact h.resetKv m
  | some res =>
    simp only
    split
    · split
      · exact h
      split
      · refine h.moved rfl rfl rfl ?_
        rw [tokens,List.map_take]
        exact (h.tracked res m hi hm).truncate _
      · exact h.resetKv m
    · exact h.resetKv m

theorem Resident.warmFeed (h : s.Resident) (total : ℕ) (thrown : Option Throw) (i : ℕ)
    (ids : List ℕ) : (s.warmFeed total thrown i ids).1.Resident := by
  induction ids generalizing s i with
  | nil => exact h
  | cons id ids ih =>
    rw [State.warmFeed]
    split
    · exact h
    · refine ih (Resident.notify ?_ _) (i + 1)
      cases hm : s.model with
      | none => exact h.unloaded (by simp [hm]) rfl
      | some m =>
        have hs : s.mapModel (·.step (.id id)) = s.setModel (m.step (.id id)) := by
          simp [mapModel,setModel,hm]
        rw [hs]
        exact h.commit hm id

theorem Resident.warmSystem (h : s.Resident) (ids : List ℕ) (thrown : Option Throw) :
    (s.warmSystem ids thrown).1.Resident := by
  apply orThrow_of h
  intro m _
  simp only
  split
  · exact h.resetKv m
  · exact (h.resetKv m).warmFeed _ _ _ _

theorem Resident.transcribeAudio (h : s.Resident) (maxTokens : ℕ)
    (prepared : Except String Transcription) (generated : List (ℕ × Option String))
    (thrown : Option Throw) :
    (s.transcribeAudio maxTokens prepared generated thrown).1.Resident := by
  apply orThrow_of h
  intro m _
  split
  · exact h
  · apply orThrow_of h
    intro t _
    simp only
    split <;> exact h.untracked rfl rfl

theorem Resident.reset (h : s.Resident) : s.reset.1.Resident :=
  orThrow_of h (fun m _ => h.resetKv m)

theorem Resident.saveKvState (h : s.Resident) (saves : Except String Unit) :
    (s.saveKvState saves).1.Resident := orThrow_of h (fun _ _ => orThrow_of h (fun _ _ => h))

theorem Resident.restoreKvState (h : s.Resident) (bytes : KvBytes) (restores : Except String Unit) :
    (s.restoreKvState bytes restores).1.Resident :=
  orThrow_of h (fun _ _ => orThrow_of h (fun _ _ => h.untracked rfl rfl))

/-- A snapshot is taken of a tracked cache, so it is held by the adapter of that moment. -/
theorem Resident.saveConvKv (h : s.Resident) (saves : Except String Unit) :
    (s.saveConvKv saves).1.Resident := by
  simp only [State.saveConvKv]
  split
  · exact h
  · rename_i ids hi
    refine orThrow_of h (fun m hm => orThrow_of h (fun _ _ => ⟨h.tracked,?_⟩))
    intro snapshot hx
    rcases List.mem_cons.mp hx with rfl | hx
    · exact h.tracked ids m hi (requireModel_ok hm).2
    · exact h.saved snapshot hx

theorem Resident.trainingStart (h : s.Resident) (args : StartArgs) (calls : StartCalls) :
    (s.trainingStart args calls).1.Resident := by
  simp only [State.trainingStart]
  split
  · exact h
  split
  · exact h
  apply orThrow_of h
  intro probe _
  split
  · exact h
  split
  · exact h
  have hd : (s.dropActive calls.clears).saved = s.saved := by
    simp only [dropActive,tryClearAdapter]
    split
    · split <;> rfl
    · rfl
  have hk (t : State) : (t.shrinkForTraining args.targetKv calls.shrinks).saved = t.saved := by
    simp only [shrinkForTraining]
    split
    · split <;> rfl
    · rfl
  cases calls.session with
  | error e => exact h.unloaded rfl ((hk _).trans hd)
  | ok facts =>
    have hs := h.unloaded (t := ((s.dropActive calls.clears).shrinkForTraining args.targetKv
      calls.shrinks).startSession (.ok facts) |>.1) rfl ((hk _).trans hd)
    exact orThrow_of hs (fun _ _ => orThrow_of hs (fun _ _ => hs.notify _))

theorem restoreKvContext_residentIds (s : State) (shrinks : Except String Unit) :
    (s.restoreKvContext shrinks).residentIds = s.residentIds := by
  simp only [restoreKvContext]
  split <;> rfl

theorem restoreKvContext_saved (s : State) (shrinks : Except String Unit) :
    (s.restoreKvContext shrinks).saved = s.saved := by
  simp only [restoreKvContext]
  split <;> rfl

theorem Resident.trainingSaveAdapterAndFinish (h : s.Resident) (name : Option String)
    (calls : SaveCalls) : (s.trainingSaveAdapterAndFinish name calls).1.Resident := by
  have hs : ({ s with trainingSession := none } : State).Resident := h.same rfl rfl rfl
  refine orThrow_of h (fun session _ => orThrow_of h (fun name _ => orThrow_of h (fun trained _ => ?_)))
  refine orThrow_of hs (fun size _ => Resident.notify ?_ _)
  exact h.untracked (restoreKvContext_residentIds _ _) (restoreKvContext_saved _ _)

theorem Resident.trainingFinish (h : s.Resident) (finished : Except String Trained)
    (shrinks : Except String Unit) : (s.trainingFinish finished shrinks).1.Resident := by
  simp only [State.trainingFinish]
  split
  · exact h
  · refine orThrow_of h (fun trained _ => Resident.notify ?_ _)
    exact h.untracked (restoreKvContext_residentIds _ _) (restoreKvContext_saved _ _)

theorem Resident.trainingApplyAdapter (h : s.Resident) (name : Option String)
    (bytes : Except String Bytes) (slots : Except String ℕ) :
    (s.trainingApplyAdapter name bytes slots).1.Resident := by
  simp only [State.trainingApplyAdapter]
  split
  · exact h
  split
  · exact h
  split
  · exact h
  exact orThrow_of h (fun _ _ => orThrow_of h (fun _ _ => h.untracked rfl rfl))

theorem Resident.trainingClearAdapter (h : s.Resident) (clears : Except String Unit) :
    (s.trainingClearAdapter clears).1.Resident := by
  simp only [State.trainingClearAdapter]
  split
  · exact h
  split
  · exact h
  exact orThrow_of h (fun _ _ => h.untracked rfl rfl)

theorem Resident.trainingDeleteAdapter (h : s.Resident) (name : Option String)
    (clears : Except String Unit) : (s.trainingDeleteAdapter name clears).1.Resident := by
  simp only [State.trainingDeleteAdapter]
  split
  · exact h
  refine Resident.notify ?_ _
  split
  · apply h.untracked rfl
    cases clears <;> rfl
  · exact h

/-- The step of all RPCs but a restored conversation. -/
theorem Resident.handle (h : s.Resident) {r : Rpc} (hr : r.restored = none) :
    (s.handle r).1.Resident := by
  cases r with
  | load args calls => exact h.load args calls
  | free => exact h.free
  | step tokenId next => exact h.step tokenId next
  | stepWithEmb embedding next => exact h.stepWithEmb embedding next
  | stepAndDecode tokenId next isEos str => exact h.stepAndDecode tokenId next isEos str
  | kvReusePlan ids => exact h.kvReusePlan ids
  | warmSystem ids thrown => exact h.warmSystem ids thrown
  | transcribeAudio maxTokens prepared generated thrown =>
    exact h.transcribeAudio maxTokens prepared generated thrown
  | reset => exact h.reset
  | saveKvState saves => exact h.saveKvState saves
  | restoreKvState bytes restores => exact h.restoreKvState bytes restores
  | saveConvKv saves => exact h.saveConvKv saves
  | restoreConvKv decoded restores =>
    cases decoded with
    | error e => exact h
    | ok envelope =>
      cases restores with
      | error e => exact orThrow_of h (fun _ _ => h)
      | ok u => cases hr
  | trainingStart args calls => exact h.trainingStart args calls
  | trainingSaveAdapterAndFinish name calls => exact h.trainingSaveAdapterAndFinish name calls
  | trainingFinish finished shrinks => exact h.trainingFinish finished shrinks
  | trainingApplyAdapter name bytes slots => exact h.trainingApplyAdapter name bytes slots
  | trainingClearAdapter clears => exact h.trainingClearAdapter clears
  | trainingDeleteAdapter name clears => exact h.trainingDeleteAdapter name clears
  | respawn => exact h.unloaded rfl rfl

end State
end Rullama.CoreWorker
