import Rullama.CoreWorker.Ownership

/-! # The model through training and back

Loading, freeing and training move the model between the worker and a session. The one RPC
that loses it is a `trainingSaveAdapterAndFinish` whose adapter file cannot be written: it has
dropped the session and not yet taken the model back.
-/
namespace Rullama.CoreWorker
open Rullama.Transition

namespace State
variable {s t : State}

/-- Nothing is loaded and the tabs know it. -/
theorem owned_of_freed (hm : s.model = none) (hl : s.loadedInfo = none)
    (hn : told s.notices = none) : s.Owned :=
  ⟨fun h => absurd h (by simp [hm]),fun h => absurd h (by simp [hl]),hn.trans hl.symm⟩

theorem Owned.handOver (h : s.Owned) (hm : t.model.isSome) (ht : t.trainingSession = none)
    (hl : t.loadedInfo = s.loadedInfo) (hn : told t.notices = told s.notices) : t.Owned :=
  ⟨fun _ => by simp [ht],fun _ => .inl ⟨hm,by simp [ht]⟩,by rw [hn,hl,h.agrees]⟩

theorem Owned.freeModel (h : s.Owned) : s.freeModel.Owned ∧ s.freeModel.model = none := by
  simp only [State.freeModel]
  split
  · exact ⟨owned_of_freed rfl rfl (told_append _ _),rfl⟩
  · rename_i hm
    exact ⟨h,Option.not_isSome_iff_eq_none.mp hm⟩

theorem Owned.loadFresh (h : s.Owned) (ht : s.trainingSession = none) (args : LoadArgs)
    (calls : LoadCalls) : (s.loadFresh args calls).1.Owned := by
  have hf : (s.freeModel.notify (.modelLoading args.modelKey args.filename)).Owned :=
    Idle.owned (.of_notify (fun _ => rfl)) h.freeModel.1
  have ht : s.freeModel.trainingSession = none := by
    simp only [State.freeModel]
    split <;> exact ht
  refine orThrow_of hf (fun _ _ => orThrow_of hf (fun loaded _ => ?_))
  refine ⟨fun _ => ?_,fun _ => .inl ⟨rfl,?_⟩,told_append _ _⟩ <;>
    simp [kvCleared,setModel,notify,ht]

theorem Owned.load (h : s.Owned) (args : LoadArgs) (calls : LoadCalls) :
    (s.load args calls).1.Owned := by
  apply orThrow_of h
  intro _ _
  split
  · exact h
  rename_i ht
  split
  · exact h
  · exact h.loadFresh (Option.not_isSome_iff_eq_none.mp ht) args calls

theorem Owned.free (h : s.Owned) : s.free.1.Owned := by
  simp only [State.free]
  split
  · exact owned_of_freed rfl rfl (told_append _ _)
  · rename_i hl
    have hl : s.loadedInfo = none := Option.not_isSome_iff_eq_none.mp hl
    exact owned_of_freed rfl hl (h.agrees.trans hl)

/-- The model moves into the session, or is consumed by a constructor that throws. -/
theorem Owned.startSession (h : s.Owned) (hm : s.model.isSome) (session : Except String SessionFacts) :
    (s.startSession session).1.Owned := by
  cases session with
  | error e => exact owned_of_freed rfl rfl (told_append _ _)
  | ok facts =>
    have hn : (s.startSession (.ok facts)).1.OneOwner := by
      refine .inr ⟨rfl,?_⟩
      simpa [State.startSession] using hm
    exact ⟨fun ho => (by cases ho),fun _ => hn,h.agrees⟩

theorem Owned.trainingStart (h : s.Owned) (args : StartArgs) (calls : StartCalls) :
    (s.trainingStart args calls).1.Owned := by
  simp only [State.trainingStart]
  split
  · exact h
  rename_i hm
  split
  · exact h
  apply orThrow_of h
  intro probe _
  split
  · exact h
  split
  · exact h
  have hi : Idle s ((s.dropActive calls.clears).shrinkForTraining args.targetKv calls.shrinks) :=
    (Idle.dropActive _).trans (.shrinkForTraining _ _)
  have hm : s.model.isSome := Option.isSome_iff_ne_none.mpr (by simpa using hm)
  have hs := (hi.owned h).startSession (hi.model.trans hm) calls.session
  refine orThrow_of hs (fun _ _ => orThrow_of hs (fun _ _ => ?_))
  exact Idle.owned (.of_notify (fun _ => rfl)) hs

theorem Owned.trainingFinish (h : s.Owned) (finished : Except String Trained)
    (shrinks : Except String Unit) : (s.trainingFinish finished shrinks).1.Owned := by
  simp only [State.trainingFinish]
  split
  · exact h
  · rename_i session _
    apply orThrow_of h
    intro trained _
    refine Idle.owned ((Idle.restoreKvContext shrinks).trans (.of_notify (fun _ => rfl))) ?_
    exact h.handOver (by rfl) (by rfl) (by rfl) (by rfl)

/-- The adapter of a session that could be saved and finished cannot be written to its file. -/
def WriteFails (s : State) : Rpc → Prop
  | .trainingSaveAdapterAndFinish name calls =>
    s.trainingSession.isSome ∧ (adapterFileName name).isOk ∧ calls.saved.isOk ∧ ¬ calls.written.isOk
  | _ => False

instance (s : State) : (r : Rpc) → Decidable (s.WriteFails r)
  | .trainingSaveAdapterAndFinish name calls =>
    inferInstanceAs (Decidable (s.trainingSession.isSome ∧ (adapterFileName name).isOk ∧
      calls.saved.isOk ∧ ¬ calls.written.isOk))
  | .load _ _ | .free | .step _ _ | .stepWithEmb _ _ | .stepAndDecode _ _ _ _ | .kvReusePlan _
  | .warmSystem _ _ | .transcribeAudio _ _ _ _ | .reset | .saveKvState _ | .restoreKvState _ _
  | .saveConvKv _ | .restoreConvKv _ _ | .trainingStart _ _ | .trainingFinish _ _
  | .trainingApplyAdapter _ _ _ | .trainingClearAdapter _ | .trainingDeleteAdapter _ _ | .respawn =>
    inferInstanceAs (Decidable False)

theorem Owned.trainingSaveAdapterAndFinish (h : s.Owned) {name : Option String} {calls : SaveCalls}
    (hw : ¬ s.WriteFails (.trainingSaveAdapterAndFinish name calls)) :
    (s.trainingSaveAdapterAndFinish name calls).1.Owned := by
  refine orThrow_of h (fun session hs => orThrow_of h (fun file hf => orThrow_of h (fun trained ht => ?_)))
  have hs := requireTraining_ok hs
  cases hc : calls.written with
  | error e => exact absurd (by simp [WriteFails,hs,hf,ht,hc,Except.isOk,Except.toBool]) hw
  | ok size =>
    refine Idle.owned (.of_notify (fun _ => rfl)) ?_
    apply Idle.owned (.restoreKvContext _)
    exact Idle.owned (.of_notify (fun _ => rfl)) (h.handOver (by rfl) (by rfl) (by rfl) (by rfl))

/-- Every step but a failing write keeps the model owned. -/
theorem Owned.handle (h : s.Owned) {r : Rpc} (hw : ¬ s.WriteFails r) : (s.handle r).1.Owned := by
  cases r with
  | load args calls => exact h.load args calls
  | free => exact h.free
  | step tokenId next => exact (Quiet.step tokenId next).idle.owned h
  | stepWithEmb embedding next => exact (Quiet.stepWithEmb embedding next).idle.owned h
  | stepAndDecode tokenId next isEos str => exact (Quiet.stepAndDecode tokenId next isEos str).idle.owned h
  | kvReusePlan ids => exact (Quiet.kvReusePlan ids).idle.owned h
  | warmSystem ids thrown => exact (Quiet.warmSystem ids thrown).idle.owned h
  | transcribeAudio maxTokens prepared generated thrown =>
    exact (Quiet.transcribeAudio maxTokens prepared generated thrown).idle.owned h
  | reset => exact Quiet.reset.idle.owned h
  | saveKvState saves => exact (Quiet.saveKvState saves).idle.owned h
  | restoreKvState bytes restores => exact (Quiet.restoreKvState bytes restores).idle.owned h
  | saveConvKv saves => exact (Quiet.saveConvKv saves).idle.owned h
  | restoreConvKv decoded restores => exact (Quiet.restoreConvKv decoded restores).idle.owned h
  | trainingStart args calls => exact h.trainingStart args calls
  | trainingSaveAdapterAndFinish name calls => exact h.trainingSaveAdapterAndFinish hw
  | trainingFinish finished shrinks => exact h.trainingFinish finished shrinks
  | trainingApplyAdapter name bytes slots => exact (Idle.trainingApplyAdapter name bytes slots).owned h
  | trainingClearAdapter clears => exact (Idle.trainingClearAdapter clears).owned h
  | trainingDeleteAdapter name clears => exact (Idle.trainingDeleteAdapter name clears).owned h
  | respawn => exact ⟨fun h => (by cases h),fun h => (by cases h),rfl⟩

/-- The session is gone and the model has not come back. -/
theorem Owned.lost (h : s.Owned) {r : Rpc} (hw : s.WriteFails r) : ¬ (s.handle r).1.OneOwner := by
  cases r with
  | trainingSaveAdapterAndFinish name calls =>
    obtain ⟨hs,hf,ht,hc⟩ := hw
    obtain ⟨session,hs⟩ := Option.isSome_iff_exists.mp hs
    have hm : s.model = none := by
      cases hm : s.model with
      | none => rfl
      | some m => exact absurd (h.exclusive (by simp [hm])) (by simp [hs])
    cases hn : adapterFileName name with
    | error e => simp [hn,Except.isOk,Except.toBool] at hf
    | ok file =>
      cases hd : calls.saved with
      | error e => simp [hd,Except.isOk,Except.toBool] at ht
      | ok trained =>
        cases hr : calls.written with
        | ok size => simp [hr,Except.isOk,Except.toBool] at hc
        | error e =>
          simp [State.handle,State.trainingSaveAdapterAndFinish,orThrow,requireTraining,OneOwner,
            hs,hn,hd,hr,hm]
  | _ => exact hw.elim

/-- What is asked of an RPC, whichever of its calls throw: afterwards a model that `loadedInfo`
speaks of has exactly one owner, the tabs are told of a model only where there is one, and a
failing write of the adapter's file loses nothing. -/
structure Accounted (s : State) (r : Rpc) : Prop where
  loaded : (s.handle r).1.loadedInfo.isSome → (s.handle r).1.OneOwner
  told : (told (s.handle r).1.notices).isSome → (s.handle r).1.OneOwner
  written : s.WriteFails r → (s.handle r).1.OneOwner

theorem Owned.accounted_iff (h : s.Owned) (r : Rpc) : s.Accounted r ↔ ¬ s.WriteFails r := by
  constructor
  · intro ha hw
    exact h.lost hw (ha.written hw)
  · intro hw
    have hn := h.handle hw
    refine ⟨hn.owned,?_,fun hf => absurd hf hw⟩
    intro ht
    rw [hn.agrees] at ht
    exact hn.owned ht

end State

/-- In every sequence of RPCs the model is accounted for after each of them just when no
adapter file of a finished training fails to be written. -/
theorem run_accounted_iff {rpcs : List Rpc} (hr : core.Run .initial rpcs) :
    (∀ p ∈ core.trail .initial rpcs, p.1.Accounted p.2) ↔
      ∀ p ∈ core.trail .initial rpcs, ¬ p.1.WriteFails p.2 := by
  refine hr.forall_iff (G := State.Owned) (P := State.Accounted)
    (C := fun s r => ¬ s.WriteFails r) ?_ ?_ State.owned_initial
  · intro s r h _ hw
    exact h.handle hw
  · intro s r h _
    exact h.accounted_iff r

def chatModel : LoadCalls := ⟨.ok (),.ok (),.ok (⟨262144,false,false,none,none⟩,4096)⟩

def smallTraining : StartCalls :=
  ⟨false,.ok ⟨true,1048576,none⟩,.ok (),.ok (),.ok ⟨1000,true,false⟩,.ok ()⟩

/-- A training whose save is refused by the engine is finished, and the next one is saved. -/
def savedTrainingRun : List Rpc :=
  [.load ⟨"gemma","e2b.gguf",none⟩ chatModel, .trainingStart ⟨none,none,10⟩ smallTraining,
    .trainingSaveAdapterAndFinish (some "poet") ⟨.error "borrowed",.error "locked",.ok ()⟩,
    .trainingFinish (.ok ⟨[],none⟩) (.ok ()), .trainingStart ⟨none,none,10⟩ smallTraining,
    .trainingSaveAdapterAndFinish (some "poet") ⟨.ok ⟨[],none⟩,.ok 64,.ok ()⟩, .step 5 (.ok 7)]

theorem savedTrainingRun_accounted : core.Run .initial savedTrainingRun ∧
    ∀ p ∈ core.trail .initial savedTrainingRun, p.1.Accounted p.2 :=
  ⟨by decide,(run_accounted_iff (by decide)).mpr (by decide)⟩

/-- The file of the adapter is locked. -/
def lockedFileRun : List Rpc :=
  [.load ⟨"gemma","e2b.gguf",none⟩ chatModel, .trainingStart ⟨none,none,10⟩ smallTraining,
    .trainingSaveAdapterAndFinish (some "poet") ⟨.ok ⟨[],none⟩,.error "locked",.ok ()⟩]

/-- Neither the worker nor a session owns the model, and `loadedInfo` is still set. -/
theorem lockedFileRun_lost :
    ¬ ∀ rpcs, core.Run .initial rpcs → ∀ p ∈ core.trail .initial rpcs, p.1.Accounted p.2 := by
  intro h
  have hlast : (core.exec .initial (lockedFileRun.take 2),
      .trainingSaveAdapterAndFinish (some "poet") ⟨.ok ⟨[],none⟩,.error "locked",.ok ()⟩) ∈
      core.trail .initial lockedFileRun := .tail _ (.tail _ (.head _))
  exact absurd ((h lockedFileRun (by decide) _ hlast).loaded (by decide)) (by decide)

end Rullama.CoreWorker
