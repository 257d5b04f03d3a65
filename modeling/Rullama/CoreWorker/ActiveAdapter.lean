import Rullama.CoreWorker.Handover

/-! # The name of the active adapter

`activeAdapterName` tells which adapter the loaded model has. Loading another model and freeing the
model leave it as it is.
-/
namespace Rullama.CoreWorker
open Rullama.Transition

/-- A worker with the adapter that was applied last, under its name. -/
abbrev Adapted := State × Option (String × Bytes)

/-- The adapter that the RPC asks for, under the name it goes by. -/
def Rpc.adapter : Rpc → Option (String × Bytes)
  | .trainingApplyAdapter name bytes _ => bytes.toOption.map (trimmed name,·)
  | _ => none

namespace State

variable (s : State)

/-- The adapter that the RPC applies, where it does not throw. -/
def applied (r : Rpc) : Option (String × Bytes) := if (s.handle r).2.isOk then r.adapter else none

/-- The model that is loaded does not stay. -/
def Displaces : Rpc → Prop
  | .free => True
  | .load args calls =>
    calls.wasm.isOk = true ∧ s.trainingSession = none ∧ s.alreadyLoaded args = none
  | _ => False

instance : (r : Rpc) → Decidable (s.Displaces r)
  | .free => isTrue trivial
  | .load _ _ => inferInstanceAs (Decidable (_ ∧ _ ∧ _))
  | .step _ _ | .stepWithEmb _ _ | .stepAndDecode _ _ _ _ | .kvReusePlan _
  | .warmSystem _ _ | .transcribeAudio _ _ _ _ | .reset | .saveKvState _ | .restoreKvState _ _
  | .saveConvKv _ | .restoreConvKv _ _ | .trainingStart _ _ | .trainingSaveAdapterAndFinish _ _
  | .trainingFinish _ _ | .trainingApplyAdapter _ _ _ | .trainingClearAdapter _
  | .trainingDeleteAdapter _ _ | .respawn => isFalse id

end State

def adapters : Machine Adapted Rpc where
  enabled p r := p.1.Enabled r
  next p r := ((p.1.handle r).1,(p.1.applied r).or p.2)

instance (p : Adapted) (r : Rpc) : Decidable (adapters.enabled p r) :=
  inferInstanceAs (Decidable (p.1.Enabled r))

/-- The model that is loaded has the adapter whose name is kept. -/
def Adapted.Named (p : Adapted) : Prop :=
  ∀ name, p.1.activeAdapterName = some name →
    ∃ m bytes, p.1.model = some m ∧ m.adapter = some bytes ∧ p.2 = some (name,bytes)

/-- The name is dropped before the model goes. -/
def Adapted.DropsFirst (p : Adapted) (r : Rpc) : Prop :=
  p.1.Displaces r → p.1.activeAdapterName = none

instance (p : Adapted) (r : Rpc) : Decidable (p.DropsFirst r) :=
  inferInstanceAs (Decidable (_ → _))

/-- A model that is loaned to a training session has no named adapter. -/
def Adapted.Loaned (p : Adapted) : Prop :=
  p.1.trainingSession.isSome = true → p.1.activeAdapterName = none

variable {s t : State} {a a' : Option (String × Bytes)} {p : Adapted} {r : Rpc} {args : LoadArgs}
  {calls : LoadCalls}

theorem named_of_unnamed (h : s.activeAdapterName = none) : Adapted.Named (s,a) := by
  intro name hname
  cases h.symm.trans hname

theorem Adapted.Named.quiet (h : Adapted.Named (s,a)) (hq : s.Quiet t) : Adapted.Named (t,a) := by
  intro name hname
  obtain ⟨m,bytes,hm,hadapter,ha⟩ := h name (hq.activeAdapterName.symm.trans hname)
  have hmap : t.model.map Engine.adapter = some m.adapter := by
    rw [hq.adapter,hm]
    rfl
  obtain ⟨m',hm',heq⟩ := Option.map_eq_some_iff.mp hmap
  exact ⟨m',bytes,hm',heq.trans hadapter,ha⟩

theorem Adapted.Loaned.quiet (h : Adapted.Loaned (s,a)) (hq : s.Quiet t) :
    Adapted.Loaned (t,a') := by
  intro ht
  rw [hq.activeAdapterName]
  refine h ?_
  rw [← hq.trainingSession]
  exact ht

/-! ## Steps -/

/-- What an RPC that lets the model stay does to the adapter: nothing, or the name is dropped, or
an adapter is applied under its name. -/
inductive State.Adapts (s : State) (r : Rpc) : Prop
  | quiet (hq : s.Quiet (s.handle r).1) (ha : s.applied r = none)
  | dropped (hname : (s.handle r).1.activeAdapterName = none)
  | applied (m : Engine) (name : String) (bytes : Bytes)
      (hsession : (s.handle r).1.trainingSession = none)
      (hm : (s.handle r).1.model = some (m.loadAdapter bytes))
      (hname : (s.handle r).1.activeAdapterName = some name) (ha : s.applied r = some (name,bytes))

theorem applied_of_adapter (h : r.adapter = none) : s.applied r = none := by
  rw [State.applied,h,ite_self]

theorem applied_of_error {e : String} (h : (s.handle r).2 = .error e) : s.applied r = none := by
  rw [State.applied,h]
  rfl

theorem adapts_unchanged (h : (s.handle r).1 = s) (ha : s.applied r = none) : s.Adapts r :=
  .quiet (by rw [h]; exact .refl s) ha

/-- Either the RPC throws and changes nothing, or the adapter is on the model under its name. -/
theorem apply_cases (s : State) (name : Option String) (bytes : Except String Bytes)
    (slots : Except String ℕ) :
    (∃ e, s.trainingApplyAdapter name bytes slots = (s,.error e)) ∨
      ∃ m b n, s.model = some m ∧ s.trainingSession = none ∧ bytes = .ok b ∧
        s.trainingApplyAdapter name bytes slots =
          ({ (s.setModel (m.loadAdapter b)).kvInvalidate with
              activeAdapterName := some (trimmed name) }.notify
            (.adapterChanged (some (trimmed name)) (some n) none),
            .ok (.adapterApplied (trimmed name) n)) := by
  simp only [State.trainingApplyAdapter]
  split
  · exact .inl ⟨_,rfl⟩
  rename_i m hm
  split
  · exact .inl ⟨_,rfl⟩
  rename_i hsession
  split
  · exact .inl ⟨_,rfl⟩
  cases bytes with
  | error e => exact .inl ⟨e,rfl⟩
  | ok b =>
    cases slots with
    | error e => exact .inl ⟨e,rfl⟩
    | ok n =>
      have hnone : s.trainingSession = none := Option.not_isSome_iff_eq_none.mp hsession
      exact .inr ⟨m,b,n,hm,hnone,rfl,rfl⟩

theorem adapts_apply (name : Option String) (bytes : Except String Bytes)
    (slots : Except String ℕ) : s.Adapts (.trainingApplyAdapter name bytes slots) := by
  rcases apply_cases s name bytes slots with ⟨e,h⟩ | ⟨m,b,n,hm,hsession,rfl,h⟩
  · have hs : s.handle (.trainingApplyAdapter name bytes slots) = (s,.error e) := h
    refine .quiet ?_ (applied_of_error (congrArg Prod.snd hs))
    rw [hs]
    exact .refl s
  · have hs := h
    rw [← State.handle] at hs
    refine .applied m (trimmed name) b ?_ ?_ ?_ ?_
    · rw [hs]
      exact hsession
    · rw [hs]
      rfl
    · rw [hs]
      rfl
    · rw [State.applied,hs]
      rfl

theorem dropActive_name (clears : Except String Unit) :
    (s.dropActive clears).activeAdapterName = none := by
  simp only [State.dropActive]
  split
  · rfl
  · rename_i h
    exact Option.not_isSome_iff_eq_none.mp h

theorem shrinkForTraining_name (targetKv : ℕ) (shrinks : Except String Unit) :
    (s.shrinkForTraining targetKv shrinks).activeAdapterName = s.activeAdapterName := by
  simp only [State.shrinkForTraining]
  split
  · split <;> rfl
  · rfl

theorem startSession_name (session : Except String SessionFacts) :
    (s.startSession session).1.activeAdapterName = s.activeAdapterName := by
  cases session <;> rfl

theorem adapts_start (args : StartArgs) (calls : StartCalls) : s.Adapts (.trainingStart args calls) := by
  have hs : (s.trainingStart args calls).1 = s ∨
      (s.trainingStart args calls).1.activeAdapterName = none := by
    simp only [State.trainingStart]
    split
    · exact .inl rfl
    split
    · exact .inl rfl
    refine State.orThrow_of (P := fun t => t = s ∨ t.activeAdapterName = none) (.inl rfl) ?_
    intro probe _
    split
    · exact .inl rfl
    split
    · exact .inl rfl
    have hname := startSession_name (s := (s.dropActive calls.clears).shrinkForTraining args.targetKv
      calls.shrinks) calls.session
    rw [shrinkForTraining_name,dropActive_name] at hname
    refine .inr (State.orThrow_of (P := (·.activeAdapterName = none)) hname (fun _ _ => ?_))
    exact State.orThrow_of (P := (·.activeAdapterName = none)) hname (fun _ _ => hname)
  rcases hs with hs | hs
  · exact adapts_unchanged hs (applied_of_adapter rfl)
  · exact .dropped hs

theorem restoreKvContext_name (shrinks : Except String Unit) :
    (s.restoreKvContext shrinks).activeAdapterName = s.activeAdapterName := by
  simp only [State.restoreKvContext]
  split <;> rfl

theorem adapts_finish (h : s.trainingSession.isSome = true → s.activeAdapterName = none)
    (finished : Except String Trained) (shrinks : Except String Unit) :
    s.Adapts (.trainingFinish finished shrinks) := by
  cases hsession : s.trainingSession with
  | none =>
    refine adapts_unchanged ?_ (applied_of_adapter rfl)
    simp only [State.handle,State.trainingFinish,hsession]
  | some session =>
    cases finished with
    | error e =>
      refine adapts_unchanged ?_ (applied_of_adapter rfl)
      simp only [State.handle,State.trainingFinish,hsession,State.orThrow]
    | ok trained =>
      refine .dropped ?_
      simp only [State.handle,State.trainingFinish,hsession,State.orThrow]
      have hname := h (by rw [hsession]; rfl)
      exact (restoreKvContext_name shrinks).trans hname

theorem adapts_save (h : s.trainingSession.isSome = true → s.activeAdapterName = none)
    (name : Option String) (calls : SaveCalls) :
    s.Adapts (.trainingSaveAdapterAndFinish name calls) := by
  cases hsession : s.requireTraining with
  | error e =>
    refine adapts_unchanged ?_ (applied_of_adapter rfl)
    simp only [State.handle,State.trainingSaveAdapterAndFinish,hsession,State.orThrow]
  | ok session =>
    have hname := h (by rw [State.requireTraining_ok hsession]; rfl)
    refine .dropped ?_
    simp only [State.handle,State.trainingSaveAdapterAndFinish,hsession]
    refine State.orThrow_of (P := (·.activeAdapterName = none)) hname (fun _ _ => ?_)
    refine State.orThrow_of (P := (·.activeAdapterName = none)) hname (fun _ _ => ?_)
    refine State.orThrow_of (P := (·.activeAdapterName = none)) hname (fun _ _ => ?_)
    refine State.orThrow_of (P := (·.activeAdapterName = none)) hname (fun _ _ => ?_)
    exact (restoreKvContext_name calls.shrinks).trans hname

theorem adapts_clear (clears : Except String Unit) : s.Adapts (.trainingClearAdapter clears) := by
  cases hm : s.model with
  | none =>
    refine adapts_unchanged ?_ (applied_of_adapter rfl)
    simp only [State.handle,State.trainingClearAdapter,hm]
  | some m =>
    by_cases hsession : s.trainingSession.isSome = true
    · refine adapts_unchanged ?_ (applied_of_adapter rfl)
      simp only [State.handle,State.trainingClearAdapter,hm,hsession,if_true]
    · cases clears with
      | error e =>
        refine adapts_unchanged ?_ (applied_of_adapter rfl)
        simp only [State.handle,State.trainingClearAdapter,hm,hsession,Bool.false_eq_true,if_false,
          State.orThrow]
      | ok u =>
        refine .dropped ?_
        simp only [State.handle,State.trainingClearAdapter,hm,hsession,Bool.false_eq_true,if_false,
          State.orThrow]
        rfl

theorem adapts_delete (name : Option String) (clears : Except String Unit) :
    s.Adapts (.trainingDeleteAdapter name clears) := by
  by_cases hname : trimmed name = ""
  · refine adapts_unchanged ?_ (applied_of_adapter rfl)
    simp only [State.handle,State.trainingDeleteAdapter,hname,if_true]
  by_cases hactive : s.activeAdapterName = some (trimmed name) ∧ s.model.isSome
  · refine .dropped ?_
    simp only [State.handle,State.trainingDeleteAdapter,hname,if_false,hactive,and_self,if_true]
    rfl
  · refine .quiet ?_ (applied_of_adapter rfl)
    simp only [State.handle,State.trainingDeleteAdapter,hname,if_false,hactive]
    exact .of_notify (fun _ => rfl)

theorem adapts_load (h : ¬ s.Displaces (.load args calls)) : s.Adapts (.load args calls) := by
  cases hwasm : calls.wasm with
  | error e =>
    refine adapts_unchanged ?_ (applied_of_adapter rfl)
    simp only [State.handle,State.load,hwasm,State.orThrow]
  | ok u =>
    by_cases hsession : s.trainingSession.isSome = true
    · refine adapts_unchanged ?_ (applied_of_adapter rfl)
      simp only [State.handle,State.load,hwasm,State.orThrow,hsession,if_true]
    · cases hinfo : s.alreadyLoaded args with
      | some info =>
        refine adapts_unchanged ?_ (applied_of_adapter rfl)
        simp only [State.handle,State.load,hwasm,State.orThrow,hsession,hinfo,Bool.false_eq_true,
          if_false]
      | none =>
        have hnone : s.trainingSession = none := Option.not_isSome_iff_eq_none.mp hsession
        exact absurd ⟨by rw [hwasm]; rfl,hnone,hinfo⟩ h

/-- What the RPCs do to the adapter, as long as the model stays. -/
theorem adapts_handle (hl : s.trainingSession.isSome = true → s.activeAdapterName = none)
    (h : ¬ s.Displaces r) : s.Adapts r := by
  cases r with
  | load args calls => exact adapts_load h
  | free => exact absurd trivial h
  | step tokenId next => exact .quiet (.step tokenId next) (applied_of_adapter rfl)
  | stepWithEmb embedding next => exact .quiet (.stepWithEmb embedding next) (applied_of_adapter rfl)
  | stepAndDecode tokenId next isEos str =>
    exact .quiet (.stepAndDecode tokenId next isEos str) (applied_of_adapter rfl)
  | kvReusePlan ids => exact .quiet (.kvReusePlan ids) (applied_of_adapter rfl)
  | warmSystem ids thrown => exact .quiet (.warmSystem ids thrown) (applied_of_adapter rfl)
  | transcribeAudio maxTokens prepared generated thrown =>
    exact .quiet (.transcribeAudio maxTokens prepared generated thrown) (applied_of_adapter rfl)
  | reset => exact .quiet .reset (applied_of_adapter rfl)
  | saveKvState saves => exact .quiet (.saveKvState saves) (applied_of_adapter rfl)
  | restoreKvState bytes restores =>
    exact .quiet (.restoreKvState bytes restores) (applied_of_adapter rfl)
  | saveConvKv saves => exact .quiet (.saveConvKv saves) (applied_of_adapter rfl)
  | restoreConvKv decoded restores =>
    exact .quiet (.restoreConvKv decoded restores) (applied_of_adapter rfl)
  | trainingStart args calls => exact adapts_start args calls
  | trainingSaveAdapterAndFinish name calls => exact adapts_save hl name calls
  | trainingFinish finished shrinks => exact adapts_finish hl finished shrinks
  | trainingApplyAdapter name bytes slots => exact adapts_apply name bytes slots
  | trainingClearAdapter clears => exact adapts_clear clears
  | trainingDeleteAdapter name clears => exact adapts_delete name clears
  | respawn => exact .dropped rfl

/-- The model goes, and the one that may come for it has no adapter. The name stays. -/
structure State.Displaced (s t : State) : Prop where
  activeAdapterName : t.activeAdapterName = s.activeAdapterName
  trainingSession : t.trainingSession = s.trainingSession
  fresh : ∀ m, t.model = some m → m.adapter = none

theorem displaced_freeModel (s : State) : s.Displaced s.freeModel := by
  rw [State.freeModel]
  split
  · exact ⟨rfl,rfl,fun m hm => by cases hm⟩
  · rename_i h
    refine ⟨rfl,rfl,?_⟩
    intro m hm
    rw [hm] at h
    exact absurd rfl h

theorem displaced_loadFresh (s : State) (args : LoadArgs) (calls : LoadCalls) :
    s.Displaced (s.loadFresh args calls).1 := by
  have hf := displaced_freeModel s
  have hn : s.Displaced (s.freeModel.notify (.modelLoading args.modelKey args.filename)) :=
    ⟨hf.activeAdapterName,hf.trainingSession,hf.fresh⟩
  refine State.orThrow_of hn (fun _ _ => State.orThrow_of hn (fun loaded _ => ?_))
  refine ⟨hf.activeAdapterName,hf.trainingSession,?_⟩
  intro m hm
  obtain rfl := Option.some.inj hm
  rfl

theorem displaced_free (s : State) : s.Displaced s.free.1 := by
  simp only [State.free]
  split <;> exact ⟨rfl,rfl,fun m hm => by cases hm⟩

theorem displaced_handle (h : s.Displaces r) : s.Displaced (s.handle r).1 := by
  cases r with
  | free => exact displaced_free s
  | load args calls =>
    obtain ⟨hwasm,hsession,hinfo⟩ := h
    cases hw : calls.wasm with
    | error e =>
      rw [hw] at hwasm
      cases hwasm
    | ok u =>
      have heq : s.handle (.load args calls) = s.loadFresh args calls := by
        simp only [State.handle,State.load,hw,State.orThrow,hsession,hinfo,Option.isSome_none,
          Bool.false_eq_true,if_false]
      rw [heq]
      exact displaced_loadFresh s args calls
  | _ => exact h.elim

/-! ## Runs -/

theorem Adapted.Loaned.next (h : p.Loaned) (r : Rpc) : (adapters.next p r).Loaned := by
  obtain ⟨s,a⟩ := p
  by_cases hd : s.Displaces r
  · have hs := displaced_handle hd
    intro ht
    have hsession : s.trainingSession.isSome = true := by
      rw [← hs.trainingSession]
      exact ht
    exact hs.activeAdapterName.trans (h hsession)
  · cases adapts_handle h hd with
    | quiet hq ha => exact h.quiet hq
    | dropped hname => exact fun _ => hname
    | applied m name bytes hsession hm hname ha =>
      intro ht
      have hn : ((s.handle r).1.trainingSession).isSome = true := ht
      rw [hsession] at hn
      cases hn

/-- The name stays true exactly when it is dropped before the model goes. -/
theorem Adapted.Named.next_iff (hl : p.Loaned) (h : p.Named) (r : Rpc) :
    (adapters.next p r).Named ↔ p.DropsFirst r := by
  obtain ⟨s,a⟩ := p
  by_cases hd : s.Displaces r
  · have hs := displaced_handle hd
    constructor
    · intro hn _
      cases hname : s.activeAdapterName with
      | none => rfl
      | some name =>
        obtain ⟨m,bytes,hm,hadapter,_⟩ := hn name (hs.activeAdapterName.trans hname)
        have hfresh := hs.fresh m hm
        cases hfresh.symm.trans hadapter
    · intro hc
      exact named_of_unnamed (hs.activeAdapterName.trans (hc hd))
  · refine ⟨fun _ hc => absurd hc hd,fun _ => ?_⟩
    cases adapts_handle hl hd with
    | quiet hq ha =>
      have heq : adapters.next (s,a) r = ((s.handle r).1,a) := by
        simp only [adapters,ha,Option.none_or]
      rw [heq]
      exact h.quiet hq
    | dropped hname => exact named_of_unnamed hname
    | applied m name bytes hsession hm hname ha =>
      intro name' hname'
      obtain rfl := Option.some.inj (hname.symm.trans hname')
      have ha' : (adapters.next (s,a) r).2 = some (name,bytes) := by
        simp only [adapters,ha,Option.some_or]
      exact ⟨m.loadAdapter bytes,bytes,hm,rfl,ha'⟩

def adaptedAtFirst : Adapted := (.initial,none)

/-- In every sequence of RPCs the name stands for the adapter of the loaded model exactly when no
model is freed or replaced while an adapter is active. -/
theorem run_named_iff {rpcs : List Rpc} (hr : adapters.Run adaptedAtFirst rpcs) :
    (∀ p ∈ adapters.trail adaptedAtFirst rpcs, (adapters.next p.1 p.2).Named) ↔
      ∀ p ∈ adapters.trail adaptedAtFirst rpcs, p.1.DropsFirst p.2 := by
  refine hr.forall_good_iff (I := Adapted.Loaned) ?_ ?_ (fun _ => rfl) (named_of_unnamed rfl)
  · intro p r h _
    exact h.next r
  · intro p r hl h _
    exact h.next_iff hl r

/-- The adapter is cleared before another model is loaded, and applied to that one again. -/
def clearedRun : List Rpc :=
  [.load ⟨"gemma","e2b.gguf",none⟩ chatModel, .trainingApplyAdapter (some " poet ") (.ok [1,2]) (.ok 4),
    .step 5 (.ok 7), .trainingClearAdapter (.ok ()), .load ⟨"gemma","e4b.gguf",none⟩ chatModel,
    .trainingApplyAdapter (some "poet") (.ok [1,2]) (.ok 4), .load ⟨"gemma","e4b.gguf",none⟩ chatModel]

theorem clearedRun_named : adapters.Run adaptedAtFirst clearedRun ∧
    ∀ p ∈ adapters.trail adaptedAtFirst clearedRun, (adapters.next p.1 p.2).Named :=
  ⟨by decide,(run_named_iff (by decide)).mpr (by decide)⟩

/-- Another model is loaded while the adapter is active. -/
def replacedRun : List Rpc :=
  [.load ⟨"gemma","e2b.gguf",none⟩ chatModel, .trainingApplyAdapter (some "poet") (.ok [1,2]) (.ok 4),
    .load ⟨"gemma","e4b.gguf",none⟩ chatModel]

/-- The name of the adapter is kept over a model that has none. -/
theorem replacedRun_misnamed :
    ¬ ∀ rpcs, adapters.Run adaptedAtFirst rpcs →
      ∀ p ∈ adapters.trail adaptedAtFirst rpcs, (adapters.next p.1 p.2).Named := by
  intro h
  have hlast : (adapters.exec adaptedAtFirst (replacedRun.take 2),
      .load ⟨"gemma","e4b.gguf",none⟩ chatModel) ∈ adapters.trail adaptedAtFirst replacedRun :=
    .tail _ (.tail _ (.head _))
  obtain ⟨m,bytes,hm,hadapter,_⟩ := h replacedRun (by decide) _ hlast "poet" (by decide)
  have hfresh : (adapters.exec adaptedAtFirst replacedRun).1.model =
      some (.fresh ⟨"gemma","e4b.gguf",none⟩ ⟨262144,false,false,none,none⟩ 4096) := by decide
  obtain rfl := Option.some.inj (hfresh.symm.trans hm)
  cases hadapter

end Rullama.CoreWorker
