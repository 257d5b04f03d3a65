import Rullama.CoreWorker.Rpc
import Rullama.Router.Frame

/-! # Who owns the model

The wasm model is held by the worker or by a training session, never by both, and while
`loadedInfo` is set by one of them. What the notifications say is loaded is `loadedInfo`. The
RPCs of inference and of the adapters leave all that as it is.
-/
namespace Rullama.CoreWorker
open Rullama.Transition Rullama.Router

/-- What a tab that was told `loaded` believes after one more notification. -/
def Notice.tell (loaded : Option LoadedModelInfo) : Notice → Option LoadedModelInfo
  | .modelLoaded info => some info
  | .modelFreed => none
  | _ => loaded

def told (notices : List Notice) : Option LoadedModelInfo := notices.foldl Notice.tell none

@[simp] theorem told_append (ns : List Notice) (n : Notice) : told (ns ++ [n]) = n.tell (told ns) := by
  rw [told,List.foldl_append]
  rfl

/-- The message that carries the notification to the router; `other` writes those it only
passes on. -/
def Notice.toRouter (other : Notice → String × Payload) : Notice → FromCore
  | .modelLoaded info => .modelLoaded info
  | .modelFreed => .modelFreed
  | n => .notify (other n).1 (other n).2

/-- The router's own `loadedInfo` is what it was told. -/
theorem router_told (other : Notice → String × Payload) (r : Router.State) (ns : List Notice)
    (now : ℕ) : (ns.foldl (fun r n => r.onCoreMessage (n.toRouter other) now) r).loadedInfo =
      ns.foldl Notice.tell r.loadedInfo := by
  induction ns generalizing r with
  | nil => rfl
  | cons n ns ih =>
    have hn : (r.onCoreMessage (n.toRouter other) now).loadedInfo = n.tell r.loadedInfo := by
      cases n <;> simp [Notice.toRouter,Notice.tell,Router.State.onCoreMessage,Router.State.notifyAll_eq]
    rw [List.foldl_cons,List.foldl_cons,ih,hn]

namespace Engine
variable (m : Engine)

@[simp] theorem step_adapter (t : Token) : (m.step t).adapter = m.adapter := rfl
@[simp] theorem feed_adapter (ts : List Token) : (m.feed ts).adapter = m.adapter :=
  Cache.PrefixCache.feed_mode m.cache ts
@[simp] theorem reset_adapter : m.reset.adapter = m.adapter := rfl
@[simp] theorem truncateKv_adapter (n : ℕ) : (m.truncateKv n).adapter = m.adapter := rfl
@[simp] theorem restoreKvState_adapter (bytes : KvBytes) :
    (m.restoreKvState bytes).adapter = m.adapter := rfl
@[simp] theorem shrinkKv_adapter (n : ℕ) : (m.shrinkKv n).adapter = m.adapter := rfl

end Engine

namespace State

/-- Exactly one of the model and the training session is there. -/
def OneOwner (s : State) : Prop :=
  (s.model.isSome ∧ s.trainingSession.isNone) ∨ (s.model.isNone ∧ s.trainingSession.isSome)

instance (s : State) : Decidable s.OneOwner := inferInstanceAs (Decidable (_ ∨ _))

structure Owned (s : State) : Prop where
  exclusive : s.model.isSome → s.trainingSession.isNone
  owned : s.loadedInfo.isSome → s.OneOwner
  agrees : told s.notices = s.loadedInfo

theorem owned_initial : State.initial.Owned := ⟨by decide,by decide,rfl⟩

/-- The step does not touch who owns the model, nor what is said of it. -/
structure Idle (s t : State) : Prop where
  model : t.model.isSome = s.model.isSome
  trainingSession : t.trainingSession.isSome = s.trainingSession.isSome
  loadedInfo : t.loadedInfo = s.loadedInfo
  notices : told t.notices = told s.notices

variable {s t u : State}

theorem Idle.refl (s : State) : Idle s s := ⟨rfl,rfl,rfl,rfl⟩

theorem Idle.trans (h : Idle s t) (h' : Idle t u) : Idle s u :=
  ⟨h'.model.trans h.model,h'.trainingSession.trans h.trainingSession,
    h'.loadedInfo.trans h.loadedInfo,h'.notices.trans h.notices⟩

theorem Idle.owned (hi : Idle s t) (h : s.Owned) : t.Owned := by
  obtain ⟨hm,ht,hl,hn⟩ := hi
  refine ⟨?_,?_,?_⟩
  · have he := h.exclusive
    simp only [← Option.not_isSome,Bool.not_eq_true'] at he ⊢
    rw [hm,ht]
    exact he
  · have ho := h.owned
    simp only [OneOwner,← Option.not_isSome] at ho ⊢
    rw [hm,ht,hl]
    exact ho
  · rw [hn,hl]
    exact h.agrees

theorem Idle.of_mapModel (f : Engine → Engine) : Idle s (s.mapModel f) :=
  ⟨by simp,rfl,rfl,rfl⟩

theorem Idle.of_setModel {m : Engine} (m' : Engine) (hm : s.model = some m) :
    Idle s (s.setModel m') := ⟨by simp [hm],rfl,rfl,rfl⟩

theorem Idle.of_ids (ids : Option (List ℕ)) : Idle s { s with residentIds := ids } :=
  ⟨rfl,rfl,rfl,rfl⟩

theorem Idle.of_notify {n : Notice} (hn : ∀ loaded, n.tell loaded = loaded) :
    Idle s (s.notify n) := ⟨rfl,rfl,rfl,by simp [hn]⟩

/-- The step computes with the model, whose adapter stays what it is called. -/
structure Quiet (s t : State) : Prop where
  adapter : t.model.map Engine.adapter = s.model.map Engine.adapter
  trainingSession : t.trainingSession = s.trainingSession
  activeAdapterName : t.activeAdapterName = s.activeAdapterName
  loadedInfo : t.loadedInfo = s.loadedInfo
  notices : told t.notices = told s.notices

theorem Quiet.idle (h : Quiet s t) : Idle s t := by
  have hm : t.model.isSome = s.model.isSome := by
    rw [← Option.isSome_map (f := Engine.adapter),h.adapter,Option.isSome_map]
  exact ⟨hm,by rw [h.trainingSession],h.loadedInfo,h.notices⟩

theorem Quiet.refl (s : State) : Quiet s s := ⟨rfl,rfl,rfl,rfl,rfl⟩

theorem Quiet.trans (h : Quiet s t) (h' : Quiet t u) : Quiet s u :=
  ⟨h'.adapter.trans h.adapter,h'.trainingSession.trans h.trainingSession,
    h'.activeAdapterName.trans h.activeAdapterName,h'.loadedInfo.trans h.loadedInfo,
    h'.notices.trans h.notices⟩

theorem Quiet.of_setModel {m m' : Engine} (hm : s.model = some m) (ha : m'.adapter = m.adapter) :
    Quiet s (s.setModel m') :=
  ⟨by rw [setModel_model,hm,Option.map_some,Option.map_some,ha],rfl,rfl,rfl,rfl⟩

theorem Quiet.of_ids (ids : Option (List ℕ)) : Quiet s { s with residentIds := ids } :=
  ⟨rfl,rfl,rfl,rfl,rfl⟩

theorem Quiet.of_mapModel {f : Engine → Engine} (hf : ∀ m, (f m).adapter = m.adapter) :
    Quiet s (s.mapModel f) := by
  refine ⟨?_,rfl,rfl,rfl,rfl⟩
  rw [mapModel_model,Option.map_map]
  exact congrArg (Option.map · s.model) (funext hf)

theorem Quiet.of_notify {n : Notice} (hn : ∀ loaded, n.tell loaded = loaded) :
    Quiet s (s.notify n) := ⟨rfl,rfl,rfl,rfl,by simp [hn]⟩

/-- A handler that asks for the model first. -/
theorem Quiet.of_requireModel {k : Engine → State × Reply}
    (hk : ∀ m, s.model = some m → Quiet s (k m).1) : Quiet s (s.orThrow s.requireModel k).1 := by
  apply orThrow_of (.refl s)
  intro m hm
  exact hk m (requireModel_ok hm).2

theorem Quiet.step (tokenId : ℕ) (next : Except String ℕ) : Quiet s (s.step tokenId next).1 := by
  apply Quiet.of_requireModel
  intro m hm
  apply orThrow_of (.refl s)
  intro logits _
  have hset : Quiet s (s.setModel (m.step (.id tokenId))) := .of_setModel hm (m.step_adapter _)
  exact hset.trans (.of_ids _)

theorem Quiet.stepAndDecode (tokenId : ℕ) (next : Except String ℕ) (isEos : Bool)
    (str : Option String) : Quiet s (s.stepAndDecode tokenId next isEos str).1 := by
  apply Quiet.of_requireModel
  intro m hm
  apply orThrow_of (.refl s)
  intro logits _
  have hset : Quiet s (s.setModel (m.step (.id tokenId))) := .of_setModel hm (m.step_adapter _)
  exact hset.trans (.of_ids _)

theorem Quiet.stepWithEmb (embedding : ℕ) (next : Except String ℕ) :
    Quiet s (s.stepWithEmb embedding next).1 := by
  apply orThrow_of (.of_ids none)
  intro m hm
  apply orThrow_of (.of_ids none)
  intro logits _
  have hids : Quiet s s.kvInvalidate := .of_ids none
  exact hids.trans (.of_setModel (requireModel_ok hm).2 (m.step_adapter _))

theorem Quiet.resetKv {m : Engine} (hm : s.model = some m) : Quiet s (s.resetKv m) :=
  (Quiet.of_setModel hm m.reset_adapter).trans (.of_ids _)

theorem Quiet.kvReusePlan (ids : List ℕ) : Quiet s (s.kvReusePlan ids).1 := by
  apply Quiet.of_requireModel
  intro m hm
  split
  · exact .resetKv hm
  split
  · simp only
    split
    · exact .refl s
    split
    · exact (Quiet.of_setModel hm (m.truncateKv_adapter _)).trans (.of_ids _)
    · exact .resetKv hm
  · exact .resetKv hm

theorem Quiet.warmFeed (total : ℕ) (thrown : Option Throw) (i : ℕ) (ids : List ℕ) :
    Quiet s (s.warmFeed total thrown i ids).1 := by
  induction ids generalizing s i with
  | nil => exact .refl s
  | cons id ids ih =>
    rw [State.warmFeed]
    split
    · exact .refl s
    · refine Quiet.trans ?_ (ih (i + 1))
      exact ((Quiet.of_mapModel (·.step_adapter _)).trans (.of_ids _)).trans (.of_notify (fun _ => rfl))

theorem Quiet.warmSystem (ids : List ℕ) (thrown : Option Throw) :
    Quiet s (s.warmSystem ids thrown).1 := by
  apply Quiet.of_requireModel
  intro m hm
  have hr : Quiet s (s.resetKv m) := .resetKv hm
  simp only
  split
  · exact hr
  · exact hr.trans (.warmFeed _ _ _ _)

theorem Quiet.transcribeAudio (maxTokens : ℕ) (prepared : Except String Transcription)
    (generated : List (ℕ × Option String)) (thrown : Option Throw) :
    Quiet s (s.transcribeAudio maxTokens prepared generated thrown).1 := by
  apply Quiet.of_requireModel
  intro m hm
  split
  · exact .refl s
  · apply orThrow_of (.refl s)
    intro t _
    have hset : Quiet s (s.setModel m.reset) := .of_setModel hm m.reset_adapter
    have hr : Quiet s (s.setModel m.reset).kvInvalidate := hset.trans (.of_ids none)
    simp only
    split <;> exact hr.trans (.of_setModel rfl (m.reset.feed_adapter _))

theorem Quiet.reset : Quiet s s.reset.1 := by
  apply Quiet.of_requireModel
  intro m hm
  exact .resetKv hm

theorem Quiet.saveKvState (saves : Except String Unit) : Quiet s (s.saveKvState saves).1 :=
  orThrow_of (.refl s) (fun _ _ => orThrow_of (.refl s) (fun _ _ => .refl s))

theorem Quiet.restoreKvState (bytes : KvBytes) (restores : Except String Unit) :
    Quiet s (s.restoreKvState bytes restores).1 := by
  apply Quiet.of_requireModel
  intro m hm
  apply orThrow_of (.refl s)
  intro u _
  exact (Quiet.of_setModel hm (m.restoreKvState_adapter _)).trans (.of_ids none)

theorem Quiet.saveConvKv (saves : Except String Unit) : Quiet s (s.saveConvKv saves).1 := by
  simp only [State.saveConvKv]
  split
  · exact .refl s
  · exact orThrow_of (.refl s) (fun _ _ => orThrow_of (.refl s) (fun _ _ => ⟨rfl,rfl,rfl,rfl,rfl⟩))

theorem Quiet.restoreConvKv (decoded : Except String Envelope) (restores : Except String Unit) :
    Quiet s (s.restoreConvKv decoded restores).1 := by
  apply orThrow_of (.refl s)
  intro envelope _
  apply Quiet.of_requireModel
  intro m hm
  apply orThrow_of (.refl s)
  intro u _
  exact (Quiet.of_setModel hm (m.restoreKvState_adapter _)).trans (.of_ids _)

theorem Idle.tryClearAdapter (clears : Except String Unit) : Idle s (s.tryClearAdapter clears) := by
  cases clears with
  | ok _ => exact .of_mapModel _
  | error _ => exact .refl s

theorem Idle.of_name (name : Option String) : Idle s { s with activeAdapterName := name } :=
  ⟨rfl,rfl,rfl,rfl⟩

theorem Idle.trainingApplyAdapter (name : Option String) (bytes : Except String Bytes)
    (slots : Except String ℕ) : Idle s (s.trainingApplyAdapter name bytes slots).1 := by
  simp only [State.trainingApplyAdapter]
  split
  · exact .refl s
  rename_i m hm
  split
  · exact .refl s
  split
  · exact .refl s
  refine orThrow_of (.refl s) (fun _ _ => orThrow_of (.refl s) (fun _ _ => ?_))
  refine Idle.trans ?_ (.of_notify (fun _ => rfl))
  exact (Idle.of_setModel _ hm).trans ⟨rfl,rfl,rfl,rfl⟩

theorem Idle.trainingClearAdapter (clears : Except String Unit) :
    Idle s (s.trainingClearAdapter clears).1 := by
  simp only [State.trainingClearAdapter]
  split
  · exact .refl s
  rename_i m hm
  split
  · exact .refl s
  apply orThrow_of (.refl s)
  intro _ _
  refine Idle.trans ?_ (.of_notify (fun _ => rfl))
  exact (Idle.of_setModel _ hm).trans ⟨rfl,rfl,rfl,rfl⟩

theorem Idle.trainingDeleteAdapter (name : Option String) (clears : Except String Unit) :
    Idle s (s.trainingDeleteAdapter name clears).1 := by
  simp only [State.trainingDeleteAdapter]
  split
  · exact .refl s
  refine Idle.trans ?_ (.of_notify (fun _ => rfl))
  split
  · refine Idle.trans ?_ (.of_notify (fun _ => rfl))
    exact (Idle.tryClearAdapter clears).trans ⟨rfl,rfl,rfl,rfl⟩
  · exact .refl s

theorem Idle.dropActive (clears : Except String Unit) : Idle s (s.dropActive clears) := by
  simp only [State.dropActive]
  split
  · exact ((Idle.tryClearAdapter clears).trans (.of_name none)).trans (.of_notify (fun _ => rfl))
  · exact .refl s

theorem Idle.shrinkForTraining (targetKv : ℕ) (shrinks : Except String Unit) :
    Idle s (s.shrinkForTraining targetKv shrinks) := by
  simp only [State.shrinkForTraining]
  split
  · rename_i hm
    split
    · exact (Idle.of_setModel _ hm).trans ⟨rfl,rfl,rfl,rfl⟩
    · exact ⟨rfl,rfl,rfl,rfl⟩
  · exact ⟨rfl,rfl,rfl,rfl⟩

theorem Idle.restoreKvContext (shrinks : Except String Unit) : Idle s (s.restoreKvContext shrinks) := by
  simp only [State.restoreKvContext]
  split
  · exact (Idle.of_mapModel _).trans ⟨rfl,rfl,rfl,rfl⟩
  · exact ⟨rfl,rfl,rfl,rfl⟩

end State
end Rullama.CoreWorker
