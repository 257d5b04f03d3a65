import Rullama.CoreWorker.Inference
import Rullama.CoreWorker.Training
import Rullama.Transition.Machine

/-! # The RPC table

The RPCs that touch the model, its KV cache, the training session or the adapter, each with
its arguments and the outcomes of the calls its handler makes. They come in any order and
every call may throw; the one restriction is that an envelope that decodes and restores is
one that `saveConvKv` returned earlier, for the same model file. Between two RPCs the worker
may be replaced: the new one starts with its globals unset, the snapshots are still there.
-/
namespace Rullama.CoreWorker
open Rullama.Transition

inductive Rpc where
  | load (args : LoadArgs) (calls : LoadCalls)
  | free
  | step (tokenId : ℕ) (next : Except String ℕ)
  | stepWithEmb (embedding : ℕ) (next : Except String ℕ)
  | stepAndDecode (tokenId : ℕ) (next : Except String ℕ) (isEos : Bool) (str : Option String)
  | kvReusePlan (ids : List ℕ)
  | warmSystem (ids : List ℕ) (thrown : Option Throw)
  | transcribeAudio (maxTokens : ℕ) (prepared : Except String Transcription)
      (generated : List (ℕ × Option String)) (thrown : Option Throw)
  | reset
  | saveKvState (saves : Except String Unit)
  | restoreKvState (bytes : KvBytes) (restores : Except String Unit)
  | saveConvKv (saves : Except String Unit)
  | restoreConvKv (decoded : Except String Envelope) (restores : Except String Unit)
  | trainingStart (args : StartArgs) (calls : StartCalls)
  | trainingSaveAdapterAndFinish (name : Option String) (calls : SaveCalls)
  | trainingFinish (finished : Except String Trained) (shrinks : Except String Unit)
  | trainingApplyAdapter (name : Option String) (bytes : Except String Bytes)
      (slots : Except String ℕ)
  | trainingClearAdapter (clears : Except String Unit)
  | trainingDeleteAdapter (name : Option String) (clears : Except String Unit)
  | respawn

/-- The envelope that the RPC restores, where it decodes and the engine takes it. -/
def Rpc.restored : Rpc → Option Envelope
  | .restoreConvKv (.ok envelope) (.ok _) => some envelope
  | _ => none

theorem Rpc.restored_eq {r : Rpc} {envelope : Envelope} (h : r.restored = some envelope) :
    ∃ u, r = .restoreConvKv (.ok envelope) (.ok u) := by
  simp only [restored] at h
  split at h
  · cases h
    exact ⟨_,rfl⟩
  · cases h

namespace State

/-- Not an RPC: another dedicated worker takes the place of this one. -/
def respawn (s : State) : State × Reply := ({ initial with saved := s.saved },.ok .none)

def handle (s : State) : Rpc → State × Reply
  | .load args calls => s.load args calls
  | .free => s.free
  | .step tokenId next => s.step tokenId next
  | .stepWithEmb embedding next => s.stepWithEmb embedding next
  | .stepAndDecode tokenId next isEos str => s.stepAndDecode tokenId next isEos str
  | .kvReusePlan ids => s.kvReusePlan ids
  | .warmSystem ids thrown => s.warmSystem ids thrown
  | .transcribeAudio maxTokens prepared generated thrown =>
    s.transcribeAudio maxTokens prepared generated thrown
  | .reset => s.reset
  | .saveKvState saves => s.saveKvState saves
  | .restoreKvState bytes restores => s.restoreKvState bytes restores
  | .saveConvKv saves => s.saveConvKv saves
  | .restoreConvKv decoded restores => s.restoreConvKv decoded restores
  | .trainingStart args calls => s.trainingStart args calls
  | .trainingSaveAdapterAndFinish name calls => s.trainingSaveAdapterAndFinish name calls
  | .trainingFinish finished shrinks => s.trainingFinish finished shrinks
  | .trainingApplyAdapter name bytes slots => s.trainingApplyAdapter name bytes slots
  | .trainingClearAdapter clears => s.trainingClearAdapter clears
  | .trainingDeleteAdapter name clears => s.trainingDeleteAdapter name clears
  | .respawn => s.respawn

/-- The envelope was saved earlier, from the model file that is loaded. -/
def Restorable (s : State) (envelope : Envelope) : Prop :=
  ∃ snapshot ∈ s.saved, snapshot.envelope = envelope ∧
    s.model.all (fun m => m.modelKey = snapshot.modelKey ∧ m.filename = snapshot.filename)

instance (s : State) (envelope : Envelope) : Decidable (s.Restorable envelope) :=
  inferInstanceAs (Decidable (∃ snapshot ∈ s.saved, _))

def Enabled (s : State) (r : Rpc) : Prop := ∀ envelope ∈ r.restored, s.Restorable envelope

instance (s : State) (r : Rpc) : Decidable (s.Enabled r) :=
  inferInstanceAs (Decidable (∀ envelope ∈ r.restored, s.Restorable envelope))

end State

/-- The core worker, RPC after RPC. -/
def core : Machine State Rpc where
  enabled := State.Enabled
  next s r := (s.handle r).1

instance (s : State) (r : Rpc) : Decidable (core.enabled s r) :=
  inferInstanceAs (Decidable (s.Enabled r))

@[simp] theorem core_enabled (s : State) (r : Rpc) : core.enabled s r ↔ s.Enabled r := Iff.rfl

end Rullama.CoreWorker
