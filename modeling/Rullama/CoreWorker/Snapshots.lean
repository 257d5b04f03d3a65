import Rullama.CoreWorker.Residency

/-! # Prefix reuse and restored conversations

A reuse plan is as good as the tracker: what it keeps is the head of the new sequence, and
feeding the rest gives what a reset and a full prefill give. A restored conversation keeps
the tracker right exactly when it is empty or was saved under the adapter applied now.
-/
namespace Rullama.CoreWorker
open Rullama.Cache Rullama.Transition

namespace State

/-- The cache is exactly the first `n` ids, and feeding the rest is as good as starting over. -/
def ReuseExact (s : State) (ids : List ℕ) (n : ℕ) : Prop :=
  ∃ m, s.model = some m ∧ m.cache.Holds (tokens (ids.take n)) ∧
    m.feed (tokens (ids.drop n)) = m.reset.feed (tokens ids)

variable {s : State}

theorem reuseExact_of {m : Engine} {ids : List ℕ} {n : ℕ} (hm : s.model = some m)
    (h : m.cache.Holds (tokens (ids.take n))) : s.ReuseExact ids n := by
  refine ⟨m,hm,h,?_⟩
  rw [tokens,List.map_take] at h
  have hf := h.feed_drop
  rw [← List.map_drop] at hf
  exact congrArg (fun c => { m with cache := c }) hf

theorem reuseExact_resetKv (s : State) (m : Engine) (ids : List ℕ) :
    (s.resetKv m).ReuseExact ids 0 :=
  reuseExact_of (m := m.reset) rfl (PrefixCache.holds_reset m.cache)

theorem kvReusePlan_exact (h : s.Tracked) {ids : List ℕ} {n : ℕ}
    (hr : (s.kvReusePlan ids).2 = .ok (.reuse n)) : (s.kvReusePlan ids).1.ReuseExact ids n := by
  cases hq : s.requireModel with
  | error e =>
    simp only [kvReusePlan,orThrow,hq] at hr
    cases hr
  | ok m =>
    have hm := (requireModel_ok hq).2
    simp only [kvReusePlan,orThrow,hq] at hr ⊢
    cases hi : s.residentIds with
    | none =>
      simp only [hi] at hr ⊢
      cases hr
      exact reuseExact_resetKv s m ids
    | some res =>
      have hh := h res m hi hm
      have hp := take_commonPrefix res ids
      simp only [hi] at hr ⊢
      split at hr
      · split at hr
        · rename_i hfull
          -- all of the resident sequence is a prefix
          rw [if_pos ‹_›,if_pos hfull]
          cases hr
          apply reuseExact_of hm
          rw [← hp,hfull,List.take_length]
          exact hh
        split at hr
        · rename_i hpos
          -- the tail is dropped
          rw [if_pos ‹_›,if_neg ‹_›,if_pos hpos]
          cases hr
          apply reuseExact_of (m := m.truncateKv (commonPrefix res ids)) rfl
          rw [← hp,tokens,List.map_take]
          exact hh.truncate _
        · rw [if_pos ‹_›,if_neg ‹_›,if_neg ‹_›]
          cases hr
          exact reuseExact_resetKv s m ids
      · rw [if_neg ‹_›]
        cases hr
        exact reuseExact_resetKv s m ids

/-- What is asked of the state after an RPC: the tracker is right, and a reuse plan it
returned is exact. -/
structure Faithful (s : State) (r : Rpc) : Prop where
  tracked : (s.handle r).1.Tracked
  reuse : ∀ ids n, r = .kvReusePlan ids → (s.handle r).2 = .ok (.reuse n) →
    (s.handle r).1.ReuseExact ids n

/-- A conversation restored into the model is empty or was saved under the adapter that is
applied to it. -/
def RestoresOwn (s : State) (r : Rpc) : Prop :=
  ∀ envelope ∈ r.restored, ∀ m ∈ s.requireModel.toOption, envelope.ids = [] ∨
    ∃ snapshot ∈ s.saved, snapshot.envelope = envelope ∧ snapshot.adapter = m.adapter

instance (s : State) (r : Rpc) : Decidable (s.RestoresOwn r) :=
  inferInstanceAs (Decidable (∀ envelope ∈ r.restored, ∀ m ∈ s.requireModel.toOption,
    envelope.ids = [] ∨ ∃ snapshot ∈ s.saved, snapshot.envelope = envelope ∧
      snapshot.adapter = m.adapter))

theorem SavedHeld.holds_iff (h : s.SavedHeld) {snapshot : Snapshot} (hx : snapshot ∈ s.saved)
    (m : Engine) :
    (m.restoreKvState snapshot.envelope.kvBytes).cache.Holds (tokens snapshot.envelope.ids) ↔
      snapshot.envelope.ids = [] ∨ snapshot.adapter = m.adapter := by
  rw [Engine.restoreKvState,h snapshot hx,PrefixCache.holds_restore_iff,tokens,List.map_eq_nil_iff]
  rfl

theorem Resident.restore (h : s.Resident) {envelope : Envelope} {u : Unit}
    (he : s.Restorable envelope) :
    (s.restoreConvKv (.ok envelope) (.ok u)).1.Tracked ↔
      s.RestoresOwn (.restoreConvKv (.ok envelope) (.ok u)) := by
  obtain ⟨snapshot,hx,rfl,-⟩ := he
  cases hq : s.requireModel with
  | error e =>
    refine iff_of_true ?_ ?_
    · simpa only [restoreConvKv,orThrow,hq] using h.tracked
    · intro _ _ m hm
      rw [hq] at hm
      cases hm
  | ok m =>
    have hf : (s.restoreConvKv (.ok snapshot.envelope) (.ok u)).1.Tracked ↔
        (m.restoreKvState snapshot.envelope.kvBytes).cache.Holds (tokens snapshot.envelope.ids) := by
      simp only [restoreConvKv,orThrow,hq]
      refine ⟨fun ht => ht _ _ rfl rfl,fun hh ids m' hi hm => ?_⟩
      cases hi
      cases hm
      exact hh
    have ho : s.RestoresOwn (.restoreConvKv (.ok snapshot.envelope) (.ok u)) ↔
        snapshot.envelope.ids = [] ∨ ∃ x ∈ s.saved, x.envelope = snapshot.envelope ∧
          x.adapter = m.adapter := by
      simp [RestoresOwn,Rpc.restored,hq,Except.toOption]
    rw [hf,ho]
    constructor
    · intro hh
      exact ((h.saved.holds_iff hx m).mp hh).imp_right (fun ha => ⟨snapshot,hx,rfl,ha⟩)
    · rintro (hn | ⟨y,hy,heq,ha⟩)
      · exact (h.saved.holds_iff hx m).mpr (.inl hn)
      · rw [← heq]
        exact (h.saved.holds_iff hy m).mpr (.inr ha)

theorem restoreConvKv_saved (s : State) (decoded : Except String Envelope)
    (restores : Except String Unit) : (s.restoreConvKv decoded restores).1.saved = s.saved := by
  apply orThrow_of (P := fun t => t.saved = s.saved) rfl
  intro envelope _
  apply orThrow_of (P := fun t => t.saved = s.saved) rfl
  intro m _
  apply orThrow_of (P := fun t => t.saved = s.saved) rfl
  intro u _
  rfl

theorem Resident.tracked_iff (h : s.Resident) {r : Rpc} (he : s.Enabled r) :
    (s.handle r).1.Tracked ↔ s.RestoresOwn r := by
  cases hr : r.restored with
  | none =>
    apply iff_of_true (h.handle hr).tracked
    intro _ hx
    rw [hr] at hx
    cases hx
  | some envelope =>
    obtain ⟨u,rfl⟩ := Rpc.restored_eq hr
    exact h.restore (he _ rfl)

theorem Resident.faithful_rpc_iff (h : s.Resident) {r : Rpc} (he : s.Enabled r) :
    s.Faithful r ↔ s.RestoresOwn r := by
  rw [← h.tracked_iff he]
  refine ⟨Faithful.tracked,fun ht => ⟨ht,?_⟩⟩
  rintro ids n rfl hn
  exact kvReusePlan_exact h.tracked hn

theorem Resident.next (h : s.Resident) {r : Rpc} (he : s.Enabled r) (hc : s.RestoresOwn r) :
    (s.handle r).1.Resident := by
  cases hr : r.restored with
  | none => exact h.handle hr
  | some envelope =>
    obtain ⟨u,rfl⟩ := Rpc.restored_eq hr
    refine ⟨(h.tracked_iff he).mpr hc,?_⟩
    rw [SavedHeld,State.handle,restoreConvKv_saved]
    exact h.saved

end State

/-- In every sequence of RPCs the tracker stays right and the reuse plans exact after each of
them just when every restored conversation is of the adapter applied to the model. -/
theorem run_faithful_iff {rpcs : List Rpc} (hr : core.Run .initial rpcs) :
    (∀ p ∈ core.trail .initial rpcs, p.1.Faithful p.2) ↔
      ∀ p ∈ core.trail .initial rpcs, p.1.RestoresOwn p.2 := by
  refine hr.forall_iff (G := State.Resident) (P := State.Faithful) (C := State.RestoresOwn)
    ?_ ?_ State.resident_initial
  · intro s r h he hc
    exact h.next he hc
  · intro s r h he
    exact h.faithful_rpc_iff he

def textModel : LoadCalls := ⟨.ok (),.ok (),.ok (⟨262144,false,false,none,none⟩,4096)⟩

/-- A conversation is saved and restored under one adapter, and its next turn reuses it. -/
def sameAdapterRun : List Rpc :=
  [.load ⟨"gemma","e2b.gguf",none⟩ textModel, .trainingApplyAdapter (some "poet") (.ok [1]) (.ok 4),
    .reset, .step 5 (.ok 7), .step 7 (.ok 8), .saveConvKv (.ok ()), .reset, .step 9 (.ok 1),
    .restoreConvKv (.ok ⟨[5, 7],[(.id 5,some [1]), (.id 7,some [1])]⟩) (.ok ()),
    .kvReusePlan [5, 7, 8]]

theorem sameAdapterRun_faithful : core.Run .initial sameAdapterRun ∧
    ∀ p ∈ core.trail .initial sameAdapterRun, p.1.Faithful p.2 :=
  ⟨by decide,(run_faithful_iff (by decide)).mpr (by decide)⟩

/-- The adapter is changed between saving the conversation and restoring it. -/
def otherAdapterRun : List Rpc :=
  [.load ⟨"gemma","e2b.gguf",none⟩ textModel, .step 5 (.ok 7), .saveConvKv (.ok ()),
    .trainingApplyAdapter (some "poet") (.ok [1]) (.ok 4),
    .restoreConvKv (.ok ⟨[5],[(.id 5,none)]⟩) (.ok ())]

/-- The tracker names the saved id as resident, computed before the adapter was applied. -/
theorem otherAdapterRun_stale :
    ¬ ∀ rpcs, core.Run .initial rpcs → ∀ p ∈ core.trail .initial rpcs, p.1.Faithful p.2 := by
  intro h
  have hlast : (core.exec .initial (otherAdapterRun.take 4),
      .restoreConvKv (.ok ⟨[5],[(.id 5,none)]⟩) (.ok ())) ∈ core.trail .initial otherAdapterRun :=
    .tail _ (.tail _ (.tail _ (.tail _ (.head _))))
  have hheld := (h otherAdapterRun (by decide) _ hlast).tracked [5]
    ⟨"gemma","e2b.gguf",⟨262144,false,false,none,none⟩,4096,⟨some [1],[(.id 5,none)]⟩⟩
    (by decide) (by decide)
  exact absurd hheld (by decide)

end Rullama.CoreWorker
