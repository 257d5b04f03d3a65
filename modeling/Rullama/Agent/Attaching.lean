import Mathlib.Data.List.Nodup
import Rullama.Agent.Conversation

/-! # Attaching to a conversation

A viewer is sent the conversation under the lock and subscribes to the updates after it was
released. What is broadcast in between reaches nobody for it, and the user messages that
come out of the queue are never broadcast at all.
-/
namespace Rullama.Agent
open Transition

namespace AgentState

/-- The messages that a handler is about to broadcast. -/
def announced (s : AgentState) : List DisplayMessage := s.announcing.map Announcement.message

/-- The viewers that have subscribed miss no message but those listed and those about to be
broadcast. -/
def MissesOnly (s : AgentState) (ms : List DisplayMessage) : Prop :=
  ∀ v ∈ s.viewers, v.subscribed = true →
    ∀ m ∈ s.messages, m ∈ v.seen ∨ m ∈ s.announced ∨ m ∈ ms

/-- The snapshot and the updates of a viewer have every message of the conversation. -/
def Gapless (s : AgentState) : Prop :=
  ∀ v ∈ s.viewers, v.subscribed = true → ∀ m ∈ s.messages, m ∈ v.seen ∨ m ∈ s.announced

/-- A viewer subscribes while all that came after its snapshot is still to be broadcast, and
a message is taken out of the queue while no viewer has subscribed. -/
def AttachesInTime (s : AgentState) : Event → Prop
  | .subscribe viewer => ∀ v ∈ s.viewers, v.id = viewer → v.subscribed = false →
      ∀ m ∈ s.messages.drop v.snapshot.length, m ∈ s.announced
  | .beginQueued _ _ => ∀ v ∈ s.viewers, v.subscribed = false
  | _ => True

instance (s : AgentState) : ∀ e, Decidable (s.AttachesInTime e)
  | .subscribe _ => inferInstanceAs (Decidable (∀ v ∈ s.viewers, _))
  | .beginQueued _ _ => inferInstanceAs (Decidable (∀ v ∈ s.viewers, _))
  | .attach _ | .disconnect _ | .userInput _ _ | .announce _ | .cancel _ | .syncRequest _
  | .queueMessage _ _ | .startPending | .stream _ _ | .turnEnds _ _ | .turnDies _ | .popQueued
  | .drainDies _ => .isTrue trivial

/-- The messages are numbered, and viewers were sent only messages of the conversation. -/
structure Numbered (s : AgentState) : Prop where
  places : s.messages.map DisplayMessage.place = List.range s.messages.length
  snapshots : ∀ v ∈ s.viewers, v.snapshot <+: s.messages
  updates : ∀ v ∈ s.viewers, ∀ m ∈ v.received.flatMap AgentMessage.shows, m ∈ s.messages
  announces : ∀ m ∈ s.announced, m ∈ s.messages
  unsubscribed : ∀ v ∈ s.viewers, v.subscribed = false → v.received = []

end AgentState

namespace Viewer
variable (v : Viewer) (update : AgentMessage)

@[simp] theorem receive_subscribed : (v.receive update).subscribed = v.subscribed := by
  unfold receive
  split <;> rfl

@[simp] theorem receive_snapshot : (v.receive update).snapshot = v.snapshot := by
  unfold receive
  split <;> rfl

theorem receive_of_subscribed {v : Viewer} (h : v.subscribed = true) :
    v.receive update = { v with received := v.received ++ [update] } := if_pos h

theorem receive_of_not_subscribed {v : Viewer} (h : v.subscribed = false) :
    v.receive update = v := if_neg (by simp [h])

theorem mem_seen_receive {v : Viewer} (h : v.subscribed = true) {m : DisplayMessage} :
    m ∈ (v.receive update).seen ↔ m ∈ v.seen ∨ m ∈ update.shows := by
  rw [receive_of_subscribed update h]
  simp only [seen,List.flatMap_append,List.flatMap_singleton,List.mem_append,or_assoc]

end Viewer

namespace AgentState
variable {s : AgentState}

theorem gapless_iff : s.Gapless ↔ s.MissesOnly [] := by
  simp only [Gapless,MissesOnly,List.not_mem_nil,or_false]

/-! ## Numbers -/

theorem Numbered.nodup (h : s.Numbered) : s.messages.Nodup := by
  apply List.Nodup.of_map DisplayMessage.place
  rw [h.places]
  exact List.nodup_range

theorem Numbered.fresh (h : s.Numbered) (role content : String) :
    (⟨s.messages.length,role,content⟩ : DisplayMessage) ∉ s.messages := by
  intro hm
  have hplace := List.mem_map_of_mem (f := DisplayMessage.place) hm
  rw [h.places,List.mem_range] at hplace
  exact Nat.lt_irrefl _ hplace

theorem Numbered.seen (h : s.Numbered) {v : Viewer} (hv : v ∈ s.viewers) {m : DisplayMessage}
    (hm : m ∈ v.seen) : m ∈ s.messages := by
  rcases List.mem_append.mp hm with hm | hm
  · exact (h.snapshots v hv).subset hm
  · exact h.updates v hv m hm

/-- What came after a snapshot is not in it. -/
theorem Numbered.not_mem_snapshot (h : s.Numbered) {v : Viewer} (hv : v ∈ s.viewers)
    {m : DisplayMessage} (hm : m ∈ s.messages.drop v.snapshot.length) : m ∉ v.snapshot := by
  obtain ⟨later,hlater⟩ := h.snapshots v hv
  have hnodup := h.nodup
  rw [← hlater] at hm hnodup
  rw [List.drop_left] at hm
  intro hsnapshot
  exact (List.disjoint_of_nodup_append hnodup) hsnapshot hm

theorem Numbered.send (h : s.Numbered) {update : AgentMessage}
    (hu : ∀ m ∈ update.shows, m ∈ s.messages) : (s.send update).Numbered := by
  refine ⟨h.places,?_,?_,h.announces,?_⟩
  · intro v hv
    obtain ⟨w,hw,rfl⟩ := List.mem_map.mp hv
    rw [Viewer.receive_snapshot]
    exact h.snapshots w hw
  · intro v hv m hm
    obtain ⟨w,hw,rfl⟩ := List.mem_map.mp hv
    cases hsub : w.subscribed with
    | false =>
      rw [Viewer.receive_of_not_subscribed update hsub] at hm
      exact h.updates w hw m hm
    | true =>
      rw [Viewer.receive_of_subscribed update hsub] at hm
      simp only [List.flatMap_append,List.flatMap_singleton,List.mem_append] at hm
      rcases hm with hm | hm
      · exact h.updates w hw m hm
      · exact hu m hm
  · intro v hv hsub
    obtain ⟨w,hw,rfl⟩ := List.mem_map.mp hv
    rw [Viewer.receive_subscribed] at hsub
    rw [Viewer.receive_of_not_subscribed update hsub]
    exact h.unsubscribed w hw hsub

theorem Numbered.same (h : s.Numbered) {t : AgentState} (hmessages : t.messages = s.messages)
    (hviewers : t.viewers = s.viewers) (hannouncing : t.announcing = s.announcing) :
    t.Numbered := by
  have hannounced : t.announced = s.announced := by rw [announced,hannouncing]; rfl
  refine ⟨?_,?_,?_,?_,?_⟩
  · rw [hmessages]
    exact h.places
  · rw [hviewers,hmessages]
    exact h.snapshots
  · rw [hviewers,hmessages]
    exact h.updates
  · rw [hannounced,hmessages]
    exact h.announces
  · rw [hviewers]
    exact h.unsubscribed

/-- The conversation grows by one message, announced or not. -/
theorem Numbered.add (h : s.Numbered) {t : AgentState} {role content : String}
    (hmessages : t.messages = s.messages ++ [⟨s.messages.length,role,content⟩])
    (hviewers : t.viewers = s.viewers)
    (hannounced : ∀ m ∈ t.announced, m ∈ s.announced ∨ m ∈ t.messages) : t.Numbered := by
  have hgrow : ∀ m ∈ s.messages, m ∈ t.messages := by
    intro m hm
    rw [hmessages]
    exact List.mem_append_left _ hm
  refine ⟨?_,?_,?_,?_,?_⟩
  · rw [hmessages]
    simp [h.places,List.range_succ]
  · intro v hv
    rw [hviewers] at hv
    rw [hmessages]
    exact (h.snapshots v hv).trans (List.prefix_append _ _)
  · intro v hv m hm
    rw [hviewers] at hv
    exact hgrow m (h.updates v hv m hm)
  · intro m hm
    rcases hannounced m hm with hm | hm
    · exact hgrow m (h.announces m hm)
    · exact hm
  · rw [hviewers]
    exact h.unsubscribed

theorem Numbered.reply (h : s.Numbered) (t : Turn) (response : String) :
    (s.reply t response).Numbered := by
  have hadd : ({ s.addAssistantMessage t.id response with
      isBusy := false, status := "Ready - Model: " ++ t.model } : AgentState).Numbered :=
    h.add rfl rfl (fun m hm => .inl hm)
  unfold AgentState.reply sendLast sendStatus
  refine Numbered.send ?_ (by simp [AgentMessage.shows])
  split
  · next m hm =>
    apply hadd.send
    intro k hk
    rw [List.mem_singleton.mp hk]
    exact List.mem_of_getLast? hm
  · exact hadd

theorem Numbered.report (h : s.Numbered) (status error : String) :
    (s.report status error).Numbered := by
  have hbase : ({ s with isBusy := false, status } : AgentState).Numbered := h.same rfl rfl rfl
  refine Numbered.send (Numbered.send hbase ?_) ?_ <;> simp [AgentMessage.shows]

theorem Numbered.finish (h : s.Numbered) (t : Turn) (result : Except String String) :
    (s.finish t result).Numbered := by
  cases result with
  | ok response =>
    rw [finish_ok_eq]
    exact (h.reply t response).same rfl rfl rfl
  | error e =>
    unfold AgentState.finish
    have hfailed : ({ s with failed := s.failed ++ [t.id] } : AgentState).Numbered :=
      h.same rfl rfl rfl
    cases t.kind with
    | input => exact hfailed.report _ e
    | pending => exact hfailed
    | queued m =>
      refine Numbered.report ?_ _ e
      exact hfailed.same rfl rfl rfl

theorem Numbered.subscribe (h : s.Numbered) (viewer : ℕ) : (s.subscribe viewer).Numbered := by
  have hviewer : ∀ v ∈ (s.subscribe viewer).viewers, ∃ w ∈ s.viewers,
      v.snapshot = w.snapshot ∧ v.received = w.received ∧
        (v.subscribed = false → w.subscribed = false) := by
    intro v hv
    obtain ⟨w,hw,rfl⟩ := List.mem_map.mp hv
    refine ⟨w,hw,?_⟩
    split <;> simp
  refine ⟨h.places,?_,?_,h.announces,?_⟩
  · intro v hv
    obtain ⟨w,hw,hsnapshot,-,-⟩ := hviewer v hv
    rw [hsnapshot]
    exact h.snapshots w hw
  · intro v hv m hm
    obtain ⟨w,hw,-,hreceived,-⟩ := hviewer v hv
    rw [hreceived] at hm
    exact h.updates w hw m hm
  · intro v hv hsub
    obtain ⟨w,hw,-,hreceived,hwsub⟩ := hviewer v hv
    rw [hreceived]
    exact h.unsubscribed w hw (hwsub hsub)

theorem Numbered.attach (h : s.Numbered) (viewer : ℕ) : (s.attach viewer).Numbered := by
  refine ⟨h.places,?_,?_,h.announces,?_⟩
  · intro v hv
    rcases List.mem_append.mp hv with hv | hv
    · exact h.snapshots v hv
    · rw [List.mem_singleton.mp hv]
      exact List.prefix_refl _
  · intro v hv m hm
    rcases List.mem_append.mp hv with hv | hv
    · exact h.updates v hv m hm
    · rw [List.mem_singleton.mp hv] at hm
      exact absurd hm List.not_mem_nil
  · intro v hv hsub
    rcases List.mem_append.mp hv with hv | hv
    · exact h.unsubscribed v hv hsub
    · rw [List.mem_singleton.mp hv]

theorem Numbered.disconnect (h : s.Numbered) (viewer : ℕ) : (s.disconnect viewer).Numbered where
  places := h.places
  snapshots v hv := h.snapshots v (List.mem_of_mem_filter hv)
  updates v hv := h.updates v (List.mem_of_mem_filter hv)
  announces := h.announces
  unsubscribed v hv := h.unsubscribed v (List.mem_of_mem_filter hv)

theorem Numbered.announce (h : s.Numbered) {a : Announcement} (ha : a ∈ s.announcing) :
    (s.announce a).Numbered := by
  have hmem : a.message ∈ s.messages := h.announces _ (List.mem_map_of_mem ha)
  have hbase : ({ s with announcing := s.announcing.erase a } : AgentState).Numbered := by
    refine ⟨h.places,h.snapshots,h.updates,?_,h.unsubscribed⟩
    intro m hm
    obtain ⟨b,hb,rfl⟩ := List.mem_map.mp hm
    exact h.announces _ (List.mem_map_of_mem (List.mem_of_mem_erase hb))
  refine Numbered.send (Numbered.send (Numbered.send hbase ?_) ?_) ?_
  · simp [AgentMessage.shows]
  · intro m hm
    rw [List.mem_singleton.mp hm]
    exact hmem
  · simp [AgentMessage.shows]

theorem Numbered.userInput (h : s.Numbered) (viewer : ℕ) (content : String) :
    (s.userInput viewer content).Numbered := by
  refine h.add rfl rfl ?_
  intro m hm
  rw [announced,AgentState.userInput,List.map_append] at hm
  rcases List.mem_append.mp hm with hm | hm
  · exact .inl hm
  · rw [List.mem_singleton.mp hm]
    exact .inr (List.mem_append_right _ (List.mem_singleton_self _))

theorem Numbered.beginQueued (h : s.Numbered) (m : QueuedMessage) (content : String) :
    (s.beginQueued m content).Numbered := by
  unfold AgentState.beginQueued sendStatus
  refine Numbered.send ?_ (by simp [AgentMessage.shows])
  exact h.add rfl rfl (fun k hk => .inl hk)

theorem Numbered.queueMessage (h : s.Numbered) (content : String) :
    (s.queueMessage content).Numbered := by
  unfold AgentState.queueMessage
  split
  · next q _ =>
    have hbase : ({ s with messageQueue := q, nextQueued := s.nextQueued + 1 } :
        AgentState).Numbered := h.same rfl rfl rfl
    exact hbase.send (by simp [AgentMessage.shows])
  · exact h.send (by simp [AgentMessage.shows])

theorem Numbered.popQueued (h : s.Numbered) : s.popQueued.Numbered := by
  unfold AgentState.popQueued
  split <;> exact h.same rfl rfl rfl

theorem AgentMessage.shows_ofTurn {update : AgentMessage} (h : update.ofTurn = true) :
    update.shows = [] := by
  cases update <;> first | rfl | cases h

theorem Numbered.next (h : s.Numbered) {e : Event} (he : s.Enabled e) : (s.next e).Numbered := by
  cases e with
  | attach viewer => exact h.attach viewer
  | subscribe viewer => exact h.subscribe viewer
  | disconnect viewer => exact h.disconnect viewer
  | userInput viewer content => exact h.userInput viewer content
  | announce a => exact h.announce he
  | cancel viewer =>
    have hbase : ({ s with isBusy := false, status := "Cancelled" } : AgentState).Numbered :=
      h.same rfl rfl rfl
    exact hbase.send (by simp [AgentMessage.shows])
  | syncRequest viewer =>
    have hsync : (s.send s.createSyncMessage).Numbered := h.send (fun m hm => hm)
    exact hsync.send (by simp [AgentMessage.shows])
  | queueMessage viewer content => exact h.queueMessage content
  | startPending =>
    change s.startPending.Numbered
    unfold AgentState.startPending sendStatus
    refine Numbered.send ?_ (by simp [AgentMessage.shows])
    exact h.same rfl rfl rfl
  | stream turn update => exact h.send (by simp [AgentMessage.shows_ofTurn he.2])
  | turnEnds turn result =>
    obtain ⟨t,-,-,-,hnext⟩ := s.next_turnEnds he result
    rw [hnext]
    refine Numbered.finish ?_ t result
    exact h.same rfl rfl rfl
  | turnDies turn => exact h.same rfl rfl rfl
  | popQueued => exact h.popQueued
  | beginQueued m content => exact h.beginQueued m content
  | drainDies m => exact h.same rfl rfl rfl

/-! ## What viewers miss -/

theorem MissesOnly.send {ms : List DisplayMessage} (h : s.MissesOnly ms) (update : AgentMessage) :
    (s.send update).MissesOnly ms := by
  intro v hv hsub m hm
  obtain ⟨w,hw,rfl⟩ := List.mem_map.mp hv
  rw [Viewer.receive_subscribed] at hsub
  rcases h w hw hsub m hm with h | h
  · exact .inl ((Viewer.mem_seen_receive update hsub).mpr (.inl h))
  · exact .inr h

/-- A broadcast makes up for what it shows. -/
theorem MissesOnly.shown {ms : List DisplayMessage} (h : s.MissesOnly ms) {update : AgentMessage}
    (hms : ∀ m ∈ ms, m ∈ update.shows) : (s.send update).Gapless := by
  intro v hv hsub m hm
  obtain ⟨w,hw,rfl⟩ := List.mem_map.mp hv
  rw [Viewer.receive_subscribed] at hsub
  rcases h w hw hsub m hm with h | h | h
  · exact .inl ((Viewer.mem_seen_receive update hsub).mpr (.inl h))
  · exact .inr h
  · exact .inl ((Viewer.mem_seen_receive update hsub).mpr (.inr (hms m h)))

theorem Gapless.send (h : s.Gapless) (update : AgentMessage) : (s.send update).Gapless :=
  gapless_iff.mpr ((gapless_iff.mp h).send update)

theorem Gapless.add (h : s.Gapless) {t : AgentState} {role content : String}
    (hmessages : t.messages = s.messages ++ [⟨s.messages.length,role,content⟩])
    (hviewers : t.viewers = s.viewers) (hannounced : ∀ m ∈ s.announced, m ∈ t.announced) :
    t.MissesOnly [⟨s.messages.length,role,content⟩] := by
  intro v hv hsub m hm
  rw [hviewers] at hv
  rw [hmessages] at hm
  rcases List.mem_append.mp hm with hm | hm
  · rcases h v hv hsub m hm with h | h
    · exact .inl h
    · exact .inr (.inl (hannounced m h))
  · exact .inr (.inr hm)

theorem Gapless.reply (h : s.Gapless) (t : Turn) (response : String) :
    (s.reply t response).Gapless := by
  have hadd : ({ s.addAssistantMessage t.id response with
      isBusy := false, status := "Ready - Model: " ++ t.model } : AgentState).MissesOnly
        [⟨s.messages.length,"assistant",response⟩] := h.add rfl rfl (fun m hm => hm)
  have hlast : (s.addAssistantMessage t.id response).messages.getLast? =
      some ⟨s.messages.length,"assistant",response⟩ := List.getLast?_concat
  unfold AgentState.reply sendLast sendStatus
  refine Gapless.send ?_ _
  simp only [hlast]
  exact hadd.shown (fun m hm => hm)

theorem Gapless.announce (h : s.Gapless) (a : Announcement) : (s.announce a).Gapless := by
  have herase : ({ s with announcing := s.announcing.erase a } : AgentState).MissesOnly
      [a.message] := by
    intro v hv hsub m hm
    rcases h v hv hsub m hm with h | h
    · exact .inl h
    · obtain ⟨b,hb,rfl⟩ := List.mem_map.mp h
      by_cases hba : b = a
      · rw [hba]
        exact .inr (.inr (List.mem_singleton_self _))
      · exact .inr (.inl (List.mem_map_of_mem ((List.mem_erase_of_ne hba).mpr hb)))
  refine Gapless.send (MissesOnly.shown (herase.send (.ack "user_input")) ?_) _
  intro m hm
  exact hm

theorem Gapless.finish (h : s.Gapless) (t : Turn) (result : Except String String) :
    (s.finish t result).Gapless := by
  cases result with
  | ok response =>
    rw [finish_ok_eq]
    exact h.reply t response
  | error e =>
    unfold AgentState.finish
    have hreport : ∀ (t : AgentState) (status : String), t.Gapless → (t.report status e).Gapless := by
      intro t status ht
      have hbase : ({ t with isBusy := false, status } : AgentState).Gapless := ht
      exact (hbase.send _).send _
    cases t.kind with
    | input => exact hreport _ _ h
    | pending => exact h
    | queued m => exact hreport _ _ h

/-- After subscribing a viewer has its snapshot, and what is still to be broadcast. -/
theorem subscribe_gapless_iff (hn : s.Numbered) (h : s.Gapless) (viewer : ℕ) :
    (s.subscribe viewer).Gapless ↔ s.AttachesInTime (.subscribe viewer) := by
  constructor
  · intro hg v hv hid hsub m hm
    have hmem : ({ v with subscribed := true } : Viewer) ∈ (s.subscribe viewer).viewers := by
      refine List.mem_map.mpr ⟨v,hv,?_⟩
      rw [if_pos hid]
    rcases hg _ hmem rfl m (List.mem_of_mem_drop hm) with hseen | hannounced
    · rw [Viewer.seen,hn.unsubscribed v hv hsub,List.flatMap_nil,List.append_nil] at hseen
      exact absurd hseen (hn.not_mem_snapshot hv hm)
    · exact hannounced
  · intro hc v hv hsub m hm
    obtain ⟨w,hw,rfl⟩ := List.mem_map.mp hv
    have hseen : ∀ {v : Viewer}, (if v.id = viewer then { v with subscribed := true } else v).seen =
        v.seen := by
      intro v
      split <;> rfl
    rw [hseen]
    cases hwsub : w.subscribed with
    | true => exact h w hw hwsub m hm
    | false =>
      have hid : w.id = viewer := by
        by_contra hid
        rw [if_neg hid,hwsub] at hsub
        cases hsub
      obtain ⟨later,hlater⟩ := hn.snapshots w hw
      change m ∈ s.messages at hm
      rw [← hlater] at hm
      rcases List.mem_append.mp hm with hm | hm
      · exact .inl (List.mem_append_left _ hm)
      · refine .inr (hc w hw hid hwsub m ?_)
        rw [← hlater,List.drop_left]
        exact hm

/-- A queued message is in the conversation, and no viewer that listens already has it. -/
theorem beginQueued_gapless_iff (hn : s.Numbered) (m : QueuedMessage) (content : String) :
    (s.beginQueued m content).Gapless ↔ s.AttachesInTime (.beginQueued m content) := by
  constructor
  · intro hg v hv
    rw [← Bool.not_eq_true]
    intro hsub
    have hmem : v.receive (.statusUpdate "Processing queued message...") ∈
        (s.beginQueued m content).viewers := List.mem_map_of_mem hv
    have hadded : (⟨s.messages.length,"user",content⟩ : DisplayMessage) ∈
        (s.beginQueued m content).messages := List.mem_append_right _ (List.mem_singleton_self _)
    rcases hg _ hmem (by rwa [Viewer.receive_subscribed]) _ hadded with hseen | hannounced
    · rw [Viewer.mem_seen_receive _ hsub] at hseen
      rcases hseen with hseen | hseen
      · exact hn.fresh _ _ (hn.seen hv hseen)
      · exact absurd hseen List.not_mem_nil
    · exact hn.fresh _ _ (hn.announces _ hannounced)
  · intro hc v hv hsub
    obtain ⟨w,hw,rfl⟩ := List.mem_map.mp hv
    rw [Viewer.receive_subscribed,hc w hw] at hsub
    cases hsub

theorem gapless_next_iff (hn : s.Numbered) (h : s.Gapless) {e : Event} (he : s.Enabled e) :
    (s.next e).Gapless ↔ s.AttachesInTime e := by
  cases e with
  | subscribe viewer => exact subscribe_gapless_iff hn h viewer
  | beginQueued m content => exact beginQueued_gapless_iff hn m content
  | attach viewer =>
    refine iff_of_true ?_ trivial
    intro v hv hsub
    rcases List.mem_append.mp hv with hv | hv
    · exact h v hv hsub
    · rw [List.mem_singleton.mp hv] at hsub
      cases hsub
  | disconnect viewer =>
    exact iff_of_true (fun v hv => h v (List.mem_of_mem_filter hv)) trivial
  | userInput viewer content =>
    refine iff_of_true ?_ trivial
    have hannounced : (s.userInput viewer content).announced =
        s.announced ++ [⟨s.messages.length,"user",content⟩] := List.map_append
    have hadd := h.add (t := s.userInput viewer content) rfl rfl (by
      intro m hm
      rw [hannounced]
      exact List.mem_append_left _ hm)
    intro v hv hsub m hm
    rcases hadd v hv hsub m hm with hm | hm | hm
    · exact .inl hm
    · exact .inr hm
    · right
      change m ∈ (s.userInput viewer content).announced
      rw [hannounced]
      exact List.mem_append_right _ hm
  | announce a => exact iff_of_true (h.announce a) trivial
  | cancel viewer =>
    have hbase : ({ s with isBusy := false, status := "Cancelled" } : AgentState).Gapless := h
    exact iff_of_true (hbase.send _) trivial
  | syncRequest viewer => exact iff_of_true ((h.send _).send _) trivial
  | queueMessage viewer content =>
    refine iff_of_true ?_ trivial
    change (s.queueMessage content).Gapless
    unfold AgentState.queueMessage
    split
    · next q _ =>
      have hbase : ({ s with messageQueue := q, nextQueued := s.nextQueued + 1 } :
          AgentState).Gapless := h
      exact hbase.send _
    · exact h.send _
  | startPending =>
    refine iff_of_true ?_ trivial
    change s.startPending.Gapless
    unfold AgentState.startPending sendStatus
    exact Gapless.send h _
  | stream turn update => exact iff_of_true (h.send update) trivial
  | turnEnds turn result =>
    obtain ⟨t,-,-,-,hnext⟩ := s.next_turnEnds he result
    rw [hnext]
    have hleave : (s.leave turn).Gapless := h
    exact iff_of_true (hleave.finish t result) trivial
  | turnDies turn => exact iff_of_true h trivial
  | popQueued =>
    refine iff_of_true ?_ trivial
    change s.popQueued.Gapless
    unfold AgentState.popQueued
    split <;> exact h
  | drainDies m => exact iff_of_true h trivial

theorem numbered_new (model systemPrompt : String) (stored : List (String × String)) :
    (new model systemPrompt stored).Numbered := by
  refine ⟨?_,?_,?_,?_,?_⟩
  · simp [new,Function.comp_def,List.zipIdx_map_snd,List.range_eq_range']
  all_goals simp [new,announced]

end AgentState

/-- Over a run no viewer misses a message exactly when each one attaches in time. -/
theorem run_gapless_iff {model systemPrompt : String} {stored : List (String × String)}
    {es : List Event} (hr : conversation.Run (.new model systemPrompt stored) es) :
    (∀ p ∈ conversation.trail (.new model systemPrompt stored) es, (p.1.next p.2).Gapless) ↔
      ∀ p ∈ conversation.trail (.new model systemPrompt stored) es, p.1.AttachesInTime p.2 := by
  refine hr.forall_good_iff (I := AgentState.Numbered) (G := AgentState.Gapless) ?_ ?_ ?_ ?_
  · intro s e h he
    exact h.next he
  · intro s e hn h he
    exact AgentState.gapless_next_iff hn h he
  · exact AgentState.numbered_new model systemPrompt stored
  · intro v hv
    exact absurd hv List.not_mem_nil

/-- A second viewer attaches while the first one's input is in progress. -/
def secondViewerRun : List Event :=
  [.attach 0,.subscribe 0,.userInput 0 "Hello.",.announce ⟨0,0,⟨0,"user","Hello."⟩⟩,.attach 1,
    .subscribe 1,.turnEnds 0 (.ok "Hello, what can I do?")]

theorem secondViewerRun_gapless : conversation.Run (.new "gemma" "" []) secondViewerRun ∧
    ∀ p ∈ conversation.trail (.new "gemma" "" []) secondViewerRun, (p.1.next p.2).Gapless :=
  ⟨by decide,(run_gapless_iff (by decide)).mpr (by decide)⟩

/-- The turn ends between the snapshot and the subscription of the second viewer. -/
def lostReplyRun : List Event :=
  [.attach 0,.subscribe 0,.userInput 0 "Hello.",.announce ⟨0,0,⟨0,"user","Hello."⟩⟩,.attach 1,
    .turnEnds 0 (.ok "Hello, what can I do?"),.subscribe 1]

theorem lostReplyRun_gap :
    ¬ ∀ es, conversation.Run (.new "gemma" "" []) es →
      ∀ p ∈ conversation.trail (.new "gemma" "" []) es, (p.1.next p.2).Gapless := by
  intro h
  have hlast : (conversation.exec (.new "gemma" "" []) (lostReplyRun.take 6),.subscribe 1) ∈
      conversation.trail (.new "gemma" "" []) lostReplyRun :=
    .tail _ (.tail _ (.tail _ (.tail _ (.tail _ (.tail _ (.head _))))))
  have hseen := h lostReplyRun (by decide) _ hlast ⟨1,[⟨0,"user","Hello."⟩],true,[]⟩
    (.tail _ (.head _)) rfl ⟨1,"assistant","Hello, what can I do?"⟩ (by decide)
  exact absurd hseen (by decide)

end Rullama.Agent
