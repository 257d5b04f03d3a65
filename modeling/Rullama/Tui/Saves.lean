import Rullama.Tui.SessionManagement
import Mathlib.Data.List.Infix
import Mathlib.Tactic.Common

/-! # What a save leaves in the store

As long as the stored messages are the first of the displayed ones, before the reply that
is streamed, their count says which are left to save.
-/
namespace Rullama.Tui
open PlanMode (byteSlice isCharBoundary byteSlice_isSome)
open Transition (Machine)

/-! ## Adding one by one -/

/-- No add succeeds after one that failed. -/
def NoGap (added : ℕ → Bool) (n : ℕ) : Prop :=
  ∀ i j, i < j → j < n → added j = true → added i = true

instance (added : ℕ → Bool) (n : ℕ) : Decidable (NoGap added n) :=
  decidable_of_iff (∀ j < n, ∀ i < j, added j = true → added i = true)
    ⟨fun h i j hij hj => h j hj i hij,fun h j hj i hij => h i j hij hj⟩

theorem addAll_all {ms : List TuiMessage} {added : ℕ → Bool} (stored : List TuiMessage)
    (h : ∀ i < ms.length, added i = true) : addAll added stored ms = stored ++ ms := by
  induction ms generalizing added stored with
  | nil => simp [addAll]
  | cons m ms ih =>
    have hrest : ∀ i < ms.length, added (i + 1) = true := fun i hi => h (i + 1) (by simpa using hi)
    rw [addAll,if_pos (h 0 (by simp)),ih _ hrest,List.append_assoc,List.singleton_append]

theorem addAll_none {ms : List TuiMessage} {added : ℕ → Bool} (stored : List TuiMessage)
    (h : ∀ i < ms.length, added i = false) : addAll added stored ms = stored := by
  induction ms generalizing added stored with
  | nil => simp [addAll]
  | cons m ms ih =>
    have hrest : ∀ i < ms.length, added (i + 1) = false := fun i hi => h (i + 1) (by simpa using hi)
    rw [addAll,if_neg (by simp [h 0]),ih _ hrest]

theorem addAll_of_noGap {ms : List TuiMessage} {added : ℕ → Bool} (stored : List TuiMessage)
    (h : NoGap added ms.length) : ∃ n, addAll added stored ms = stored ++ ms.take n := by
  induction ms generalizing added stored with
  | nil => exact ⟨0,by simp [addAll]⟩
  | cons m ms ih =>
    cases hfirst : added 0 with
    | true =>
      have hrest : NoGap (fun i => added (i + 1)) ms.length := by
        intro i j hij hj
        exact h (i + 1) (j + 1) (by omega) (by simpa using hj)
      obtain ⟨n,hn⟩ := ih (stored ++ [m]) hrest
      refine ⟨n + 1,?_⟩
      rw [addAll,if_pos hfirst,hn,List.take_succ_cons,List.append_assoc,List.singleton_append]
    | false =>
      have hnone : ∀ i < (m :: ms).length, added i = false := by
        intro i hi
        by_contra hadded
        have hpos : 0 < i := Nat.pos_of_ne_zero (fun h0 => hadded (h0 ▸ hfirst))
        have := h 0 i hpos hi (by simpa using hadded)
        rw [hfirst] at this
        cases this
      exact ⟨0,by rw [addAll_none stored hnone]; simp⟩

/-! ## What there is to save -/

theorem zipIdx_filter_ne (ms : List TuiMessage) (start i : ℕ) :
    ((ms.zipIdx start).filter (fun p => some (start + i) ≠ some p.2)).map Prod.fst =
      ms.eraseIdx i := by
  induction ms generalizing start i with
  | nil => simp
  | cons m ms ih =>
    cases i with
    | zero =>
      have hrest : (ms.zipIdx (start + 1)).filter (fun p => some (start + 0) ≠ some p.2) =
          ms.zipIdx (start + 1) := by
        refine List.filter_eq_self.mpr (fun p hp => ?_)
        have := List.le_snd_of_mem_zipIdx hp
        simp only [ne_eq,Option.some.injEq,decide_not,Bool.not_eq_eq_eq_not,Bool.not_true,
          decide_eq_false_iff_not]
        omega
      rw [List.zipIdx_cons,List.filter_cons_of_neg (by simp),hrest,List.zipIdx_map_fst,
        List.eraseIdx_cons_zero]
    | succ i =>
      have hshift : start + (i + 1) = start + 1 + i := by omega
      rw [List.zipIdx_cons,List.filter_cons_of_pos (by simp),List.map_cons,hshift,
        ih (start + 1) i,List.eraseIdx_cons_succ]

namespace App
variable {s : App}

/-- What a save is to leave: the displayed messages, but for a reply that is streamed. -/
def shown (s : App) : List TuiMessage :=
  match s.streamingMsgIdx with
  | none => s.messages
  | some idx => s.messages.eraseIdx idx

/-- The displayed messages before the reply that is streamed. -/
def settled (s : App) : List TuiMessage :=
  match s.streamingMsgIdx with
  | none => s.messages
  | some idx => s.messages.take idx

theorem settled_isPrefix (s : App) : s.settled <+: s.messages := by
  unfold settled
  cases s.streamingMsgIdx with
  | none => exact List.prefix_rfl
  | some idx => exact List.take_prefix idx _

/-- The stored messages and those to save make up what is shown. -/
theorem append_messagesToSave {stored : List TuiMessage} (h : stored <+: s.settled) :
    stored ++ s.messagesToSave stored.length = s.shown := by
  obtain ⟨rest,hrest⟩ := h.trans s.settled_isPrefix
  have hdrop : s.messages.zipIdx.drop stored.length = rest.zipIdx stored.length := by
    rw [← hrest,List.zipIdx_append,Nat.zero_add]
    exact List.drop_left' List.length_zipIdx
  unfold messagesToSave shown
  rw [hdrop,← hrest]
  unfold settled at h
  cases hidx : s.streamingMsgIdx with
  | none =>
    have hall : ∀ l : List (TuiMessage × ℕ),
        l.filter (fun p => (none : Option ℕ) ≠ some p.2) = l := by simp
    rw [hall,List.zipIdx_map_fst]
  | some idx =>
    rw [hidx] at h
    have hle : stored.length ≤ idx := h.length_le.trans (List.length_take_le _ _)
    obtain ⟨i,rfl⟩ := Nat.exists_eq_add_of_le hle
    rw [zipIdx_filter_ne rest stored.length i]
    dsimp only
    rw [List.eraseIdx_append_of_length_le (Nat.le_add_right _ _),Nat.add_sub_cancel_left]

/-! ## The invariant -/

/-- The stored messages of the session are the first displayed ones, up to the reply that
is streamed at the most, and the session has an id that a status line can show. -/
structure Consistent (s : App) : Prop where
  isPrefix : s.stored s.sessionId <+: s.settled
  labelled : (byteSlice s.sessionId.toList (min 8 s.sessionId.utf8ByteSize)).isSome

theorem settled_append (m : TuiMessage) : s.settled <+: (s.appendMessage m).settled := by
  unfold settled appendMessage
  dsimp only
  cases s.streamingMsgIdx with
  | none => exact List.prefix_append _ _
  | some idx => exact List.IsPrefix.take (List.prefix_append _ _) idx

theorem settled_isPrefix_setStreaming (s : App) (content : String) :
    s.settled <+: s.setStreaming content := by
  unfold settled setStreaming
  cases s.streamingMsgIdx with
  | none => exact List.prefix_rfl
  | some idx =>
    have htake : (s.messages.modify idx (fun m => { m with content })).take idx =
        s.messages.take idx := by
      rw [List.take_modify,List.modify_eq_self (List.length_take_le _ _)]
    dsimp only
    rw [← htake]
    exact List.take_prefix idx _

theorem settled_streamText (text : String) : (s.streamText text).settled = s.settled := by
  unfold settled streamText setStreaming
  cases hidx : s.streamingMsgIdx with
  | none => rfl
  | some idx =>
    dsimp only
    rw [List.take_modify,List.modify_eq_self (List.length_take_le _ _)]

theorem addToSession_self (added : ℕ → Bool) (ms : List TuiMessage) :
    s.addToSession added ms s.sessionId = addAll added (s.stored s.sessionId) ms :=
  Function.update_self _ _ _

/-- The exchange that the end of a reply stores comes next after what is stored. -/
def ExchangeNext (s : App) (now : ℤ) : Prop :=
  ∃ k shown, s.streamingMsgIdx = some (k + 1) ∧ s.stored s.sessionId = s.messages.take k ∧
    s.messages[k]? = some ⟨"user",s.streamingUserContent.getD "",now⟩ ∧
    s.messages[k + 1]? = some ⟨"assistant",shown,now⟩

/-- The title can be cut where the first message is long. -/
def Titled (s : App) : Prop :=
  ∀ m ∈ s.messages.head?, 50 < m.content.utf8ByteSize →
    isCharBoundary m.content.toList 47 = true

/-- The steps that keep the count of the stored messages meaningful. -/
def Orderly (s : App) : SessionEvent → Prop
  | .finalizeStream cleanContent now added =>
      cleanContent = "" ∨ (added 0 = false ∧ added 1 = false) ∨
        added 0 = true ∧ s.ExchangeNext now
  | .forceSave reads added =>
      s.Titled ∧ (reads = true ∨ s.stored s.sessionId = []) ∧
        NoGap added (s.messagesToSave (s.existingCount reads)).length ∧
        ∀ idx, s.streamingMsgIdx = some idx → s.messages.length ≤ idx + 1
  | .load _ reads => reads = true → s.streamingMsgIdx = none
  | _ => True

/-- A save does not panic. When all its adds succeed, the store has what is shown, and a
load of the session brings it back. -/
def Saved (s : App) : SessionEvent → Prop
  | .forceSave reads added => ∃ t, s.forceSaveConversation reads added = some t ∧
      ((∀ i < (s.messagesToSave (s.existingCount reads)).length, added i = true) →
        t.stored s.sessionId = s.shown ∧
        ∃ r, t.loadSession s.sessionId true = some r ∧ r.messages = s.shown)
  | _ => True

theorem title_isSome_iff : (title s.messages).isSome = true ↔ s.Titled := by
  unfold title Titled
  cases s.messages with
  | nil => simp
  | cons m ms =>
    by_cases hlong : 50 < m.content.utf8ByteSize
    · simp [hlong,byteSlice_isSome]
    · simp [hlong]

theorem loadSession_eq (h : (byteSlice s.sessionId.toList (min 8 s.sessionId.utf8ByteSize)).isSome)
    (stored : String → List TuiMessage) :
    ∃ r, { s with stored }.loadSession s.sessionId true = some r ∧
      r.messages = stored s.sessionId := by
  obtain ⟨cs,hcs⟩ := Option.isSome_iff_exists.mp h
  unfold loadSession
  dsimp only
  rw [if_pos rfl,hcs]
  exact ⟨_,rfl,rfl⟩

theorem existingCount_of {reads : Bool} (h : reads = true ∨ s.stored s.sessionId = []) :
    s.existingCount reads = (s.stored s.sessionId).length := by
  unfold existingCount
  cases h with
  | inl h => rw [if_pos h]
  | inr h => simp [h]

/-- What a save does when its title can be cut. -/
theorem forceSave_eq (htitle : s.Titled) (reads : Bool) (added : ℕ → Bool) :
    s.forceSaveConversation reads added = some { s with
      stored := s.addToSession added (s.messagesToSave (s.existingCount reads)) } := by
  unfold forceSaveConversation
  by_cases hempty : s.messages = []
  · have hsave : s.messagesToSave (s.existingCount reads) = [] := by
      simp [messagesToSave,hempty]
    rw [if_pos hempty,hsave,addToSession,addAll,Function.update_eq_self]
  · rw [if_neg hempty]
    obtain ⟨text,htext⟩ := Option.isSome_iff_exists.mp (title_isSome_iff.mpr htitle)
    rw [htext]

theorem Consistent.saved (h : s.Consistent) {e : SessionEvent} (ho : s.Orderly e) :
    s.Saved e := by
  cases e with
  | forceSave reads added =>
    obtain ⟨htitle,hreads,_,_⟩ := ho
    refine ⟨_,forceSave_eq htitle reads added,fun hall => ?_⟩
    have hstored : s.addToSession added (s.messagesToSave (s.existingCount reads)) s.sessionId =
        s.shown := by
      rw [addToSession_self,addAll_all _ hall,existingCount_of hreads]
      exact append_messagesToSave h.isPrefix
    refine ⟨hstored,?_⟩
    obtain ⟨r,hr,hmessages⟩ := loadSession_eq h.labelled
      (s.addToSession added (s.messagesToSave (s.existingCount reads)))
    exact ⟨r,hr,hmessages.trans hstored⟩
  | _ => exact trivial

/-! ## One step -/

theorem shown_eq_settled (h : ∀ idx, s.streamingMsgIdx = some idx → s.messages.length ≤ idx + 1) :
    s.shown = s.settled := by
  unfold shown settled
  cases hidx : s.streamingMsgIdx with
  | none => rfl
  | some idx =>
    dsimp only
    rw [List.eraseIdx_eq_take_drop_succ,List.drop_eq_nil_of_le (h idx hidx),List.append_nil]

theorem Consistent.forceSave (h : s.Consistent) {reads : Bool} {added : ℕ → Bool}
    (ho : s.Orderly (.forceSave reads added)) : (s.next (.forceSave reads added)).Consistent := by
  obtain ⟨htitle,hreads,hgap,hlast⟩ := ho
  simp only [next,forceSave_eq htitle,Option.getD_some]
  refine ⟨?_,h.labelled⟩
  change s.addToSession added _ s.sessionId <+: s.settled
  obtain ⟨n,hn⟩ := addAll_of_noGap (s.stored s.sessionId) hgap
  rw [addToSession_self,hn,← shown_eq_settled hlast,← append_messagesToSave h.isPrefix,
    existingCount_of hreads]
  exact (List.prefix_append_right_inj _).mpr (List.take_prefix n _)

theorem exchangeNext_isPrefix {now : ℤ} (h : s.ExchangeNext now) (cleanContent : String) :
    s.stored s.sessionId ++
      [⟨"user",s.streamingUserContent.getD "",now⟩,⟨"assistant",cleanContent,now⟩] <+:
        s.setStreaming cleanContent := by
  obtain ⟨k,shown,hidx,hstored,huser,hreply⟩ := h
  obtain ⟨hk,huser⟩ := List.getElem?_eq_some_iff.mp huser
  obtain ⟨hk',hreply⟩ := List.getElem?_eq_some_iff.mp hreply
  refine ⟨s.messages.drop (k + 1 + 1),?_⟩
  unfold setStreaming
  rw [hidx,hstored]
  dsimp only
  rw [List.modify_eq_take_cons_drop hk',hreply,List.take_succ_eq_append_getElem hk,huser]
  simp

theorem Consistent.finalizeStream (h : s.Consistent) {cleanContent : String} {now : ℤ}
    {added : ℕ → Bool} (ho : s.Orderly (.finalizeStream cleanContent now added)) :
    (s.finalizeStream cleanContent now added).Consistent := by
  refine ⟨?_,h.labelled⟩
  change s.addToSession added (exchange _ cleanContent now) s.sessionId <+:
    s.setStreaming cleanContent
  have hkept := h.isPrefix.trans (s.settled_isPrefix_setStreaming cleanContent)
  rw [addToSession_self]
  by_cases hempty : cleanContent = ""
  · rw [exchange,if_pos hempty,addAll]
    exact hkept
  · rcases ho with ho | ⟨hfirst,hsecond⟩ | ⟨hfirst,hnext⟩
    · exact absurd ho hempty
    · rw [exchange,if_neg hempty,addAll,addAll,addAll,hfirst,hsecond]
      exact hkept
    · refine List.IsPrefix.trans ?_ (exchangeNext_isPrefix hnext cleanContent)
      rw [exchange,if_neg hempty,addAll,addAll,addAll,if_pos hfirst]
      cases added 1 with
      | false => exact ⟨[⟨"assistant",cleanContent,now⟩],by simp⟩
      | true => exact ⟨[],by simp⟩

theorem Consistent.load (h : s.Consistent) {conversationId : String} {reads : Bool}
    (ho : s.Orderly (.load conversationId reads)) :
    (s.next (.load conversationId reads)).Consistent := by
  simp only [next,loadSession]
  cases hreads : reads with
  | false => exact h
  | true =>
    cases hlabel : byteSlice conversationId.toList (min 8 conversationId.utf8ByteSize) with
    | none => exact h
    | some cs =>
      refine ⟨?_,Option.isSome_iff_exists.mpr ⟨cs,hlabel⟩⟩
      simp only [if_true,Option.getD_some,settled,ho hreads]
      exact List.prefix_rfl

theorem Consistent.next (h : s.Consistent) {e : SessionEvent} (ho : s.Orderly e) :
    (s.next e).Consistent := by
  cases e with
  | append m => exact ⟨h.isPrefix.trans (settled_append m),h.labelled⟩
  | startReply userContent now =>
    refine ⟨h.isPrefix.trans (s.settled_isPrefix.trans ?_),h.labelled⟩
    simp [settled,App.next,startReply]
  | streamText text => exact ⟨h.isPrefix.trans (settled_streamText text ▸ List.prefix_rfl),h.labelled⟩
  | streamEnd => exact ⟨h.isPrefix.trans s.settled_isPrefix,h.labelled⟩
  | cancelReply => exact ⟨h.isPrefix.trans s.settled_isPrefix,h.labelled⟩
  | finalizeStream cleanContent now added => exact h.finalizeStream ho
  | forceSave reads added => exact h.forceSave ho
  | load conversationId reads => exact h.load ho

/-- A session that has just been opened, with nothing displayed and nothing stored. -/
structure Fresh (s : App) : Prop where
  messages : s.messages = []
  streamingMsgIdx : s.streamingMsgIdx = none
  stored : s.stored s.sessionId = []
  labelled : (byteSlice s.sessionId.toList (min 8 s.sessionId.utf8ByteSize)).isSome

theorem Fresh.consistent (h : s.Fresh) : s.Consistent :=
  ⟨h.stored ▸ List.nil_prefix,h.labelled⟩

end App

/-- In a run of orderly steps every save leaves in the store what is shown. -/
theorem run_saved {s : App} (h : s.Fresh) {es : List SessionEvent} (hr : sessions.Run s es)
    (ho : ∀ p ∈ sessions.trail s es, p.1.Orderly p.2) :
    ∀ p ∈ sessions.trail s es, p.1.Saved p.2 := by
  intro p hp
  have hconsistent := hr.mem_trail_of (I := App.Consistent) (C := App.Orderly)
    (fun s e hs _ he => hs.next he) h.consistent ho hp
  exact hconsistent.1.saved (ho p hp)

/-! ## Two runs -/

def freshApp : App := { sessionId := "main" }

theorem freshApp_fresh : freshApp.Fresh := ⟨rfl,rfl,rfl,by decide⟩

def question : TuiMessage := ⟨"user","What is a heap?",0⟩

/-- A reply is saved around: once while it is streamed, once when it has ended. -/
def savedTwice : List SessionEvent :=
  [.append question,.startReply none 1,.streamText "A tree",.forceSave true (fun _ => true),
    .streamEnd,.forceSave true (fun _ => true),.load "main" true]

theorem savedTwice_saved :
    sessions.Run freshApp savedTwice ∧
      ∀ p ∈ sessions.trail freshApp savedTwice, p.1.Saved p.2 := by
  have hrun : sessions.Run freshApp savedTwice :=
    ⟨trivial,trivial,trivial,trivial,trivial,trivial,trivial,trivial⟩
  refine ⟨hrun,run_saved freshApp_fresh hrun ?_⟩
  simp only [savedTwice,Machine.forall_trail_cons]
  refine ⟨trivial,trivial,trivial,?_,trivial,?_,fun _ => rfl,Machine.forall_trail_nil⟩
  · refine ⟨?_,.inl rfl,fun _ _ _ _ _ => rfl,?_⟩
    · rintro m ⟨⟩ hlong
      exact absurd hlong (by decide)
    · rintro idx ⟨⟩
      decide
  · refine ⟨?_,.inl rfl,fun _ _ _ _ _ => rfl,nofun⟩
    rintro m ⟨⟩ hlong
    exact absurd hlong (by decide)

/-- While a reply is streamed a status message is displayed below it and saved. -/
def savedBelow : List SessionEvent :=
  [.append question,.startReply none 1,.append ⟨"system","Session: main",2⟩,
    .forceSave true (fun _ => true),.streamText "A tree.",.streamEnd,
    .forceSave true (fun _ => true)]

theorem savedBelow_not_saved :
    ¬ ∀ es, sessions.Run freshApp es → ∀ p ∈ sessions.trail freshApp es, p.1.Saved p.2 := by
  intro h
  have hrun : sessions.Run freshApp savedBelow :=
    ⟨trivial,trivial,trivial,trivial,trivial,trivial,trivial,trivial⟩
  obtain ⟨t,ht,hall⟩ := h savedBelow hrun _
    (.tail _ (.tail _ (.tail _ (.tail _ (.tail _ (.tail _ (.head _)))))))
  cases Option.some.inj ht
  have hstored := (hall (fun _ _ => rfl)).1
  exact absurd hstored (by decide)

end Rullama.Tui
