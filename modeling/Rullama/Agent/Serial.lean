import Rullama.Agent.Conversation
import Rullama.Agent.Ledger

/-! # One turn at a time

Every input starts a turn of its own at once, whether or not another one is in progress,
and a turn that fails leaves nothing in the history. So turns are serial exactly as long as
none is started before all earlier ones have been replied to.
-/
namespace Rullama.Agent
open Transition

/-- The turn that the entry is the reply of, or the record of its failure. -/
def Entry.settles (e : Entry) : Option ℕ := if e.message.role = .user then none else e.turn

def settled (history : List Entry) : List ℕ := history.filterMap Entry.settles

namespace AgentState

/-- At most one turn is in progress, its history has the reply or the failure of every
earlier one, and the replies are in the order of their requests. -/
structure Serialised (s : AgentState) : Prop where
  alone : s.turns.length ≤ 1
  informed : ∀ t ∈ s.turns, ∀ j < t.id, j ∈ settled t.history
  ordered : (settled s.conversationHistory).Pairwise (· < ·)

/-- An input or a queued message starts its turn while no other is in progress, none has
failed and no pending request is waiting. -/
def StartsSettled (s : AgentState) : Event → Prop
  | .userInput _ _ | .beginQueued _ _ =>
    s.turns = [] ∧ s.failed = [] ∧ s.hasPendingRequest = false
  | _ => True

instance (s : AgentState) : ∀ e, Decidable (s.StartsSettled e)
  | .userInput _ _ | .beginQueued _ _ => inferInstanceAs (Decidable (_ ∧ _ ∧ _))
  | .attach _ | .subscribe _ | .disconnect _ | .announce _ | .cancel _ | .syncRequest _
  | .queueMessage _ _ | .startPending | .stream _ _ | .turnEnds _ _ | .turnDies _ | .popQueued
  | .drainDies _ => .isTrue trivial

def ledger (s : AgentState) : Ledger where
  answers := settled s.conversationHistory
  inProgress := s.turns.map (fun t => (t.id,settled t.history))
  failed := s.failed
  opened := s.nextTurn
  waiting := s.hasPendingRequest

theorem serial_ledger_iff {s : AgentState} : s.ledger.Serial ↔ s.Serialised := by
  constructor
  · intro h
    refine ⟨?_,?_,h.ordered⟩
    · have hlength := h.alone
      rwa [ledger,List.length_map] at hlength
    · intro t ht
      exact h.informed _ (List.mem_map_of_mem ht)
  · intro h
    refine ⟨?_,?_,h.ordered⟩
    · rw [ledger,List.length_map]
      exact h.alone
    · intro r hr
      obtain ⟨t,ht,rfl⟩ := List.mem_map.mp hr
      exact h.informed t ht

end AgentState

/-- What an event is on the ledger of turns. -/
def Event.onLedger : Event → Option LedgerEvent
  | .userInput _ _ | .beginQueued _ _ => some .open
  | .startPending => some .openWaiting
  | .turnEnds turn (.ok _) => some (.answer turn)
  | .turnEnds turn (.error _) | .turnDies turn => some (.fail turn)
  | _ => none

namespace AgentState
variable (s : AgentState)

@[simp] theorem settled_append (h h' : List Entry) : settled (h ++ h') = settled h ++ settled h' :=
  List.filterMap_append

@[simp] theorem settled_user (turn : Option ℕ) (content : String) :
    settled [⟨.user content,turn⟩] = [] := rfl

@[simp] theorem settled_assistant (turn : ℕ) (content : String) :
    settled [⟨.assistant content,some turn⟩] = [turn] := rfl

theorem ledger_start (content : String) (kind : TurnKind) (status : String) :
    ((s.addUserMessage s.nextTurn content).startTurn kind status).ledger = s.ledger.next .open := by
  simp [ledger,addUserMessage,startTurn,Ledger.next]

theorem ledger_queueMessage (content : String) : (s.queueMessage content).ledger = s.ledger := by
  unfold queueMessage
  split <;> rfl

theorem ledger_popQueued : s.popQueued.ledger = s.ledger := by
  unfold popQueued
  split <;> rfl

theorem ledger_startPending : s.startPending.ledger = s.ledger.next .openWaiting := by
  simp [startPending,ledger,sendStatus,send,Ledger.next]

theorem ledger_leave (turn : ℕ) : (s.leave turn).ledger =
    { s.ledger with inProgress := s.ledger.inProgress.eraseP (fun r => r.1 = turn) } := by
  simp [ledger,leave,List.eraseP_map,Function.comp_def]

theorem ledger_reply (t : Turn) (response : String) : (s.reply t response).ledger =
    { s.ledger with answers := s.ledger.answers ++ [t.id] } := by
  rw [reply_eq]
  simp [ledger,addAssistantMessage]

theorem ledger_finish_ok (t : Turn) (response : String) : (s.finish t (.ok response)).ledger =
    { s.ledger with answers := s.ledger.answers ++ [t.id] } := by
  rw [finish_ok_eq]
  exact s.ledger_reply t response

theorem ledger_finish_error (t : Turn) (error : String) : (s.finish t (.error error)).ledger =
    { s.ledger with failed := s.ledger.failed ++ [t.id] } := by
  unfold finish
  cases t.kind <;> rfl

variable {s}

theorem ledger_enabled {e : Event} (he : s.Enabled e) {l : LedgerEvent} (hl : e.onLedger = some l) :
    s.ledger.Enabled l := by
  cases e with
  | userInput | beginQueued =>
    cases hl
    trivial
  | startPending =>
    cases hl
    exact he
  | turnEnds turn result =>
    obtain ⟨⟨t,ht,hid⟩,-⟩ := he
    cases result <;> cases hl <;> exact ⟨_,List.mem_map_of_mem ht,hid⟩
  | turnDies turn =>
    obtain ⟨⟨t,ht,hid⟩,-⟩ := he
    cases hl
    exact ⟨_,List.mem_map_of_mem ht,hid⟩
  | _ => cases hl

theorem ledger_next {e : Event} (he : s.Enabled e) :
    (s.next e).ledger = (e.onLedger.elim s.ledger s.ledger.next) := by
  cases e with
  | userInput viewer content => exact s.ledger_start content .input "Streaming response..."
  | queueMessage viewer content => exact s.ledger_queueMessage content
  | startPending => exact s.ledger_startPending
  | turnEnds turn result =>
    obtain ⟨t,-,rfl,-,hnext⟩ := s.next_turnEnds he result
    rw [hnext]
    cases result with
    | ok response => rw [ledger_finish_ok,ledger_leave]; rfl
    | error e => rw [ledger_finish_error,ledger_leave]; rfl
  | turnDies turn =>
    change { (s.leave turn).ledger with failed := s.failed ++ [turn] } = _
    rw [ledger_leave]
    rfl
  | popQueued => exact s.ledger_popQueued
  | beginQueued m content =>
    let t := { s with popped := s.popped.erase m, given := s.given ++ [m.id] }
    exact t.ledger_start content (.queued m) "Processing queued message..."
  | _ => rfl

theorem ledger_new (model systemPrompt : String) (stored : List (String × String)) :
    (new model systemPrompt stored).ledger =
      ⟨[],[],[],if (new model systemPrompt stored).hasPendingRequest then 1 else 0,
        (new model systemPrompt stored).hasPendingRequest⟩ := by
  have hloaded : settled (stored.filterMap loadEntry) = [] := by
    apply List.filterMap_eq_nil_iff.mpr
    intro e he
    obtain ⟨m,-,hm⟩ := List.mem_filterMap.mp he
    unfold loadEntry at hm
    split at hm
    · cases hm
      rfl
    · split at hm <;> cases hm
      rfl
  simp only [ledger,new,decide_eq_true_eq]
  have hsystem : settled (⟨⟨.system,.text systemPrompt⟩,none⟩ :: stored.filterMap loadEntry) =
      settled (stored.filterMap loadEntry) := rfl
  rw [hsystem,hloaded]
  rfl

theorem startsSettled_iff {e : Event} :
    s.StartsSettled e ↔ ∀ l, e.onLedger = some l → s.ledger.OpensSettled l := by
  have hopen : s.ledger.OpensSettled .open ↔
      s.turns = [] ∧ s.failed = [] ∧ s.hasPendingRequest = false := by
    simp [Ledger.OpensSettled,ledger]
  cases e with
  | userInput | beginQueued => simp [StartsSettled,Event.onLedger,hopen]
  | turnEnds turn result =>
    cases result <;> simp [StartsSettled,Event.onLedger,Ledger.OpensSettled]
  | _ => simp [StartsSettled,Event.onLedger,Ledger.OpensSettled]

theorem good_next (hg : s.ledger.Good) {e : Event} (he : s.Enabled e) (h : s.StartsSettled e) :
    (s.next e).ledger.Good := by
  rw [ledger_next he]
  cases hl : e.onLedger with
  | none => exact hg
  | some l => exact hg.next (ledger_enabled he hl) (startsSettled_iff.mp h l hl)

theorem serialised_next_iff (hg : s.ledger.Good) {e : Event} (he : s.Enabled e) :
    (s.next e).Serialised ↔ s.StartsSettled e := by
  rw [← serial_ledger_iff,ledger_next he,startsSettled_iff]
  cases hl : e.onLedger with
  | none => exact iff_of_true hg.toSerial (by simp)
  | some l =>
    rw [Option.elim,hg.serial_next_iff (ledger_enabled he hl)]
    simp

end AgentState

/-- Over a run turns are serial exactly when each is started with no earlier one in
progress, waiting or failed. -/
theorem run_serialised_iff {model systemPrompt : String} {stored : List (String × String)}
    {es : List Event} (hr : conversation.Run (.new model systemPrompt stored) es) :
    (∀ p ∈ conversation.trail (.new model systemPrompt stored) es, (p.1.next p.2).Serialised) ↔
      ∀ p ∈ conversation.trail (.new model systemPrompt stored) es, p.1.StartsSettled p.2 := by
  refine hr.forall_iff (G := fun s => s.ledger.Good)
    (P := fun s e => (s.next e).Serialised) (C := AgentState.StartsSettled) ?_ ?_ ?_
  · intro s e hg he h
    exact AgentState.good_next hg he h
  · intro s e hg he
    exact AgentState.serialised_next_iff hg he
  · rw [AgentState.ledger_new]
    exact Ledger.good_initial _

/-- Two inputs, the second sent when the first has its reply. -/
def repliedRun : List Event :=
  [.attach 0,.subscribe 0,.userInput 0 "Hello.",.announce ⟨0,0,⟨0,"user","Hello."⟩⟩,
    .turnEnds 0 (.ok "Hello, what can I do?"),.userInput 0 "Run the tests."]

theorem repliedRun_serialised : conversation.Run (.new "gemma" "" []) repliedRun ∧
    ∀ p ∈ conversation.trail (.new "gemma" "" []) repliedRun, (p.1.next p.2).Serialised :=
  ⟨by decide,(run_serialised_iff (by decide)).mpr (by decide)⟩

/-- The second input comes while the first has no reply yet. -/
def overlappingRun : List Event :=
  [.attach 0,.subscribe 0,.userInput 0 "Hello.",.announce ⟨0,0,⟨0,"user","Hello."⟩⟩,
    .userInput 0 "Run the tests."]

theorem overlappingRun_not_serialised :
    ¬ ∀ es, conversation.Run (.new "gemma" "" []) es →
      ∀ p ∈ conversation.trail (.new "gemma" "" []) es, (p.1.next p.2).Serialised := by
  intro h
  have hlast : (conversation.exec (.new "gemma" "" []) (overlappingRun.take 4),
      .userInput 0 "Run the tests.") ∈ conversation.trail (.new "gemma" "" []) overlappingRun :=
    .tail _ (.tail _ (.tail _ (.tail _ (.head _))))
  have halone := (h overlappingRun (by decide) _ hlast).alone
  exact absurd halone (by decide)

end Rullama.Agent
