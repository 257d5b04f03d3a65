import Mathlib.Data.List.Nodup
import Mathlib.Tactic.Common

/-! # The chat history

One table of conversations and one table of messages. Row ids count up and are never given
out twice, so the table is in the order of its ids.
-/
namespace Rullama.Native

inductive Role
  | user
  | model
  deriving DecidableEq

structure MessageRow where
  id : ℕ
  convId : ℕ
  role : Role
  content : String
  deriving DecidableEq

/-- The row after an update of the row with the given id. -/
def MessageRow.update (r : MessageRow) (id : ℕ) (content : String) : MessageRow :=
  if r.id = id then { r with content := content } else r

@[simp] theorem MessageRow.update_id (r : MessageRow) (id : ℕ) (content : String) :
    (r.update id content).id = r.id := by
  unfold update
  split <;> rfl

@[simp] theorem MessageRow.update_convId (r : MessageRow) (id : ℕ) (content : String) :
    (r.update id content).convId = r.convId := by
  unfold update
  split <;> rfl

theorem MessageRow.update_of_eq {r : MessageRow} {id : ℕ} (h : r.id = id) (content : String) :
    (r.update id content).content = content := by
  rw [update,if_pos h]

theorem MessageRow.update_of_ne {r : MessageRow} {id : ℕ} (h : r.id ≠ id) (content : String) :
    r.update id content = r := by
  rw [update,if_neg h]

@[simp] theorem MessageRow.update_role (r : MessageRow) (id : ℕ) (content : String) :
    (r.update id content).role = r.role := by
  unfold update
  split <;> rfl

structure ConversationStore where
  conversations : List ℕ
  nextConv : ℕ
  rows : List MessageRow
  nextId : ℕ
  known : ∀ c ∈ conversations, c < nextConv
  ordered : rows.Pairwise (fun r t => r.id < t.id)
  fresh : ∀ r ∈ rows, r.id < nextId

namespace ConversationStore
variable {s : ConversationStore} {c : ℕ} {r t : MessageRow}

def empty : ConversationStore where
  conversations := []
  nextConv := 0
  rows := []
  nextId := 0
  known := List.forall_mem_nil _
  ordered := .nil
  fresh := List.forall_mem_nil _

/-- The messages of a conversation, in the order of their ids. -/
def messages (s : ConversationStore) (convId : ℕ) : List MessageRow :=
  s.rows.filter (fun r => r.convId = convId)

/-- The new conversation gets the id `s.nextConv`. -/
def create (s : ConversationStore) : ConversationStore where
  conversations := s.nextConv :: s.conversations
  nextConv := s.nextConv + 1
  rows := s.rows
  nextId := s.nextId
  known c hc := by
    rcases List.mem_cons.mp hc with rfl | hc
    · exact Nat.lt_succ_self _
    · exact Nat.lt_succ_of_lt (s.known c hc)
  ordered := s.ordered
  fresh := s.fresh

def delete (s : ConversationStore) (convId : ℕ) : ConversationStore where
  conversations := s.conversations.filter (fun c => c ≠ convId)
  nextConv := s.nextConv
  rows := s.rows.filter (fun r => r.convId ≠ convId)
  nextId := s.nextId
  known c hc := s.known c (List.mem_filter.mp hc).1
  ordered := s.ordered.filter _
  fresh r hr := s.fresh r (List.mem_filter.mp hr).1

/-- The new row gets the id `s.nextId`. -/
def addMessage (s : ConversationStore) (convId : ℕ) (role : Role) (content : String) :
    ConversationStore where
  conversations := s.conversations
  nextConv := s.nextConv
  rows := s.rows ++ [⟨s.nextId,convId,role,content⟩]
  nextId := s.nextId + 1
  known := s.known
  ordered := by
    refine List.pairwise_append.mpr ⟨s.ordered,List.pairwise_singleton _ _,?_⟩
    intro r hr t ht
    rw [List.mem_singleton.mp ht]
    exact s.fresh r hr
  fresh r hr := by
    rcases List.mem_append.mp hr with hr | hr
    · exact Nat.lt_succ_of_lt (s.fresh r hr)
    · rw [List.mem_singleton.mp hr]
      exact Nat.lt_succ_self _

def updateMessage (s : ConversationStore) (id : ℕ) (content : String) : ConversationStore where
  conversations := s.conversations
  nextConv := s.nextConv
  rows := s.rows.map (fun r => r.update id content)
  nextId := s.nextId
  known := s.known
  ordered := by
    refine List.pairwise_map.mpr (s.ordered.imp ?_)
    intro r t hrt
    simpa only [MessageRow.update_id] using hrt
  fresh r hr := by
    obtain ⟨t,ht,rfl⟩ := List.mem_map.mp hr
    rw [MessageRow.update_id]
    exact s.fresh t ht

theorem mem_messages : r ∈ s.messages c ↔ r ∈ s.rows ∧ r.convId = c := by
  simp [messages]

theorem messages_ordered : (s.messages c).Pairwise (fun r t => r.id < t.id) := s.ordered.filter _

@[simp] theorem messages_create : s.create.messages c = s.messages c := rfl

theorem mem_of_mem_create (hlt : c < s.nextConv) (hc : c ∈ s.create.conversations) :
    c ∈ s.conversations := by
  rcases List.mem_cons.mp hc with rfl | hc
  · exact absurd hlt (Nat.lt_irrefl _)
  · exact hc

theorem messages_addMessage_self (role : Role) (content : String) :
    (s.addMessage c role content).messages c = s.messages c ++ [⟨s.nextId,c,role,content⟩] := by
  simp [messages,addMessage]

theorem messages_addMessage_of_ne {c' : ℕ} (h : c' ≠ c) (role : Role) (content : String) :
    (s.addMessage c role content).messages c' = s.messages c' := by
  simp [messages,addMessage,h.symm]

theorem mem_addMessage {role : Role} {content : String}
    (h : r ∈ (s.addMessage c role content).rows) :
    r ∈ s.rows ∨ r = ⟨s.nextId,c,role,content⟩ := by
  simpa [addMessage] using h

theorem messages_eq_nil (h : ∀ r ∈ s.rows, r.convId ≠ c) : s.messages c = [] := by
  refine List.filter_eq_nil_iff.mpr (fun r hr => ?_)
  simpa using h r hr

theorem messages_delete_of_ne {c' : ℕ} (h : c' ≠ c) : (s.delete c).messages c' = s.messages c' := by
  simp only [messages,delete,List.filter_filter]
  refine List.filter_congr (fun r _ => ?_)
  by_cases hr : r.convId = c'
  · simp [hr,h]
  · simp [hr]

theorem messages_updateMessage (id : ℕ) (content : String) :
    (s.updateMessage id content).messages c =
      (s.messages c).map (fun r => r.update id content) := by
  simp only [messages,updateMessage,List.filter_map]
  refine congrArg _ (List.filter_congr (fun r _ => ?_))
  simp

/-- Two rows do not have one id. -/
theorem eq_of_id_eq (hr : r ∈ s.rows) (ht : t ∈ s.rows) (h : r.id = t.id) : r = t := by
  have hnodup : (s.rows.map (·.id)).Nodup :=
    List.pairwise_map.mpr (s.ordered.imp (fun hlt => Nat.ne_of_lt hlt))
  exact List.inj_on_of_nodup_map hnodup hr ht h

theorem mem_updateMessage {id : ℕ} {content : String}
    (h : r ∈ (s.updateMessage id content).rows) :
    ∃ t ∈ s.rows, r = t.update id content := by
  obtain ⟨t,ht,rfl⟩ := List.mem_map.mp h
  exact ⟨t,ht,rfl⟩

end ConversationStore
end Rullama.Native
