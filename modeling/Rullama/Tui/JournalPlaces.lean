import Rullama.Sorting.Stable
import Rullama.Tui.JournalListing

/-! # The place of the user in the journal

A rebuild keeps the ids that are collapsed and the cursor. They name the same events as before
if the nodes that were listed are still listed first: no appended event comes before them, and
none takes the ids that the activity of a sub-agent had.
-/
namespace Rullama.Tui
open Sorting JournalTreeState

/-! ## Keeping the place -/

/-- Activity of a sub-agent that came in. -/
structure Injection where
  iter : Iteration
  agentId : String
  messages : List TuiMessage
  tools : List ToolExecutionEntry

namespace JournalTreeState

def inject (st : JournalTreeState) (i : Injection) : JournalTreeState :=
  st.injectSubagentActivity i.iter i.agentId i.messages i.tools

def injectAll (st : JournalTreeState) (injections : List Injection) : JournalTreeState :=
  injections.foldl inject st

/-- What the user has set on the tree. -/
def withPlace (st : JournalTreeState) (collapsed : Finset JournalNodeId)
    (cursor : Option JournalNodeId) : JournalTreeState :=
  { st with collapsed := collapsed,cursor := cursor }

end JournalTreeState

/-- What is still collapsed, and the cursor, denote the events that they denoted before. -/
structure KeepsPlace (before after : JournalTreeState) : Prop where
  collapsed : ∀ id ∈ after.collapsed,
    id ∈ before.collapsed ∧ after.payloadOf id = before.payloadOf id
  cursor : ∀ id ∈ after.cursor, id ∈ before.cursor ∧ after.payloadOf id = before.payloadOf id

/-- Wherever the user is, the rebuild after events were appended keeps the place. -/
def PlaceKept (st : JournalTreeState) (messages : List TuiMessage)
    (tools : List ToolExecutionEntry) (injections : List Injection)
    (newMessages : List TuiMessage) (newTools : List ToolExecutionEntry) : Prop :=
  let tree := (st.rebuildFromFlat messages tools).injectAll injections
  ∀ collapsed cursor, (∀ id ∈ collapsed, id ∈ tree.nodes) → (∀ id ∈ cursor, id ∈ tree.nodes) →
    KeepsPlace (tree.withPlace collapsed cursor)
      ((tree.withPlace collapsed cursor).rebuildFromFlat (messages ++ newMessages)
        (tools ++ newTools))

/-- Two lists agree as far as both go. -/
def Agree (ps qs : List JournalNodePayload) : Prop :=
  ∀ (i : ℕ) p q, ps[i]? = some p → qs[i]? = some q → q = p

section Place

variable {tree : JournalTreeState} {ps qs : List JournalNodePayload}

theorem keepsPlace_iff_agree (hl : tree.Lists ps) (messages : List TuiMessage)
    (tools : List ToolExecutionEntry) :
    (∀ collapsed cursor, (∀ id ∈ collapsed, id ∈ tree.nodes) → (∀ id ∈ cursor, id ∈ tree.nodes) →
      KeepsPlace (tree.withPlace collapsed cursor)
        ((tree.withPlace collapsed cursor).rebuildFromFlat messages tools)) ↔
      Agree ps (listing 0 (flatEvents messages tools)) := by
  have hafter (collapsed : Finset JournalNodeId) (cursor : Option JournalNodeId) :=
    rebuildFromFlat_lists (tree.withPlace collapsed cursor) messages tools
  constructor
  · intro h i p q hp hq
    have hmem : i + 1 ∈ tree.nodes := hl.mem_nodes_iff.mpr ⟨i,p,rfl,hp⟩
    have hkeeps := h tree.nodes.keys.toFinset none
      (fun id hid => AList.mem_keys.mpr (List.mem_toFinset.mp hid)) (fun id hid => by cases hid)
    have hcollapsed : i + 1 ∈ ((tree.withPlace tree.nodes.keys.toFinset none).rebuildFromFlat
        messages tools).collapsed := by
      refine Finset.mem_filter.mpr ⟨List.mem_toFinset.mpr (AList.mem_keys.mp hmem),?_⟩
      exact (hafter _ none).mem_nodes_iff.mpr ⟨i,q,rfl,hq⟩
    have hsame := (hkeeps.collapsed _ hcollapsed).2
    have hbefore : (tree.withPlace tree.nodes.keys.toFinset none).payloadOf (i + 1) = some p :=
      (hl.payload i).trans hp
    rw [(hafter _ none).payload,hq,hbefore] at hsame
    exact Option.some_inj.mp hsame
  · intro h collapsed cursor hcollapsed hcursor
    have hsame {id : JournalNodeId} (hbefore : id ∈ tree.nodes)
        (hnow : id ∈ ((tree.withPlace collapsed cursor).rebuildFromFlat messages tools).nodes) :
        ((tree.withPlace collapsed cursor).rebuildFromFlat messages tools).payloadOf id =
          (tree.withPlace collapsed cursor).payloadOf id := by
      obtain ⟨i,p,rfl,hp⟩ := hl.mem_nodes_iff.mp hbefore
      obtain ⟨j,q,hij,hq⟩ := (hafter collapsed cursor).mem_nodes_iff.mp hnow
      cases hij
      have hold : (tree.withPlace collapsed cursor).payloadOf (i + 1) = some p :=
        (hl.payload i).trans hp
      rw [(hafter collapsed cursor).payload,hq,hold,h i p q hp hq]
    constructor
    · intro id hid
      obtain ⟨hin,hnow⟩ := Finset.mem_filter.mp hid
      exact ⟨hin,hsame (hcollapsed id hin) hnow⟩
    · intro id hid
      obtain ⟨hin,hnow⟩ := Option.mem_filter_iff.mp hid
      exact ⟨hin,hsame (hcursor id hin) (of_decide_eq_true hnow)⟩

end Place

/-! ## What opens a turn -/

def knownRole (role : String) : Bool := role = "user" || role = "assistant" || role = "system"

namespace FlatEvent

def opens : FlatEvent → Bool
  | .message m => knownRole m.role
  | .tool _ => false

def isShown : FlatEvent → Bool
  | .message m => knownRole m.role
  | .tool _ => true

/-- The nodes of an event while a turn is open; the turn itself has no event. -/
def nodes : FlatEvent → List (Option JournalNodePayload)
  | .message m =>
    if m.role = "user" then [none,some (.message m.role m.content)]
    else if m.role = "assistant" then [some (.message m.role m.content)]
    else if m.role = "system" then [some (.systemEvent m.content)]
    else []
  | .tool t => [some t.node]

end FlatEvent

def JournalNodePayload.face : JournalNodePayload → Option JournalNodePayload
  | .turn _ => none
  | p => some p

def JournalNodePayload.isTool : JournalNodePayload → Bool
  | .tool .. => true
  | .subAgentSpawn .. => true
  | _ => false

section Events

variable {e : FlatEvent} {turns : ℕ}

theorem face_node (t : ToolExecutionEntry) : t.node.face = some t.node := by
  rw [ToolExecutionEntry.node]
  split <;> rfl

theorem isTool_node (t : ToolExecutionEntry) : t.node.isTool = true := by
  rw [ToolExecutionEntry.node]
  split <;> rfl

theorem face_injectedNode (e : FlatEvent) : (injectedNode e).face = some (injectedNode e) := by
  cases e with
  | message m =>
    rw [injectedNode]
    split <;> rfl
  | tool t => rfl

theorem shownNodes_of_not_isShown (h : e.isShown = false) (turns : ℕ) :
    shownNodes turns e = [] ∧ turnsAfter turns e = turns := by
  cases e with
  | message m =>
    simp only [FlatEvent.isShown,knownRole,Bool.or_eq_false_iff,decide_eq_false_iff_not] at h
    obtain ⟨⟨huser,hassistant⟩,hsystem⟩ := h
    simp [shownNodes,turnsAfter,huser,hassistant,hsystem]
  | tool t => cases h

theorem shownNodes_of_not_opens (h : e.opens = false) :
    shownNodes 0 e = [] ∧ turnsAfter 0 e = 0 := by
  cases e with
  | message m =>
    have hm : (FlatEvent.message m).isShown = false := h
    exact shownNodes_of_not_isShown hm 0
  | tool t => exact ⟨rfl,rfl⟩

theorem le_turnsAfter (turns : ℕ) (e : FlatEvent) : turns ≤ turnsAfter turns e := by
  cases e with
  | message m =>
    rw [turnsAfter]
    split_ifs <;> omega
  | tool t => exact Nat.le_refl _

theorem turnsAfter_pos (h : e.opens = true) (turns : ℕ) : 0 < turnsAfter turns e := by
  cases e with
  | message m =>
    simp only [FlatEvent.opens,knownRole,Bool.or_eq_true,decide_eq_true_eq] at h
    rw [turnsAfter]
    split_ifs with huser hother
    · omega
    · omega
    · exact absurd (h.resolve_left (fun h => h.elim huser (fun h => hother (.inl h))))
        (fun h => hother (.inr h))
  | tool t => cases h

/-- While a turn is open, an event that opens one begins with a node that is not a tool. -/
theorem shownNodes_of_opens (h : e.opens = true) (hturns : turns ≠ 0) :
    ∃ p rest, shownNodes turns e = p :: rest ∧ p.isTool = false := by
  cases e with
  | message m =>
    simp only [FlatEvent.opens,knownRole,Bool.or_eq_true,decide_eq_true_eq] at h
    rw [shownNodes,firstTurn,if_neg hturns]
    split_ifs with huser hassistant hsystem
    · exact ⟨_,_,rfl,rfl⟩
    · exact ⟨_,_,rfl,rfl⟩
    · exact ⟨_,_,rfl,rfl⟩
    · exact absurd h (not_or.mpr ⟨not_or.mpr ⟨huser,hassistant⟩,hsystem⟩)
  | tool t => cases h

theorem map_face_shownNodes (hturns : turns ≠ 0) (e : FlatEvent) :
    (shownNodes turns e).map JournalNodePayload.face = e.nodes := by
  cases e with
  | message m =>
    rw [shownNodes,firstTurn,FlatEvent.nodes,if_neg hturns]
    split_ifs <;> rfl
  | tool t =>
    rw [shownNodes,if_neg hturns,List.map_singleton,face_node]
    rfl

end Events

/-! ## Listings -/

section Listings

variable {events : List FlatEvent} {turns : ℕ}

theorem listing_filter (turns : ℕ) (events : List FlatEvent) :
    listing turns (events.filter FlatEvent.isShown) = listing turns events := by
  induction events generalizing turns with
  | nil => rfl
  | cons e events ih =>
    cases he : e.isShown with
    | true => rw [List.filter_cons_of_pos he,listing,listing,ih]
    | false =>
      obtain ⟨hnodes,hturns⟩ := shownNodes_of_not_isShown he turns
      rw [List.filter_cons_of_neg (by simp [he]),listing,hnodes,hturns,ih]
      rfl

theorem turnsAfter_filter (turns : ℕ) (events : List FlatEvent) :
    (events.filter FlatEvent.isShown).foldl turnsAfter turns = events.foldl turnsAfter turns := by
  induction events generalizing turns with
  | nil => rfl
  | cons e events ih =>
    cases he : e.isShown with
    | true => rw [List.filter_cons_of_pos he,List.foldl_cons,List.foldl_cons,ih]
    | false =>
      rw [List.filter_cons_of_neg (by simp [he]),List.foldl_cons,
        (shownNodes_of_not_isShown he turns).2,ih]

theorem listing_eq_nil (h : ∀ e ∈ events, e.opens = false) : listing 0 events = [] := by
  induction events with
  | nil => rfl
  | cons e events ih =>
    obtain ⟨hnodes,hturns⟩ := shownNodes_of_not_opens (h e List.mem_cons_self)
    rw [listing,hnodes,hturns,ih (fun e' he' => h e' (List.mem_cons_of_mem e he'))]
    rfl

theorem le_foldl_turnsAfter (turns : ℕ) (events : List FlatEvent) :
    turns ≤ events.foldl turnsAfter turns := by
  induction events generalizing turns with
  | nil => exact Nat.le_refl _
  | cons e events ih => exact (le_turnsAfter turns e).trans (ih _)

theorem foldl_turnsAfter_pos {e : FlatEvent} (he : e ∈ events) (hopens : e.opens = true)
    (turns : ℕ) : 0 < events.foldl turnsAfter turns := by
  induction events generalizing turns with
  | nil => cases he
  | cons e' events ih =>
    rw [List.foldl_cons]
    rcases List.mem_cons.mp he with rfl | he
    · exact Nat.lt_of_lt_of_le (turnsAfter_pos hopens turns) (le_foldl_turnsAfter _ events)
    · exact ih he _

theorem map_face_listing (hturns : turns ≠ 0) (events : List FlatEvent) :
    (listing turns events).map JournalNodePayload.face = events.flatMap FlatEvent.nodes := by
  induction events generalizing turns with
  | nil => rfl
  | cons e events ih =>
    have hnext : turnsAfter turns e ≠ 0 := by
      have hle := le_turnsAfter turns e
      omega
    rw [listing,List.map_append,map_face_shownNodes hturns,ih hnext,List.flatMap_cons]

end Listings

end Rullama.Tui
