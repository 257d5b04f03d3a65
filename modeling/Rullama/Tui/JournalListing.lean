import Rullama.Tui.JournalForest

/-! # What the journal lists

The ids of the nodes are given out in the order in which the events are gone through. So the
payloads of a tree are a list, and each event adds to it what it is shown as.
-/
namespace Rullama.Tui

/-! ## The payloads of a tree -/

def JournalTreeState.payloadOf (st : JournalTreeState) (id : JournalNodeId) :
    Option JournalNodePayload :=
  (st.nodes.lookup id).map JournalNode.payload

/-- The payloads of the nodes, in the order of their ids. -/
structure JournalTreeState.Lists (st : JournalTreeState) (ps : List JournalNodePayload) :
    Prop where
  next : st.nextId = ps.length + 1
  zero : st.payloadOf 0 = none
  payload : ∀ i, st.payloadOf (i + 1) = ps[i]?

namespace JournalTreeState

variable {st st' : JournalTreeState} {ps : List JournalNodePayload} {p : JournalNodePayload}

theorem Lists.extend (h : st.Lists ps) (hnext : st'.nextId = st.nextId + 1)
    (hpayload : ∀ id, st'.payloadOf id = if id = st.nextId then some p else st.payloadOf id) :
    st'.Lists (ps ++ [p]) where
  next := by rw [hnext,h.next,List.length_append,List.length_singleton]
  zero := by
    have hne : 0 ≠ st.nextId := by rw [h.next]; exact (Nat.succ_ne_zero _).symm
    rw [hpayload,if_neg hne,h.zero]
  payload i := by
    have hnew : i + 1 = st.nextId ↔ i = ps.length := by rw [h.next]; exact Nat.succ_inj
    rw [hpayload,h.payload]
    simp only [hnew]
    rcases Nat.lt_trichotomy i ps.length with hi | rfl | hi
    · rw [if_neg (Nat.ne_of_lt hi),List.getElem?_append_left hi]
    · rw [if_pos rfl,List.getElem?_concat_length]
    · have hlen : (ps ++ [p]).length ≤ i := by
        rw [List.length_append,List.length_singleton]
        exact hi
      rw [if_neg (Nat.ne_of_gt hi),List.getElem?_eq_none hlen,
        List.getElem?_eq_none (Nat.le_of_lt hi)]

theorem Lists.congr (h : st.Lists ps) (hnodes : st'.nodes = st.nodes)
    (hnext : st'.nextId = st.nextId) : st'.Lists ps where
  next := hnext.trans h.next
  zero := by rw [payloadOf,hnodes]; exact h.zero
  payload i := by rw [payloadOf,hnodes]; exact h.payload i

theorem lists_empty (h : st.nodes = ∅) (hnext : st.nextId = 1) : st.Lists [] where
  next := hnext
  zero := by rw [payloadOf,h,AList.lookup_empty]; rfl
  payload i := by rw [payloadOf,h,AList.lookup_empty]; rfl

/-- A new root. -/
theorem Lists.insert (h : st.Lists ps) {n : JournalNode} (hpayload : n.payload = p)
    (hnodes : st'.nodes = st.nodes.insert st.nextId n) (hnext : st'.nextId = st.nextId + 1) :
    st'.Lists (ps ++ [p]) := by
  refine h.extend hnext (fun id => ?_)
  rw [payloadOf,hnodes]
  split
  · rename_i hid
    rw [hid,AList.lookup_insert,Option.map_some,hpayload]
  · rename_i hid
    rw [AList.lookup_insert_ne hid]
    rfl

theorem Lists.addChild (h : st.Lists ps) (hs : st.Sound) (kind : JournalNodeKind) (timestamp : ℤ)
    (payload : JournalNodePayload) {parent : JournalNodeId} (hp : parent ∈ st.nodes) :
    (st.addChild kind timestamp payload parent).Lists (ps ++ [payload]) := by
  have hne : parent ≠ st.nextId := Nat.ne_of_lt (hs.below parent hp)
  refine h.extend (addChild_nextId kind timestamp payload) (fun id => ?_)
  rw [payloadOf,lookup_addChild kind timestamp payload hp hne]
  split
  · rename_i hid
    rw [if_neg (fun heq => hne (hid.symm.trans heq)),payloadOf,hid]
    cases st.nodes.lookup parent <;> rfl
  · split <;> rfl

theorem Lists.mem_nodes_iff (h : st.Lists ps) {id : JournalNodeId} :
    id ∈ st.nodes ↔ ∃ i p, id = i + 1 ∧ ps[i]? = some p := by
  have hmem : id ∈ st.nodes ↔ (st.payloadOf id).isSome := by
    rw [payloadOf,Option.isSome_map,AList.lookup_isSome]
  rw [hmem]
  cases id with
  | zero =>
    rw [h.zero]
    refine iff_of_false (by decide) ?_
    rintro ⟨i,p,hid,-⟩
    cases hid
  | succ i =>
    rw [h.payload,Option.isSome_iff_exists]
    constructor
    · rintro ⟨p,hp⟩
      exact ⟨i,p,rfl,hp⟩
    · rintro ⟨j,p,hid,hp⟩
      cases hid
      exact ⟨p,hp⟩

end JournalTreeState

/-! ## What an event is shown as -/

def ToolExecutionEntry.node (t : ToolExecutionEntry) : JournalNodePayload :=
  if t.toolName = "agent_spawn" then
    .subAgentSpawn (extractAgentId t.resultSummary) t.parametersSummary
  else t.payload

/-- The turn that is made where there is none. -/
def firstTurn (turns : ℕ) : List JournalNodePayload := if turns = 0 then [.turn 1] else []

/-- The nodes of an event that comes after so many turns. -/
def shownNodes (turns : ℕ) : FlatEvent → List JournalNodePayload
  | .message m =>
    if m.role = "user" then [.turn (turns + 1),.message m.role m.content]
    else if m.role = "assistant" then firstTurn turns ++ [.message m.role m.content]
    else if m.role = "system" then firstTurn turns ++ [.systemEvent m.content]
    else []
  | .tool t => if turns = 0 then [] else [t.node]

def turnsAfter (turns : ℕ) : FlatEvent → ℕ
  | .message m =>
    if m.role = "user" then turns + 1
    else if m.role = "assistant" ∨ m.role = "system" then max turns 1
    else turns
  | .tool _ => turns

/-- The nodes of events, one after the other. -/
def listing : ℕ → List FlatEvent → List JournalNodePayload
  | _,[] => []
  | turns,e :: events => shownNodes turns e ++ listing (turnsAfter turns e) events

theorem listing_append (turns : ℕ) (l m : List FlatEvent) :
    listing turns (l ++ m) = listing turns l ++ listing (l.foldl turnsAfter turns) m := by
  induction l generalizing turns with
  | nil => rfl
  | cons e l ih => rw [List.cons_append,listing,listing,ih,List.append_assoc]; rfl

/-! ## Rebuilding -/

namespace Rebuild

variable {b : Rebuild} {ps : List JournalNodePayload}

/-- There is a turn once turns were counted, and an assistant message only in a turn. -/
structure Counts (b : Rebuild) : Prop where
  turn : b.currentTurnId = none ↔ b.turnNumber = 0
  assistant : b.currentTurnId = none → b.currentAssistantId = none

theorem Counts.ensureTurn (hc : b.Counts) (hl : b.tree.Lists ps) (timestamp : ℤ) :
    (b.ensureTurn timestamp).1.currentTurnId ≠ none ∧
      (b.ensureTurn timestamp).1.turnNumber = max b.turnNumber 1 ∧
      (b.ensureTurn timestamp).1.tree.Lists (ps ++ firstTurn b.turnNumber) := by
  rw [Rebuild.ensureTurn,firstTurn]
  split
  · rename_i id hid
    have hturns : b.turnNumber ≠ 0 := by
      intro h
      rw [hc.turn.mpr h] at hid
      cases hid
    rw [if_neg hturns,List.append_nil]
    refine ⟨?_,(Nat.max_eq_left (Nat.pos_of_ne_zero hturns)).symm,hl⟩
    rw [hid]
    exact Option.some_ne_none id
  · rename_i hnone
    have hturns := hc.turn.mp hnone
    rw [if_pos hturns]
    refine ⟨Option.some_ne_none _,by rw [hturns]; rfl,hl.insert ?_ rfl rfl⟩
    rw [hturns]
    rfl

/-- Where a turn is open, the counts are right whatever the assistant message is. -/
theorem counts_of_turn (h : b.currentTurnId ≠ none) (hturns : b.turnNumber ≠ 0) : b.Counts :=
  ⟨iff_of_false h hturns,fun hnone => absurd hnone h⟩

/-- An event adds to the tree what it is shown as after the turns before it. -/
theorem event_lists (hs : b.Sound) (hc : b.Counts) (hl : b.tree.Lists ps) (e : FlatEvent) :
    (b.event e).Counts ∧ (b.event e).turnNumber = turnsAfter b.turnNumber e ∧
      (b.event e).tree.Lists (ps ++ shownNodes b.turnNumber e) := by
  cases e with
  | message m =>
    obtain ⟨hturn,hnumber,hlists⟩ := hc.ensureTurn hl m.createdAt
    obtain ⟨hsound,hmem⟩ := hs.ensureTurn m.createdAt
    have hpos : (b.ensureTurn m.createdAt).1.turnNumber ≠ 0 := by rw [hnumber]; omega
    rw [Rebuild.event,turnsAfter,shownNodes]
    by_cases huser : m.role = "user"
    · rw [if_pos huser,if_pos huser,if_pos huser]
      obtain ⟨hopen,hopened⟩ := hs.openTurn m.createdAt
      have hroot : (b.openTurn m.createdAt).tree.Lists (ps ++ [.turn (b.turnNumber + 1)]) :=
        hl.insert rfl rfl rfl
      refine ⟨counts_of_turn (Option.some_ne_none _) (Nat.succ_ne_zero _),rfl,?_⟩
      have hchild := hroot.addChild hopen.tree .userMessage m.createdAt
        (.message m.role m.content) hopened
      rw [List.append_assoc] at hchild
      exact hchild
    · rw [if_neg huser,if_neg huser,if_neg huser]
      by_cases hassistant : m.role = "assistant"
      · rw [if_pos hassistant,if_pos hassistant,if_pos (.inl hassistant),← List.append_assoc]
        exact ⟨counts_of_turn hturn hpos,hnumber,hlists.addChild hsound.tree _ _ _ hmem⟩
      · rw [if_neg hassistant,if_neg hassistant]
        by_cases hsystem : m.role = "system"
        · rw [if_pos hsystem,if_pos hsystem,if_pos (.inr hsystem),← List.append_assoc]
          exact ⟨counts_of_turn hturn hpos,hnumber,hlists.addChild hsound.tree _ _ _ hmem⟩
        · rw [if_neg hsystem,if_neg hsystem,if_neg (not_or.mpr ⟨hassistant,hsystem⟩),
            List.append_nil]
          exact ⟨hc,rfl,hl⟩
  | tool t =>
    rw [Rebuild.event,turnsAfter,shownNodes,Rebuild.toolExecution]
    split
    · rename_i hparent
      have hnone : b.currentTurnId = none := (Option.or_eq_none_iff.mp hparent).2
      rw [if_pos (hc.turn.mp hnone),List.append_nil]
      exact ⟨hc,rfl,hl⟩
    · rename_i parentId hparent
      have hturns : b.turnNumber ≠ 0 := by
        intro h
        have hnone := hc.turn.mpr h
        rw [hc.assistant hnone,hnone] at hparent
        cases hparent
      have hmem : parentId ∈ b.tree.nodes := by
        rcases Option.or_eq_some_iff.mp hparent with ha | ⟨-,ht⟩
        · exact hs.assistant parentId ha
        · exact hs.turn parentId ht
      rw [if_neg hturns,ToolExecutionEntry.node]
      exact ⟨⟨hc.turn,hc.assistant⟩,rfl,hl.addChild hs.tree _ _ _ hmem⟩

theorem foldl_lists (hs : b.Sound) (hc : b.Counts) (hl : b.tree.Lists ps)
    (events : List FlatEvent) :
    (events.foldl Rebuild.event b).tree.Lists (ps ++ listing b.turnNumber events) := by
  induction events generalizing b ps with
  | nil =>
    rw [listing,List.append_nil]
    exact hl
  | cons e events ih =>
    obtain ⟨hc',hnumber,hl'⟩ := event_lists hs hc hl e
    rw [List.foldl_cons,listing,← List.append_assoc,← hnumber]
    exact ih (hs.event e) hc' hl'

end Rebuild

namespace JournalTreeState

variable {st : JournalTreeState} {ps : List JournalNodePayload}

/-- A tree that was rebuilt lists its events in order, whatever was there before. -/
theorem rebuildFromFlat_lists (st : JournalTreeState) (messages : List TuiMessage)
    (tools : List ToolExecutionEntry) :
    (st.rebuildFromFlat messages tools).Lists (listing 0 (flatEvents messages tools)) := by
  have hempty : JournalTreeState.Lists { st with nodes := ∅,roots := [],nextId := 1 } [] :=
    lists_empty rfl rfl
  have hstart : Rebuild.Sound { tree := { st with nodes := ∅,roots := [],nextId := 1 } } := by
    refine ⟨sound_empty rfl rfl rfl,fun id hid => ?_,fun id hid => ?_⟩
    · cases hid
    · cases hid
  have hcounts : Rebuild.Counts { tree := { st with nodes := ∅,roots := [],nextId := 1 } } :=
    ⟨iff_of_true rfl rfl,fun _ => rfl⟩
  exact (Rebuild.foldl_lists hstart hcounts hempty (flatEvents messages tools)).congr rfl rfl

/-! ## Activity of sub-agents -/

/-- What an event of a sub-agent is shown as. -/
def injectedNode : FlatEvent → JournalNodePayload
  | .message m =>
    if m.role = "assistant" ∨ m.role = "user" then .message m.role m.content
    else .systemEvent m.content
  | .tool t => t.payload

theorem Lists.injectEvent (h : st.Lists ps) (hs : st.Sound) {spawnId : JournalNodeId}
    (hspawn : spawnId ∈ st.nodes) (e : FlatEvent) :
    (st.injectEvent spawnId e).Lists (ps ++ [injectedNode e]) := by
  cases e with
  | message m =>
    rw [JournalTreeState.injectEvent,injectedNode]
    by_cases hassistant : m.role = "assistant"
    · rw [if_pos hassistant,if_pos (.inl hassistant)]
      exact h.addChild hs _ _ _ hspawn
    · by_cases huser : m.role = "user"
      · rw [if_neg hassistant,if_pos huser,if_pos (.inr huser)]
        exact h.addChild hs _ _ _ hspawn
      · rw [if_neg hassistant,if_neg huser,if_neg (not_or.mpr ⟨hassistant,huser⟩)]
        exact h.addChild hs _ _ _ hspawn
  | tool t => exact h.addChild hs _ _ _ hspawn

/-- There is a node of the sub-agent in the tree. -/
def Spawned (st : JournalTreeState) (agentId : String) : Prop :=
  ∃ n ∈ st.nodes.entries.map Sigma.snd, n.spawns agentId = true

instance (st : JournalTreeState) (agentId : String) : Decidable (st.Spawned agentId) :=
  inferInstanceAs (Decidable (∃ n ∈ _, _))

theorem Lists.injectSubagentActivity (h : st.Lists ps) (hs : st.Sound) (iter : Iteration)
    (agentId : String) (messages : List TuiMessage) (tools : List ToolExecutionEntry) :
    (st.injectSubagentActivity iter agentId messages tools).Lists
      (ps ++ if st.Spawned agentId then (flatEvents messages tools).map injectedNode else []) := by
  have hvalues (n : JournalNode) : n ∈ iter.values (st.nodes.entries.map Sigma.snd) ↔
      n ∈ st.nodes.entries.map Sigma.snd := (iter.perm _).mem_iff
  rw [JournalTreeState.injectSubagentActivity]
  split
  · rename_i hnone
    have hnot : ¬ st.Spawned agentId := by
      rintro ⟨n,hn,hspawns⟩
      exact List.find?_eq_none.mp hnone n ((hvalues n).mpr hn) hspawns
    rw [if_neg hnot,List.append_nil]
    exact h
  · rename_i n hn
    have hvalue := (hvalues n).mp (List.mem_of_find?_eq_some hn)
    have hspawned : st.Spawned agentId := ⟨n,hvalue,by simpa using List.find?_some hn⟩
    obtain ⟨⟨id,m⟩,hentry,rfl⟩ := List.mem_map.mp hvalue
    have hlookup : st.nodes.lookup id = some m := AList.mem_lookup_iff.mpr hentry
    have hspawn : m.id ∈ st.nodes := by
      rw [hs.keyed id m hlookup,← AList.lookup_isSome,hlookup]
      rfl
    have hfold (events : List FlatEvent) : ∀ (tree : JournalTreeState) (qs : List _), tree.Sound →
        m.id ∈ tree.nodes → tree.Lists qs →
        (events.foldl (fun st e => st.injectEvent m.id e) tree).Lists
          (qs ++ events.map injectedNode) := by
      induction events with
      | nil =>
        intro tree qs _ _ hlists
        rw [List.map_nil,List.append_nil]
        exact hlists
      | cons e events ih =>
        intro tree qs hsound hmem hlists
        obtain ⟨hsound',hmem'⟩ := hsound.injectEvent hmem e
        have hstep := ih _ _ hsound' hmem' (hlists.injectEvent hsound hmem e)
        rw [List.append_assoc] at hstep
        exact hstep
    rw [if_pos hspawned]
    exact (hfold _ st ps hs hspawn h).congr rfl rfl

end JournalTreeState

end Rullama.Tui
