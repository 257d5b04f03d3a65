import Rullama.Tui.JournalTree

/-! # The journal tree is a forest

Every operation keeps the nodes a forest: new nodes get the next id and go under a node that is
there, or become roots.
-/
namespace Rullama.Tui
open Forest (Links)

namespace JournalTreeState

variable {st : JournalTreeState}

/-! ## New nodes -/

section AddChild

variable (kind : JournalNodeKind) (timestamp : ℤ) (payload : JournalNodePayload)
  {parent : JournalNodeId}

theorem addChild_nodes (h : parent ∈ st.nodes) (hne : parent ≠ st.nextId) :
    ∃ n, st.nodes.lookup parent = some n ∧
      (st.addChild kind timestamp payload parent).nodes =
        (st.nodes.insert st.nextId
          ⟨st.nextId,kind,timestamp,payload,[],some parent⟩).insert parent
            { n with children := n.children ++ [st.nextId] } := by
  obtain ⟨n,hn⟩ := Option.isSome_iff_exists.mp (AList.lookup_isSome.mpr h)
  have hlookup : (st.nodes.insert st.nextId
      (⟨st.nextId,kind,timestamp,payload,[],some parent⟩ : JournalNode)).lookup parent = some n := by
    rw [AList.lookup_insert_ne hne,hn]
  refine ⟨n,hn,?_⟩
  simp only [addChild,insertNode,pushChild,hlookup]

theorem addChild_roots : (st.addChild kind timestamp payload parent).roots = st.roots := by
  simp only [addChild,insertNode,pushChild]
  split <;> rfl

theorem addChild_nextId :
    (st.addChild kind timestamp payload parent).nextId = st.nextId + 1 := by
  simp only [addChild,insertNode,pushChild]
  split <;> rfl

theorem lookup_addChild (h : parent ∈ st.nodes) (hne : parent ≠ st.nextId) (id : JournalNodeId) :
    (st.addChild kind timestamp payload parent).nodes.lookup id =
      if id = parent then (st.nodes.lookup parent).map
        (fun n => { n with children := n.children ++ [st.nextId] })
      else if id = st.nextId then some ⟨st.nextId,kind,timestamp,payload,[],some parent⟩
      else st.nodes.lookup id := by
  obtain ⟨n,hn,hnodes⟩ := addChild_nodes kind timestamp payload h hne
  rw [hnodes,hn]
  split
  · rename_i hid
    rw [hid,AList.lookup_insert]
    rfl
  · rename_i hid
    rw [AList.lookup_insert_ne hid]
    split
    · rename_i hnew
      rw [hnew,AList.lookup_insert]
    · rename_i hnew
      rw [AList.lookup_insert_ne hnew]

theorem mem_addChild (h : parent ∈ st.nodes) (hne : parent ≠ st.nextId) (id : JournalNodeId) :
    id ∈ (st.addChild kind timestamp payload parent).nodes ↔ id = st.nextId ∨ id ∈ st.nodes := by
  obtain ⟨n,hn,hnodes⟩ := addChild_nodes kind timestamp payload h hne
  rw [hnodes,AList.mem_insert,AList.mem_insert]
  constructor
  · rintro (rfl | hid)
    · exact .inr h
    · exact hid
  · exact .inr

theorem links_addChild (h : parent ∈ st.nodes) (hnew : st.nextId ∉ st.nodes) :
    (st.addChild kind timestamp payload parent).links =
      st.links.attach (some parent) st.nextId := by
  have hne : parent ≠ st.nextId := fun heq => hnew (heq ▸ h)
  have hlookup := lookup_addChild kind timestamp payload h hne
  refine Links.ext ?_ ?_ ?_
  · funext id
    exact propext (mem_addChild kind timestamp payload h hne id)
  · funext id
    simp only [links,Links.attach,Function.update_apply,hlookup]
    split
    · rename_i hid
      have hnid : id ≠ st.nextId := fun heq => hne (hid.symm.trans heq)
      rw [if_neg hnid,hid]
      cases st.nodes.lookup parent <;> rfl
    · split <;> rfl
  · funext p
    cases p with
    | none => exact addChild_roots kind timestamp payload
    | some id =>
      simp only [links,Links.attach,Function.update_apply,childrenOf,hlookup,Option.some.injEq]
      split
      · rename_i hid
        obtain ⟨n,hn⟩ := Option.isSome_iff_exists.mp (AList.lookup_isSome.mpr h)
        rw [hn]
        rfl
      · split
        · rename_i hid
          rw [hid,AList.lookup_eq_none.mpr hnew]
          rfl
        · rfl

end AddChild

/-! ## The invariant -/

/-- Ids are given out one by one, each to a node. -/
structure Sound (st : JournalTreeState) : Prop where
  keyed : ∀ id n, st.nodes.lookup id = some n → n.id = id
  forest : st.links.WellFormed
  below : ∀ id ∈ st.nodes, id < st.nextId
  count : st.nodes.keys.length + 1 = st.nextId

theorem Sound.fresh (h : st.Sound) : st.nextId ∉ st.nodes :=
  fun hmem => lt_irrefl _ (h.below _ hmem)

theorem Sound.addChild (h : st.Sound) (kind : JournalNodeKind) (timestamp : ℤ)
    (payload : JournalNodePayload) {parent : JournalNodeId} (hp : parent ∈ st.nodes) :
    (st.addChild kind timestamp payload parent).Sound := by
  have hlt := h.below parent hp
  have hne : parent ≠ st.nextId := Nat.ne_of_lt hlt
  have hlookup := lookup_addChild kind timestamp payload hp hne
  refine ⟨fun id n hn => ?_,?_,fun id hid => ?_,?_⟩
  · rw [hlookup] at hn
    split at hn
    · rename_i hid
      obtain ⟨m,hm,rfl⟩ := Option.map_eq_some_iff.mp hn
      rw [hid]
      exact h.keyed parent m hm
    · split at hn
      · rename_i hid
        cases hn
        exact hid.symm
      · exact h.keyed id n hn
  · rw [links_addChild kind timestamp payload hp h.fresh]
    refine h.forest.attach h.fresh (fun b hb => ?_)
    cases hb
    exact ⟨hp,hlt⟩
  · rw [addChild_nextId]
    rcases (mem_addChild kind timestamp payload hp hne id).mp hid with rfl | hid
    · exact Nat.lt_succ_self _
    · exact Nat.lt_succ_of_lt (h.below id hid)
  · obtain ⟨n,-,hnodes⟩ := addChild_nodes kind timestamp payload hp hne
    have hnew : st.nextId ∉ st.nodes.keys := fun hmem => h.fresh (AList.mem_keys.mpr hmem)
    have hkey : parent ∈ st.nextId :: st.nodes.keys := List.mem_cons_of_mem _ (AList.mem_keys.mp hp)
    rw [addChild_nextId,hnodes,AList.keys_insert,AList.keys_insert,List.erase_of_not_mem hnew,
      List.length_cons,List.length_erase_of_mem hkey,List.length_cons,← h.count]
    omega

/-- A node without a parent becomes the last root. -/
theorem Sound.addRoot (h : st.Sound) {st' : JournalTreeState} {n : JournalNode}
    (hid : n.id = st.nextId) (hchildren : n.children = []) (hparent : n.parent = none)
    (hnodes : st'.nodes = st.nodes.insert st.nextId n) (hroots : st'.roots = st.roots ++ [st.nextId])
    (hnext : st'.nextId = st.nextId + 1) : st'.Sound := by
  have hlinks : st'.links = st.links.attach none st.nextId := by
    refine Links.ext ?_ ?_ ?_
    · funext id
      simp only [links,hnodes,Links.attach]
      exact propext (AList.mem_insert st.nodes)
    · funext id
      simp only [links,hnodes,Links.attach,Function.update_apply]
      split
      · rename_i heq
        rw [heq,AList.lookup_insert]
        exact hparent
      · rename_i hne
        rw [AList.lookup_insert_ne hne]
    · funext p
      cases p with
      | none => exact hroots
      | some id =>
        simp only [links,Links.attach,Function.update_apply,childrenOf,hnodes,reduceCtorEq,
          if_false]
        by_cases heq : id = st.nextId
        · rw [heq,AList.lookup_insert,AList.lookup_eq_none.mpr h.fresh]
          exact hchildren
        · rw [AList.lookup_insert_ne heq]
  refine ⟨fun id m hm => ?_,?_,fun id hmem => ?_,?_⟩
  · rw [hnodes] at hm
    by_cases heq : id = st.nextId
    · rw [heq,AList.lookup_insert] at hm
      cases hm
      rw [hid,heq]
    · rw [AList.lookup_insert_ne heq] at hm
      exact h.keyed id m hm
  · rw [hlinks]
    exact h.forest.attach h.fresh nofun
  · rw [hnodes,AList.mem_insert] at hmem
    rw [hnext]
    rcases hmem with rfl | hmem
    · exact Nat.lt_succ_self _
    · exact Nat.lt_succ_of_lt (h.below id hmem)
  · have hnew : st.nextId ∉ st.nodes.keys := fun hmem => h.fresh (AList.mem_keys.mpr hmem)
    rw [hnodes,hnext,AList.keys_insert,List.erase_of_not_mem hnew,List.length_cons,h.count]

theorem sound_empty (h : st.nodes = ∅) (hroots : st.roots = []) (hnext : st.nextId = 1) :
    st.Sound := by
  have hlinks : st.links = ⟨∅,fun _ => none,fun _ => []⟩ := by
    refine Links.ext ?_ ?_ ?_
    · funext id
      simp only [links,h]
      exact propext ⟨fun hmem => absurd hmem (AList.notMem_empty id),fun hmem => hmem.elim⟩
    · funext id
      simp only [links,h,AList.lookup_empty,Option.bind_none]
    · funext p
      cases p with
      | none => exact hroots
      | some id => simp only [links,childrenOf,h,AList.lookup_empty,Option.map_none,Option.getD_none]
  refine ⟨fun id n hn => ?_,?_,fun id hmem => ?_,?_⟩
  · rw [h,AList.lookup_empty] at hn
    cases hn
  · rw [hlinks]
    exact Links.wellFormed_empty
  · rw [h] at hmem
    exact absurd hmem (AList.notMem_empty id)
  · rw [h,hnext]
    rfl

end JournalTreeState

/-! ## Rebuilding -/

structure Rebuild.Sound (b : Rebuild) : Prop where
  tree : b.tree.Sound
  turn : ∀ id, b.currentTurnId = some id → id ∈ b.tree.nodes
  assistant : ∀ id, b.currentAssistantId = some id → id ∈ b.tree.nodes

namespace Rebuild.Sound

variable {b : Rebuild} (h : b.Sound)
include h

theorem openTurn (timestamp : ℤ) :
    (b.openTurn timestamp).Sound ∧ b.tree.nextId ∈ (b.openTurn timestamp).tree.nodes := by
  have hmem : b.tree.nextId ∈ (b.openTurn timestamp).tree.nodes :=
    (AList.mem_insert b.tree.nodes).mpr (.inl rfl)
  refine ⟨⟨h.tree.addRoot (n := b.tree.turnNode timestamp (b.turnNumber + 1)) rfl rfl rfl rfl rfl rfl,
    fun id hid => ?_,nofun⟩,hmem⟩
  cases hid
  exact hmem

theorem ensureTurn (timestamp : ℤ) :
    (b.ensureTurn timestamp).1.Sound ∧
      (b.ensureTurn timestamp).2 ∈ (b.ensureTurn timestamp).1.tree.nodes := by
  rw [Rebuild.ensureTurn]
  split
  · rename_i id hid
    exact ⟨h,h.turn id hid⟩
  · have hkeep : ∀ id, id ∈ b.tree.nodes → id ∈ b.tree.nodes.insert b.tree.nextId
        (b.tree.turnNode timestamp (b.turnNumber + 1)) :=
      fun id hid => (AList.mem_insert b.tree.nodes).mpr (.inr hid)
    have hmem : b.tree.nextId ∈ b.tree.nodes.insert b.tree.nextId
        (b.tree.turnNode timestamp (b.turnNumber + 1)) :=
      (AList.mem_insert b.tree.nodes).mpr (.inl rfl)
    refine ⟨⟨h.tree.addRoot (n := b.tree.turnNode timestamp (b.turnNumber + 1)) rfl rfl rfl rfl rfl
      rfl,fun id hid => ?_,fun id hid => hkeep id (h.assistant id hid)⟩,hmem⟩
    cases hid
    exact hmem

/-- A node added below one that is there; the locals stay, or name the new node. -/
theorem addChild (kind : JournalNodeKind) (timestamp : ℤ) (payload : JournalNodePayload)
    {parent : JournalNodeId} (hp : parent ∈ b.tree.nodes) {assistant : Option JournalNodeId}
    (ha : assistant = b.currentAssistantId ∨ assistant = some b.tree.nextId) :
    Rebuild.Sound { b with
      tree := b.tree.addChild kind timestamp payload parent
      currentAssistantId := assistant } := by
  have hne : parent ≠ b.tree.nextId := Nat.ne_of_lt (h.tree.below parent hp)
  have hmem := JournalTreeState.mem_addChild kind timestamp payload hp hne
  refine ⟨h.tree.addChild kind timestamp payload hp,
    fun id hid => (hmem id).mpr (.inr (h.turn id hid)),fun id hid => (hmem id).mpr ?_⟩
  rcases ha with rfl | rfl
  · exact .inr (h.assistant id hid)
  · cases hid
    exact .inl rfl

theorem event (e : FlatEvent) : (b.event e).Sound := by
  cases e with
  | message msg =>
    rw [Rebuild.event]
    split
    · obtain ⟨hopen,hmem⟩ := h.openTurn msg.createdAt
      exact hopen.addChild .userMessage msg.createdAt (.message msg.role msg.content) hmem (.inl rfl)
    · split
      · obtain ⟨hturn,hmem⟩ := h.ensureTurn msg.createdAt
        exact hturn.addChild .assistantMessage msg.createdAt (.message msg.role msg.content) hmem
          (.inr rfl)
      · split
        · obtain ⟨hturn,hmem⟩ := h.ensureTurn msg.createdAt
          exact hturn.addChild .systemEvent msg.createdAt (.systemEvent msg.content) hmem (.inl rfl)
        · exact h
  | tool tool =>
    rw [Rebuild.event,Rebuild.toolExecution]
    split
    · exact h
    · rename_i parentId hparent
      have hmem : parentId ∈ b.tree.nodes := by
        rcases Option.or_eq_some_iff.mp hparent with ha | ⟨-,ht⟩
        · exact h.assistant parentId ha
        · exact h.turn parentId ht
      exact h.addChild _ _ _ hmem (.inl rfl)

theorem foldl (events : List FlatEvent) : (events.foldl Rebuild.event b).Sound := by
  induction events generalizing b with
  | nil => exact h
  | cons e events ih => exact ih (h.event e)

end Rebuild.Sound

namespace JournalTreeState

variable {st : JournalTreeState}

/-- What `Sound` speaks of is all that it depends on. -/
theorem Sound.congr (h : st.Sound) {st' : JournalTreeState} (hnodes : st'.nodes = st.nodes)
    (hroots : st'.roots = st.roots) (hnext : st'.nextId = st.nextId) : st'.Sound := by
  have hlinks : st'.links = st.links := by
    refine Links.ext ?_ ?_ ?_
    · simp only [links,hnodes]
    · simp only [links,hnodes]
    · funext p
      cases p with
      | none => exact hroots
      | some id => simp only [links,childrenOf,hnodes]
  refine ⟨?_,?_,?_,?_⟩
  · rw [hnodes]
    exact h.keyed
  · rw [hlinks]
    exact h.forest
  · rw [hnodes,hnext]
    exact h.below
  · rw [hnodes,hnext]
    exact h.count

theorem rebuildFromFlat_sound (st : JournalTreeState) (messages : List TuiMessage)
    (tools : List ToolExecutionEntry) : (st.rebuildFromFlat messages tools).Sound := by
  have hstart : Rebuild.Sound { tree := { st with nodes := ∅,roots := [],nextId := 1 } } :=
    ⟨sound_empty rfl rfl rfl,nofun,nofun⟩
  exact (hstart.foldl (flatEvents messages tools)).tree.congr rfl rfl rfl

theorem Sound.injectEvent (h : st.Sound) {spawnId : JournalNodeId} (hs : spawnId ∈ st.nodes)
    (e : FlatEvent) : (st.injectEvent spawnId e).Sound ∧ spawnId ∈ (st.injectEvent spawnId e).nodes := by
  have hne : spawnId ≠ st.nextId := Nat.ne_of_lt (h.below spawnId hs)
  have hadd : ∀ kind timestamp payload, (st.addChild kind timestamp payload spawnId).Sound ∧
      spawnId ∈ (st.addChild kind timestamp payload spawnId).nodes :=
    fun kind timestamp payload => ⟨h.addChild kind timestamp payload hs,
      (mem_addChild kind timestamp payload hs hne spawnId).mpr (.inr hs)⟩
  cases e with
  | message msg =>
    rw [JournalTreeState.injectEvent]
    split
    · exact hadd _ _ _
    · split
      · exact hadd _ _ _
      · exact hadd _ _ _
  | tool tool => exact hadd _ _ _

theorem Sound.injectSubagentActivity (h : st.Sound) (iter : Iteration) (agentId : String)
    (messages : List TuiMessage) (tools : List ToolExecutionEntry) :
    (st.injectSubagentActivity iter agentId messages tools).Sound := by
  rw [JournalTreeState.injectSubagentActivity]
  split
  · exact h
  · rename_i n hn
    have hvalue := (iter.perm _).mem_iff.mp (List.mem_of_find?_eq_some hn)
    obtain ⟨⟨id,m⟩,hentry,rfl⟩ := List.mem_map.mp hvalue
    have hlookup : st.nodes.lookup id = some m := AList.mem_lookup_iff.mpr hentry
    have hspawn : m.id ∈ st.nodes := by
      rw [h.keyed id m hlookup,← AList.lookup_isSome,hlookup]
      rfl
    have hfold : ∀ (events : List FlatEvent) (tree : JournalTreeState), tree.Sound →
        m.id ∈ tree.nodes → (events.foldl (fun st e => st.injectEvent m.id e) tree).Sound := by
      intro events
      induction events with
      | nil => exact fun tree ht _ => ht
      | cons e events ih =>
        intro tree ht hmem
        obtain ⟨ht',hmem'⟩ := ht.injectEvent hmem e
        exact ih _ ht' hmem'
    exact (hfold _ st h hspawn).congr rfl rfl rfl

end JournalTreeState

end Rullama.Tui
