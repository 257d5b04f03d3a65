import Rullama.Tui.JournalForest

/-! # The render list

The traversal returns on every tree that the operations build, and lists what is not hidden below a
collapsed node, depth first.
-/
namespace Rullama.Tui
open Forest (Links)

namespace JournalTreeState

/-! ## Well-formedness -/

/-- Every child is there, stands in one list once, and names the node it stands under. -/
structure IsForest (st : JournalTreeState) : Prop where
  mem_roots : ∀ id, id ∈ st.roots ↔ ∃ n, st.nodes.lookup id = some n ∧ n.parent = none
  roots_nodup : st.roots.Nodup
  child : ∀ id n, st.nodes.lookup id = some n → ∀ c ∈ n.children,
    ∃ m, st.nodes.lookup c = some m ∧ m.parent = some id
  once : ∀ id n, st.nodes.lookup id = some n → ∀ c ∈ n.children, n.children.count c = 1 ∧
    ∀ id' n', st.nodes.lookup id' = some n' → c ∈ n'.children → id' = id
  listed : ∀ c m p, st.nodes.lookup c = some m → m.parent = some p →
    ∃ n, st.nodes.lookup p = some n ∧ c ∈ n.children
  reachable : ∀ id ∈ st.nodes, ∃! ancestors, st.links.IsPath (ancestors ++ [id])
  below : ∀ id ∈ st.nodes, id < st.nextId

variable {st : JournalTreeState}

theorem mem_nodes_iff {id : JournalNodeId} : id ∈ st.nodes ↔ ∃ n, st.nodes.lookup id = some n := by
  rw [← AList.lookup_isSome,Option.isSome_iff_exists]

theorem mem_childrenOf {id c : JournalNodeId} :
    c ∈ st.childrenOf id ↔ ∃ n, st.nodes.lookup id = some n ∧ c ∈ n.children := by
  rw [childrenOf]
  cases st.nodes.lookup id with
  | none => simp
  | some n => simp

theorem Sound.isForest (h : st.Sound) : st.IsForest := by
  have hparent : ∀ {id n}, st.nodes.lookup id = some n → st.links.parent id = n.parent := by
    intro id n hn
    simp only [links,hn,Option.bind_some]
  have hbelow : ∀ {id n c}, st.nodes.lookup id = some n → c ∈ n.children →
      c ∈ st.nodes ∧ st.links.parent c = some id := fun hn hc =>
    (h.forest.mem_below (some _) _).mp (mem_childrenOf.mpr ⟨_,hn,hc⟩)
  refine ⟨fun id => ?_,h.forest.nodup none,fun id n hn c hc => ?_,fun id n hn c hc => ⟨?_,?_⟩,
    fun c m p hm hp => ?_,fun id hid => ?_,h.below⟩
  · refine (h.forest.mem_below none id).trans ⟨?_,?_⟩
    · rintro ⟨hmem,hnone⟩
      obtain ⟨n,hn⟩ := mem_nodes_iff.mp hmem
      exact ⟨n,hn,by rwa [← hparent hn]⟩
    · rintro ⟨n,hn,hnone⟩
      exact ⟨mem_nodes_iff.mpr ⟨n,hn⟩,by rwa [hparent hn]⟩
  · obtain ⟨hmem,hp⟩ := hbelow hn hc
    obtain ⟨m,hm⟩ := mem_nodes_iff.mp hmem
    exact ⟨m,hm,by rwa [← hparent hm]⟩
  · have hnodup : n.children.Nodup := by
      have := h.forest.nodup (some id)
      simpa only [links,childrenOf,hn,Option.map_some,Option.getD_some] using this
    exact List.count_eq_one_of_mem hnodup hc
  · intro id' n' hn' hc'
    have heq := (hbelow hn' hc').2.symm.trans (hbelow hn hc).2
    exact Option.some.inj heq
  · have hmem : c ∈ st.links.below (some p) :=
      (h.forest.mem_below (some p) c).mpr ⟨mem_nodes_iff.mpr ⟨m,hm⟩,by rwa [hparent hm]⟩
    exact mem_childrenOf.mp hmem
  · obtain ⟨as,has⟩ := h.forest.exists_path hid
    refine ⟨as,has,fun bs hbs => ?_⟩
    have heq := h.forest.path_unique hbs has (by rw [List.getLast?_concat,List.getLast?_concat])
    exact (List.append_left_inj [id]).mp heq

/-! ## Items -/

/-- The last in the list of its parent, or of the roots. -/
def isLast (st : JournalTreeState) (id : JournalNodeId) : Bool :=
  (st.links.below (st.links.parent id)).getLast? = some id

/-- How a node is listed that has these ancestors, the root first. -/
def item (st : JournalTreeState) (ancestors : List JournalNodeId) (id : JournalNodeId) :
    RenderItem where
  nodeId := id
  depth := ancestors.length
  isLastChild := st.isLast id
  ancestorHasMore := ancestors.map (fun a => !st.isLast a)
  isCollapsed := decide (id ∈ st.collapsed)
  hasChildren := !(st.childrenOf id).isEmpty

def pathItem (st : JournalTreeState) (path : List JournalNodeId) : RenderItem :=
  st.item path.dropLast (path.getLastD 0)

theorem pathItem_concat (as : List JournalNodeId) (id : JournalNodeId) :
    st.pathItem (as ++ [id]) = st.item as id := by
  rw [pathItem,List.dropLast_concat,List.getLastD_concat]

/-- The items stand for all nodes without a collapsed ancestor, each once and as it stands in the
tree. -/
structure Renders (st : JournalTreeState) (items : List RenderItem) : Prop where
  nodup : (items.map RenderItem.nodeId).Nodup
  mem : ∀ id, id ∈ items.map RenderItem.nodeId ↔
    ∃ ancestors, st.links.IsPath (ancestors ++ [id]) ∧ ∀ a ∈ ancestors, a ∉ st.collapsed
  depthFirst : items.Pairwise (fun i j => ∀ as bs, st.links.IsPath (as ++ [i.nodeId]) →
    st.links.IsPath (bs ++ [j.nodeId]) → st.links.Before (as ++ [i.nodeId]) (bs ++ [j.nodeId]))
  item : ∀ i ∈ items, ∀ ancestors, st.links.IsPath (ancestors ++ [i.nodeId]) →
    i = st.item ancestors i.nodeId

/-! ## The traversal -/

theorem mapM_eq_some {α β : Type*} {f : α → Option β} {g : α → β} {l : List α}
    (h : ∀ a ∈ l, f a = some (g a)) : l.mapM f = some (l.map g) := by
  induction l with
  | nil => rfl
  | cons a l ih =>
    obtain ⟨ha,hl⟩ := List.forall_mem_cons.mp h
    rw [List.mapM_cons,ha,ih hl]
    rfl

/-- The index of a sibling tells whether it is the last. -/
theorem index_last {l : List JournalNodeId} (hl : l.Nodup) {c i : ℕ} (h : (c,i) ∈ l.zipIdx) :
    decide (i = l.length - 1) = decide (l.getLast? = some c) := by
  rw [decide_eq_decide,List.getLast?_eq_getElem?]
  have hi : l[i]? = some c := List.mem_zipIdx_iff_getElem?.mp h
  have hlt : i < l.length := (List.getElem?_eq_some_iff.mp hi).1
  constructor
  · rintro rfl
    exact hi
  · intro hlast
    exact (List.getElem?_inj hlt hl).mp (hi.trans hlast.symm)

/-- The children of one node, each listed with what is under it. -/
theorem mapM_siblings (h : st.Sound) {p : List JournalNodeId}
    {rest : JournalNodeId → List (List JournalNodeId)} {f : JournalNodeId × ℕ → Option (List RenderItem)}
    (hf : ∀ c i, c ∈ st.links.below p.getLast? →
      decide (i = (st.links.below p.getLast?).length - 1) = st.isLast c →
      f (c,i) = some (((p ++ [c]) :: rest c).map st.pathItem)) :
    ((st.links.below p.getLast?).zipIdx.mapM f).map List.flatten =
      some (((st.links.below p.getLast?).flatMap (fun c => (p ++ [c]) :: rest c)).map
        st.pathItem) := by
  have hall : ∀ c ∈ (st.links.below p.getLast?).zipIdx,
      f c = some (((p ++ [c.1]) :: rest c.1).map st.pathItem) := by
    rintro ⟨c,i⟩ hc
    have hmem : c ∈ st.links.below p.getLast? := List.fst_mem_of_mem_zipIdx hc
    refine hf c i hmem ?_
    rw [index_last (h.forest.nodup _) hc,isLast,((h.forest.mem_below _ c).mp hmem).2]
  have hmap := List.map_map (f := Prod.fst) (l := (st.links.below p.getLast?).zipIdx)
    (g := fun c => ((p ++ [c]) :: rest c).map st.pathItem)
  rw [List.zipIdx_map_fst] at hmap
  rw [mapM_eq_some hall,Option.map_some,List.map_flatMap,List.flatMap_def,hmap]
  rfl

theorem exists_fuel {n id fuel : ℕ} (hlt : id < n) (h : n ≤ id + fuel) :
    ∃ k, fuel = k + 1 ∧ ∀ c, id < c → n ≤ c + k :=
  ⟨fuel - 1,by omega,fun c hc => by omega⟩

/-- Each node that has a path is listed first, then what is under it, unless it is collapsed. The
ids rise along every path, so the recursion is no deeper than there are ids. -/
theorem dfs_lists (h : st.Sound) {as : List JournalNodeId} {id : JournalNodeId}
    (hpath : st.links.IsPath (as ++ [id])) :
    ∃ rest, (∀ fuel, st.nextId ≤ id + fuel →
        st.dfs fuel id as.length (st.isLast id) (as.map (fun a => !st.isLast a)) =
          some (((as ++ [id]) :: rest).map st.pathItem)) ∧
      (id ∈ st.collapsed → rest = []) ∧
      (id ∉ st.collapsed → st.links.Lists (· ∈ st.collapsed) (as ++ [id]) rest) := by
  generalize hm : st.nextId - id = m
  induction m using Nat.strong_induction_on generalizing as id with
  | _ m ih =>
    have hmem : id ∈ st.nodes := h.forest.mem_carrier hpath (List.mem_append_right _ List.mem_cons_self)
    have hlt := h.below id hmem
    have hbelow : st.links.below (as ++ [id]).getLast? = st.childrenOf id := by
      rw [List.getLast?_concat]
      rfl
    have hitem : ∀ fuel (rest : List (List JournalNodeId)),
        (id ∈ st.collapsed ∨ st.childrenOf id = [] → rest = []) →
        (id ∉ st.collapsed → ((st.childrenOf id).zipIdx.mapM (fun c => st.dfs fuel c.1
          (as.length + 1) (c.2 = (st.childrenOf id).length - 1)
          (as.map (fun a => !st.isLast a) ++ [!st.isLast id]))).map List.flatten =
            some (rest.map st.pathItem)) →
        st.dfs (fuel + 1) id as.length (st.isLast id) (as.map (fun a => !st.isLast a)) =
          some (((as ++ [id]) :: rest).map st.pathItem) := by
      intro fuel rest hnone hsome
      rw [List.map_cons,pathItem_concat]
      simp only [dfs]
      split
      · rename_i hdown
        simp only [Bool.and_eq_true,Bool.not_eq_true',decide_eq_false_iff_not] at hdown
        obtain ⟨items,hitems,hflat⟩ := Option.map_eq_some_iff.mp (hsome hdown.2)
        rw [hitems,Option.map_some,hflat]
        rfl
      · rename_i hstop
        have hleaf : id ∈ st.collapsed ∨ st.childrenOf id = [] := by
          by_contra hnot
          rw [not_or] at hnot
          exact hstop (by simp [hnot.1,hnot.2])
        rw [hnone hleaf]
        rfl
    by_cases hcut : id ∈ st.collapsed
    · refine ⟨[],fun fuel hfuel => ?_,fun _ => rfl,fun hnot => absurd hcut hnot⟩
      obtain ⟨fuel,rfl,-⟩ := exists_fuel hlt hfuel
      exact hitem fuel [] (fun _ => rfl) (fun hnot => absurd hcut hnot)
    · have hchild : ∀ c ∈ st.childrenOf id, st.links.IsPath ((as ++ [id]) ++ [c]) ∧ id < c ∧
          c < st.nextId := by
        intro c hc
        have hc' : c ∈ st.links.below (as ++ [id]).getLast? := by rwa [hbelow]
        obtain ⟨hcmem,hparent⟩ := (h.forest.mem_below (some id) c).mp hc
        exact ⟨hpath.snoc hc',h.forest.parent_lt c hcmem id hparent,h.below c hcmem⟩
      have hih : ∀ c, c ∈ st.childrenOf id → ∃ rest, (∀ fuel, st.nextId ≤ c + fuel →
          st.dfs fuel c (as ++ [id]).length (st.isLast c)
            ((as ++ [id]).map (fun a => !st.isLast a)) =
            some ((((as ++ [id]) ++ [c]) :: rest).map st.pathItem)) ∧
          (c ∈ st.collapsed → rest = []) ∧
          (c ∉ st.collapsed → st.links.Lists (· ∈ st.collapsed) ((as ++ [id]) ++ [c]) rest) := by
        intro c hc
        obtain ⟨hcpath,hlt',hnext⟩ := hchild c hc
        have hless : st.nextId - c < m := hm ▸ Nat.sub_lt_sub_left (Nat.lt_trans hlt' hnext) hlt'
        exact ih (st.nextId - c) hless hcpath rfl
      choose! rest hrest hempty hlists using hih
      refine ⟨(st.childrenOf id).flatMap (fun c => ((as ++ [id]) ++ [c]) :: rest c),
        fun fuel hfuel => ?_,fun hc => absurd hc hcut,fun _ => ?_⟩
      · obtain ⟨fuel,rfl,hdeep⟩ := exists_fuel hlt hfuel
        refine hitem fuel _ (fun hleaf => ?_) (fun _ => ?_)
        · rw [hleaf.resolve_left hcut,List.flatMap_nil]
        · rw [← hbelow]
          refine mapM_siblings h (fun c i hc hlast => ?_)
          rw [hbelow] at hc
          have hdfs := hrest c hc fuel (hdeep c (hchild c hc).2.1)
          rw [List.length_append,List.map_append] at hdfs
          rw [hlast]
          exact hdfs
      · rw [← hbelow]
        refine Links.Lists.flatMap (fun c hc => ?_) hpath
        rw [hbelow] at hc
        exact ⟨hempty c hc,hlists c hc⟩

theorem renderItems_lists (h : st.Sound) :
    ∃ paths, (∀ fuel, st.nextId ≤ fuel → st.renderItems fuel = some (paths.map st.pathItem)) ∧
      st.links.Lists (· ∈ st.collapsed) [] paths := by
  have hroot : ∀ r, r ∈ st.links.below ([] : List JournalNodeId).getLast? →
      ∃ rest, (∀ fuel, st.nextId ≤ r + fuel → st.dfs fuel r 0 (st.isLast r) [] =
          some ((([] ++ [r]) :: rest).map st.pathItem)) ∧
        (r ∈ st.collapsed → rest = []) ∧
        (r ∉ st.collapsed → st.links.Lists (· ∈ st.collapsed) ([] ++ [r]) rest) :=
    fun r hr => dfs_lists h (Links.IsPath.nil.snoc hr)
  choose! rest hrest hempty hlists using hroot
  refine ⟨_,fun fuel hfuel => ?_,
    Links.Lists.flatMap (fun r hr => ⟨hempty r hr,hlists r hr⟩) Links.IsPath.nil⟩
  refine mapM_siblings (p := []) h (fun r i hr hlast => ?_)
  have hlen : decide (i = st.roots.length - 1) = st.isLast r := hlast
  simp only [hlen]
  exact hrest r hr fuel (Nat.le_add_left_of_le hfuel)

theorem Sound.renders (h : st.Sound) {paths : List (List JournalNodeId)}
    (hp : st.links.Lists (· ∈ st.collapsed) [] paths) : st.Renders (paths.map st.pathItem) := by
  have hlast : ∀ x ∈ paths, ∃ as id, x = as ++ [id] ∧ (st.pathItem x).nodeId = id ∧
      st.links.IsPath (as ++ [id]) ∧ ∀ a ∈ as, a ∉ st.collapsed := by
    intro x hx
    obtain ⟨s,hs,hxs,hpath,hcut⟩ := (hp.mem x).mp hx
    rw [List.nil_append] at hxs
    subst hxs
    obtain ⟨as,id,rfl⟩ := List.eq_nil_or_concat' x |>.resolve_left hs
    rw [List.dropLast_concat] at hcut
    exact ⟨as,id,rfl,by rw [pathItem_concat]; rfl,hpath,hcut⟩
  have hunique : ∀ {as bs : List JournalNodeId} {id}, st.links.IsPath (as ++ [id]) →
      st.links.IsPath (bs ++ [id]) → as = bs := by
    intro as bs id ha hb
    have heq := h.forest.path_unique ha hb (by rw [List.getLast?_concat,List.getLast?_concat])
    exact (List.append_left_inj [id]).mp heq
  refine ⟨?_,fun id => ⟨fun hid => ?_,?_⟩,?_,?_⟩
  · have hnodup := hp.nodup_last h.forest
    rw [List.Nodup,List.pairwise_map] at hnodup
    rw [List.Nodup,List.map_map,List.pairwise_map]
    refine hnodup.imp_of_mem (fun {x y} hx hy hne heq => hne ?_)
    obtain ⟨as,a,rfl,ha,-,-⟩ := hlast x hx
    obtain ⟨bs,b,rfl,hb,-,-⟩ := hlast y hy
    rw [List.getLast?_concat,List.getLast?_concat,← ha,← hb]
    exact congrArg some heq
  · rw [List.map_map] at hid
    obtain ⟨x,hx,hxid⟩ := List.mem_map.mp hid
    obtain ⟨as,a,rfl,ha,hpath,hcut⟩ := hlast x hx
    have heq : a = id := ha.symm.trans hxid
    rw [heq] at hpath
    exact ⟨as,hpath,hcut⟩
  · rintro ⟨as,hpath,hcut⟩
    rw [List.map_map]
    refine List.mem_map.mpr ⟨as ++ [id],(hp.mem _).mpr ⟨as ++ [id],by simp,rfl,hpath,?_⟩,?_⟩
    · rwa [List.dropLast_concat]
    · rw [Function.comp_apply,pathItem_concat]
      rfl
  · rw [List.pairwise_map]
    refine hp.ordered.imp_of_mem (fun {x y} hx hy hxy as bs has hbs => ?_)
    obtain ⟨as',a,rfl,ha,hpa,-⟩ := hlast x hx
    obtain ⟨bs',b,rfl,hb,hpb,-⟩ := hlast y hy
    rw [ha] at has ⊢
    rw [hb] at hbs ⊢
    rwa [hunique has hpa,hunique hbs hpb]
  · intro i hi as has
    obtain ⟨x,hx,rfl⟩ := List.mem_map.mp hi
    obtain ⟨as',a,rfl,ha,hpa,-⟩ := hlast x hx
    rw [ha] at has
    rw [pathItem_concat,hunique has hpa]
    rfl

/-! ## Runs -/

/-- The list that is kept is the list of the tree, unless it is marked dirty. -/
structure Kept (st : JournalTreeState) : Prop where
  sound : st.Sound
  renderList : st.renderListDirty = false → st.renderItems st.nextId = some st.renderList

theorem kept_new : Kept {} := ⟨sound_empty rfl rfl rfl,nofun⟩

theorem Sound.kept (h : st.Sound) (hdirty : st.renderListDirty = true) : st.Kept := by
  refine ⟨h,fun hclean => ?_⟩
  rw [hdirty] at hclean
  cases hclean

theorem Kept.marked (h : st.Kept) (collapsed : Finset JournalNodeId) :
    Kept { st with collapsed := collapsed,renderListDirty := true } :=
  Sound.kept (h.sound.congr rfl rfl rfl) rfl

theorem dfs_congr {st' : JournalTreeState} (hnodes : st'.nodes = st.nodes)
    (hcollapsed : st'.collapsed = st.collapsed) (fuel : ℕ) : st'.dfs fuel = st.dfs fuel := by
  obtain ⟨nodes,roots,collapsed⟩ := st
  cases hnodes
  cases hcollapsed
  induction fuel with
  | zero => rfl
  | succ fuel ih =>
    funext id depth isLast ancestorHasMore
    rw [dfs,dfs,ih]
    rfl

/-- The cursor makes no difference. -/
theorem Kept.cursor (h : st.Kept) (cursor : Option JournalNodeId) :
    Kept { st with cursor := cursor } := by
  refine ⟨h.sound.congr rfl rfl rfl,fun hclean => ?_⟩
  have hdfs := @dfs_congr st { st with cursor := cursor } rfl rfl st.nextId
  have hlist := h.renderList hclean
  rw [renderItems] at hlist ⊢
  rwa [hdfs]

theorem Kept.recompute (h : st.Kept) :
    ∃ st', st.recomputeRenderList = some st' ∧ st'.Kept ∧
      ∃ paths, st.links.Lists (· ∈ st.collapsed) [] paths ∧
        st'.renderList = paths.map st.pathItem ∧
        ∀ fuel, st.nextId ≤ fuel → st.renderItems fuel = some st'.renderList := by
  obtain ⟨paths,hitems,hlists⟩ := renderItems_lists h.sound
  have hnow := hitems st.nextId le_rfl
  rw [recomputeRenderList]
  split
  · refine ⟨{ st with renderList := paths.map st.pathItem,renderListDirty := false },?_,
      ⟨h.sound.congr rfl rfl rfl,fun _ => ?_⟩,paths,hlists,rfl,hitems⟩
    · rw [hnow,Option.map_some]
    · have hdfs := @dfs_congr st
        { st with renderList := paths.map st.pathItem,renderListDirty := false } rfl rfl st.nextId
      rw [renderItems] at hnow ⊢
      rwa [hdfs]
  · rename_i hclean
    have hlist := h.renderList (Bool.eq_false_iff.mpr hclean)
    rw [hnow,Option.some.injEq] at hlist
    refine ⟨st,rfl,h,paths,hlists,hlist.symm,fun fuel hfuel => ?_⟩
    rw [hitems fuel hfuel,hlist]

/-- What moves the cursor after the list is computed returns. -/
theorem Kept.moved (h : st.Kept) {move : JournalTreeState → JournalTreeState}
    (hmove : ∀ st, ∃ cursor, move st = { st with cursor := cursor }) :
    ∃ st', st.recomputeRenderList.map move = some st' ∧ st'.Kept := by
  obtain ⟨st',hst',hkept,-⟩ := h.recompute
  obtain ⟨cursor,hcursor⟩ := hmove st'
  refine ⟨move st',by rw [hst',Option.map_some],?_⟩
  rw [hcursor]
  exact hkept.cursor cursor

theorem Kept.collapse (h : st.Kept) (id : JournalNodeId) : (st.collapse id).Kept := by
  rw [JournalTreeState.collapse]
  split
  · exact h
  · exact h.marked _

theorem Kept.cursorCollapseOrParent (h : st.Kept) : st.cursorCollapseOrParent.Kept := by
  rw [JournalTreeState.cursorCollapseOrParent]
  split
  · exact h
  · split
    · exact h.collapse _
    · split
      · exact h.cursor _
      · exact h

theorem Kept.injectSubagentActivity (h : st.Kept) (iter : Iteration) (agentId : String)
    (messages : List TuiMessage) (tools : List ToolExecutionEntry) :
    (st.injectSubagentActivity iter agentId messages tools).Kept := by
  have hsound := h.sound.injectSubagentActivity iter agentId messages tools
  rw [JournalTreeState.injectSubagentActivity] at hsound ⊢
  split at hsound
  · exact h
  · exact hsound.kept rfl

theorem Kept.step (h : st.Kept) (op : JournalOp) : ∃ st', st.step op = some st' ∧ st'.Kept := by
  cases op with
  | markDirty => exact ⟨_,rfl,h.marked _⟩
  | rebuildIfStale messages tools =>
    refine ⟨_,rfl,?_⟩
    rw [rebuildIfStale]
    split
    · exact Sound.kept ((rebuildFromFlat_sound st messages tools).congr rfl rfl rfl) rfl
    · exact h
  | rebuildFromFlat messages tools =>
    exact ⟨_,rfl,(rebuildFromFlat_sound st messages tools).kept rfl⟩
  | injectSubagentActivity iter agentId messages tools =>
    exact ⟨_,rfl,h.injectSubagentActivity iter agentId messages tools⟩
  | renderList =>
    obtain ⟨st',hst',hkept,-⟩ := h.recompute
    exact ⟨st',hst',hkept⟩
  | cursorNext =>
    refine h.moved (fun st => ?_)
    dsimp only
    split
    · split
      · exact ⟨_,rfl⟩
      · exact ⟨st.cursor,rfl⟩
    · split
      · exact ⟨st.cursor,rfl⟩
      · exact ⟨_,rfl⟩
  | cursorPrev =>
    refine h.moved (fun st => ?_)
    dsimp only
    split
    · split
      · exact ⟨_,rfl⟩
      · exact ⟨st.cursor,rfl⟩
    · split
      · exact ⟨st.cursor,rfl⟩
      · exact ⟨_,rfl⟩
  | cursorFirst => exact h.moved (fun st => ⟨_,rfl⟩)
  | cursorLast => exact h.moved (fun st => ⟨_,rfl⟩)
  | cursorRenderIndex =>
    obtain ⟨st',hst',hkept,-⟩ := h.recompute
    exact ⟨st',hst',hkept⟩
  | toggleCollapse id => exact ⟨_,rfl,h.marked _⟩
  | expand id => exact ⟨_,rfl,h.marked _⟩
  | collapse id => exact ⟨_,rfl,h.collapse id⟩
  | cursorCollapseOrParent => exact ⟨_,rfl,h.cursorCollapseOrParent⟩

theorem Kept.run (h : st.Kept) (ops : List JournalOp) :
    ∃ st', ops.foldlM JournalTreeState.step st = some st' ∧ st'.Kept := by
  induction ops generalizing st with
  | nil => exact ⟨st,rfl,h⟩
  | cons op ops ih =>
    obtain ⟨st₁,hst₁,hkept⟩ := h.step op
    obtain ⟨st',hst',hkept'⟩ := ih hkept
    refine ⟨st',?_,hkept'⟩
    rw [List.foldlM_cons,hst₁]
    exact hst'

/-- Every run of operations returns, and in the tree that it leaves behind, the nodes are a forest
and the render list shows it. -/
theorem run_renders (ops : List JournalOp) :
    ∃ st, ops.foldlM JournalTreeState.step {} = some st ∧ st.IsForest ∧
      ∃ st', st.recomputeRenderList = some st' ∧ st.Renders st'.renderList ∧
        ∀ fuel, st.nextId ≤ fuel → st.renderItems fuel = some st'.renderList := by
  obtain ⟨st,hst,hkept⟩ := kept_new.run ops
  obtain ⟨st',hst',-,paths,hlists,hlist,hfuel⟩ := hkept.recompute
  refine ⟨st,hst,hkept.sound.isForest,st',hst',?_,hfuel⟩
  rw [hlist]
  exact hkept.sound.renders hlists

end JournalTreeState

end Rullama.Tui
