import Rullama.Tui.JournalPlaces

/-! # Events appended to the journal

Events are sorted by time, and of one time the messages stand before the tools. So an appended
message goes before a tool execution of the same time that was listed already. All other events
that are not earlier than what was listed are listed after it.
-/
namespace Rullama.Tui
open Sorting JournalTreeState

/-- Messages stand before tools. -/
def eventList (messages : List TuiMessage) (tools : List ToolExecutionEntry) : List FlatEvent :=
  messages.map FlatEvent.message ++ tools.map FlatEvent.tool

/-- The appended events are not earlier than any that was there. -/
def Later (messages : List TuiMessage) (tools : List ToolExecutionEntry)
    (newMessages : List TuiMessage) (newTools : List ToolExecutionEntry) : Prop :=
  ∀ o ∈ eventList messages tools, ∀ e ∈ eventList newMessages newTools, o.timestamp ≤ e.timestamp

/-- An appended message goes before a tool execution that was listed. -/
def Overtakes (messages : List TuiMessage) (tools : List ToolExecutionEntry)
    (newMessages : List TuiMessage) : Prop :=
  (∃ m ∈ messages, knownRole m.role = true) ∧
    ∃ t ∈ tools, ∃ m ∈ newMessages, knownRole m.role = true ∧ m.createdAt = t.executedAt

/-- The nodes that the activity of sub-agents has added. -/
def injectedNodes : JournalTreeState → List Injection → List JournalNodePayload
  | _,[] => []
  | st,i :: injections =>
    (if st.Spawned i.agentId then (flatEvents i.messages i.tools).map injectedNode else []) ++
      injectedNodes (st.inject i) injections

/-- As far as there are both, appended events are shown as what sub-agents have added. -/
def SameNodes (injected : List JournalNodePayload) (appended : List FlatEvent) : Prop :=
  ∀ pq ∈ injected.zip (appended.flatMap FlatEvent.nodes), pq.2 = some pq.1

variable {messages newMessages : List TuiMessage} {tools newTools : List ToolExecutionEntry}

theorem flatEvents_eq (messages : List TuiMessage) (tools : List ToolExecutionEntry) :
    flatEvents messages tools = byKey FlatEvent.timestamp (eventList messages tools) := rfl

theorem message_mem {m : TuiMessage} (h : m ∈ messages) (tools : List ToolExecutionEntry) :
    .message m ∈ eventList messages tools := List.mem_append_left _ (List.mem_map_of_mem h)

theorem tool_mem {t : ToolExecutionEntry} (h : t ∈ tools) (messages : List TuiMessage) :
    .tool t ∈ eventList messages tools := List.mem_append_right _ (List.mem_map_of_mem h)

def shownMessages (messages : List TuiMessage) : List FlatEvent :=
  (messages.map FlatEvent.message).filter FlatEvent.isShown

theorem shownMessages_append (messages newMessages : List TuiMessage) :
    shownMessages (messages ++ newMessages) = shownMessages messages ++ shownMessages newMessages := by
  rw [shownMessages,List.map_append,List.filter_append]
  rfl

theorem filter_eventList (messages : List TuiMessage) (tools : List ToolExecutionEntry) :
    (eventList messages tools).filter FlatEvent.isShown =
      shownMessages messages ++ tools.map FlatEvent.tool := by
  rw [eventList,List.filter_append,shownMessages]
  refine congrArg (_ ++ ·) (List.filter_eq_self.mpr (fun e he => ?_))
  obtain ⟨t,-,rfl⟩ := List.mem_map.mp he
  rfl

/-! ## Appended at the end -/

theorem flatEvents_append (hlater : Later messages tools newMessages newTools)
    (h : ∀ t ∈ tools, ∀ m ∈ newMessages, knownRole m.role = true → m.createdAt ≠ t.executedAt) :
    (flatEvents (messages ++ newMessages) (tools ++ newTools)).filter FlatEvent.isShown =
      (flatEvents messages tools).filter FlatEvent.isShown ++
        (flatEvents newMessages newTools).filter FlatEvent.isShown := by
  rw [flatEvents_eq,flatEvents_eq,flatEvents_eq,filter_byKey,filter_byKey,filter_byKey,
    ← byKey_append]
  · refine byKey_congr (fun k => ?_)
    -- Of one time there are no appended messages or no listed tools to change places.
    have hswap : run FlatEvent.timestamp k (shownMessages newMessages) = [] ∨
        run FlatEvent.timestamp k (tools.map FlatEvent.tool) = [] := by
      by_contra hboth
      rw [not_or] at hboth
      obtain ⟨e,he⟩ := List.exists_mem_of_ne_nil _ hboth.1
      obtain ⟨e',he'⟩ := List.exists_mem_of_ne_nil _ hboth.2
      obtain ⟨hin,htime⟩ := mem_run.mp he
      obtain ⟨hin',htime'⟩ := mem_run.mp he'
      obtain ⟨hnew,hshown⟩ := List.mem_filter.mp hin
      obtain ⟨m,hm,rfl⟩ := List.mem_map.mp hnew
      obtain ⟨t,ht,rfl⟩ := List.mem_map.mp hin'
      exact h t ht m hm hshown (htime.trans htime'.symm)
    rw [filter_eventList,filter_eventList,filter_eventList,shownMessages_append,List.map_append]
    simp only [run_append,List.append_assoc]
    rcases hswap with hnil | hnil <;> simp only [hnil,List.nil_append]
  · intro o ho e he
    exact hlater o (List.mem_filter.mp ho).1 e (List.mem_filter.mp he).1

theorem listing_append_later (hlater : Later messages tools newMessages newTools)
    (h : ∀ t ∈ tools, ∀ m ∈ newMessages, knownRole m.role = true → m.createdAt ≠ t.executedAt) :
    listing 0 (flatEvents (messages ++ newMessages) (tools ++ newTools)) =
      listing 0 (flatEvents messages tools) ++
        listing ((flatEvents messages tools).foldl turnsAfter 0)
          (flatEvents newMessages newTools) := by
  rw [← listing_filter,flatEvents_append hlater h,listing_append,listing_filter,
    turnsAfter_filter,listing_filter]

/-! ## Overtaking -/

section Overtaking

variable {k : ℤ}

/-- The listed events without the tools of the last time. -/
def firsts (messages : List TuiMessage) (tools : List ToolExecutionEntry) (k : ℤ) :
    List FlatEvent :=
  messages.map FlatEvent.message ++ others FlatEvent.timestamp k (tools.map FlatEvent.tool)

def lasts (tools : List ToolExecutionEntry) (k : ℤ) : List FlatEvent :=
  run FlatEvent.timestamp k (tools.map FlatEvent.tool)

/-- The appended messages of that time. -/
def between (newMessages : List TuiMessage) (k : ℤ) : List FlatEvent :=
  run FlatEvent.timestamp k (shownMessages newMessages)

def rest (newMessages : List TuiMessage) (newTools : List ToolExecutionEntry) (k : ℤ) :
    List FlatEvent :=
  others FlatEvent.timestamp k (shownMessages newMessages) ++ newTools.map FlatEvent.tool

theorem timestamp_firsts (hold : ∀ o ∈ eventList messages tools, o.timestamp ≤ k) :
    ∀ o ∈ firsts messages tools k, o.timestamp ≤ k := by
  intro o ho
  rcases List.mem_append.mp ho with ho | ho
  · exact hold o (List.mem_append_left _ ho)
  · exact hold o (List.mem_append_right _ (mem_others.mp ho).1)

theorem timestamp_lasts : ∀ o ∈ lasts tools k, o.timestamp = k := fun _ ho => (mem_run.mp ho).2

theorem timestamp_between : ∀ e ∈ between newMessages k, e.timestamp = k :=
  fun _ he => (mem_run.mp he).2

theorem timestamp_rest (hnew : ∀ e ∈ eventList newMessages newTools, k ≤ e.timestamp) :
    ∀ e ∈ rest newMessages newTools k, k ≤ e.timestamp := by
  intro e he
  rcases List.mem_append.mp he with he | he
  · have hmem := (List.mem_filter.mp (mem_others.mp he).1).1
    exact hnew e (List.mem_append_left _ hmem)
  · exact hnew e (List.mem_append_right _ he)

/-- The tools of the last time come last. -/
theorem flatEvents_lasts (hold : ∀ o ∈ eventList messages tools, o.timestamp ≤ k) :
    flatEvents messages tools = byKey FlatEvent.timestamp (firsts messages tools k) ++
      byKey FlatEvent.timestamp (lasts tools k) := by
  rw [flatEvents_eq,← byKey_append]
  · refine byKey_congr (fun j => ?_)
    simp only [eventList,firsts,lasts,run_append,List.append_assoc]
    by_cases hj : j = k
    · rw [hj,run_others_self,run_run_self,List.nil_append]
    · rw [run_others_of_ne hj,run_run_of_ne hj,List.append_nil]
  · intro o ho e he
    rw [timestamp_lasts e he]
    exact timestamp_firsts hold o ho

theorem filter_firsts : (firsts messages tools k).filter FlatEvent.isShown =
    shownMessages messages ++ others FlatEvent.timestamp k (tools.map FlatEvent.tool) := by
  rw [firsts,List.filter_append,shownMessages]
  refine congrArg (_ ++ ·) (List.filter_eq_self.mpr (fun e he => ?_))
  obtain ⟨t,-,rfl⟩ := List.mem_map.mp (mem_others.mp he).1
  rfl

/-- The appended messages of that time come before these tools. -/
theorem flatEvents_overtaken (hold : ∀ o ∈ eventList messages tools, o.timestamp ≤ k)
    (hnew : ∀ e ∈ eventList newMessages newTools, k ≤ e.timestamp) :
    (flatEvents (messages ++ newMessages) (tools ++ newTools)).filter FlatEvent.isShown =
      (byKey FlatEvent.timestamp (firsts messages tools k)).filter FlatEvent.isShown ++
        (byKey FlatEvent.timestamp (between newMessages k) ++
          byKey FlatEvent.timestamp (lasts tools k ++ rest newMessages newTools k)) := by
  have hafter : ∀ e ∈ lasts tools k ++ rest newMessages newTools k, k ≤ e.timestamp := by
    intro e he
    rcases List.mem_append.mp he with he | he
    · exact Int.le_of_eq (timestamp_lasts e he).symm
    · exact timestamp_rest hnew e he
  rw [flatEvents_eq,filter_byKey,filter_byKey,← byKey_append,← byKey_append]
  · refine byKey_congr (fun j => ?_)
    rw [filter_eventList,filter_firsts,shownMessages_append,List.map_append]
    simp only [between,rest,lasts,run_append,List.append_assoc]
    by_cases hj : j = k
    · rw [hj,run_others_self,run_run_self,run_run_self,run_others_self,List.nil_append,
        List.nil_append]
    · -- At another time there are only old tools or only appended messages.
      have hnone : run FlatEvent.timestamp j (shownMessages newMessages) = [] ∨
          run FlatEvent.timestamp j (tools.map FlatEvent.tool) = [] := by
        rcases lt_or_gt_of_ne hj with hlt | hgt
        · refine .inl (run_eq_nil (fun e he => ?_))
          have hle := hnew e (List.mem_append_left _ (List.mem_filter.mp he).1)
          exact ne_of_gt (lt_of_lt_of_le hlt hle)
        · refine .inr (run_eq_nil (fun e he => ?_))
          have hle := hold e (List.mem_append_right _ he)
          exact ne_of_lt (lt_of_le_of_lt hle hgt)
      rw [run_others_of_ne hj,run_run_of_ne hj,run_run_of_ne hj,run_others_of_ne hj,
        List.nil_append,List.nil_append]
      rcases hnone with hnil | hnil <;> rw [hnil,List.nil_append,List.nil_append]
  · intro o ho e he
    have hle := timestamp_firsts hold o (List.mem_filter.mp ho).1
    rcases List.mem_append.mp he with he | he
    · exact hle.trans (Int.le_of_eq (timestamp_between e he).symm)
    · exact hle.trans (hafter e he)
  · intro e he e' he'
    rw [timestamp_between e he]
    exact hafter e' he'

end Overtaking

theorem exists_cons_of_mem {α : Type*} {l : List α} {a : α} (h : a ∈ l) :
    ∃ b l', l = b :: l' ∧ b ∈ l := by
  cases l with
  | nil => cases h
  | cons b l => exact ⟨b,l,rfl,List.mem_cons_self⟩

/-- Where an appended message goes before a listed tool, a node that is no tool has its id. -/
theorem exists_overtaken (hlater : Later messages tools newMessages newTools)
    (hover : Overtakes messages tools newMessages) :
    ∃ (i : ℕ) (p q : JournalNodePayload), (listing 0 (flatEvents messages tools))[i]? = some p ∧
      (listing 0 (flatEvents (messages ++ newMessages) (tools ++ newTools)))[i]? = some q ∧
      q ≠ p := by
  obtain ⟨⟨m₀,hm₀,hopens₀⟩,t,ht,m,hm,hopens,htime⟩ := hover
  have hold : ∀ o ∈ eventList messages tools, o.timestamp ≤ t.executedAt := by
    intro o ho
    rw [← htime]
    exact hlater o ho (.message m) (message_mem hm newTools)
  have hnew : ∀ e ∈ eventList newMessages newTools, t.executedAt ≤ e.timestamp :=
    fun e he => hlater (.tool t) (tool_mem ht messages) e he
  let firstEvents := byKey FlatEvent.timestamp (firsts messages tools t.executedAt)
  have hturns : firstEvents.foldl turnsAfter 0 ≠ 0 := by
    have hmem : FlatEvent.message m₀ ∈ firstEvents :=
      mem_byKey.mpr (List.mem_append_left _ (List.mem_map_of_mem hm₀))
    exact Nat.ne_of_gt (foldl_turnsAfter_pos hmem hopens₀ 0)
  have htool : FlatEvent.tool t ∈ byKey FlatEvent.timestamp (lasts tools t.executedAt) :=
    mem_byKey.mpr (mem_run.mpr ⟨List.mem_map_of_mem ht,rfl⟩)
  have hmessage : FlatEvent.message m ∈
      byKey FlatEvent.timestamp (between newMessages t.executedAt) := by
    refine mem_byKey.mpr (mem_run.mpr ⟨List.mem_filter.mpr ⟨List.mem_map_of_mem hm,?_⟩,htime⟩)
    exact hopens
  obtain ⟨e,es,hlasts,he⟩ := exists_cons_of_mem htool
  obtain ⟨e',es',hbetween,he'⟩ := exists_cons_of_mem hmessage
  obtain ⟨t',-,rfl⟩ := List.mem_map.mp (mem_run.mp (mem_byKey.mp he)).1
  obtain ⟨m',-,rfl⟩ := List.mem_map.mp
    (List.mem_filter.mp (mem_run.mp (mem_byKey.mp he')).1).1
  have hopens' : (FlatEvent.message m').opens = true :=
    (List.mem_filter.mp (mem_run.mp (mem_byKey.mp he')).1).2
  obtain ⟨q,qs,hq,hnotTool⟩ := shownNodes_of_opens hopens' hturns
  refine ⟨(listing 0 firstEvents).length,t'.node,q,?_,?_,?_⟩
  · rw [flatEvents_lasts hold,listing_append,List.getElem?_append_right (Nat.le_refl _),
      Nat.sub_self,hlasts,listing,shownNodes,if_neg hturns]
    rfl
  · rw [← listing_filter,flatEvents_overtaken hold hnew,listing_append,listing_filter,
      turnsAfter_filter,List.getElem?_append_right (Nat.le_refl _),Nat.sub_self,hbetween,
      List.cons_append,listing,hq]
    rfl
  · rintro rfl
    rw [isTool_node] at hnotTool
    cases hnotTool

/-! ## Injected nodes -/

section Injected

variable {st : JournalTreeState} {ps : List JournalNodePayload}

theorem injectAll_lists (h : st.Lists ps) (hs : st.Sound) (injections : List Injection) :
    (st.injectAll injections).Lists (ps ++ injectedNodes st injections) := by
  induction injections generalizing st ps with
  | nil =>
    rw [injectedNodes,List.append_nil]
    exact h
  | cons i injections ih =>
    have hstep := h.injectSubagentActivity hs i.iter i.agentId i.messages i.tools
    have hsound := hs.injectSubagentActivity i.iter i.agentId i.messages i.tools
    rw [injectedNodes,← List.append_assoc]
    exact ih hstep hsound

theorem face_of_mem_injectedNodes {injections : List Injection} {p : JournalNodePayload}
    (hp : p ∈ injectedNodes st injections) : p.face = some p := by
  induction injections generalizing st with
  | nil => cases hp
  | cons i injections ih =>
    rcases List.mem_append.mp hp with hp | hp
    · split at hp
      · obtain ⟨e,-,rfl⟩ := List.mem_map.mp hp
        exact face_injectedNode e
      · cases hp
    · exact ih hp

/-- A tree without nodes has none to put the activity of a sub-agent under. -/
theorem injectedNodes_eq_nil (h : st.Lists []) (hs : st.Sound) (injections : List Injection) :
    injectedNodes st injections = [] := by
  induction injections generalizing st with
  | nil => rfl
  | cons i injections ih =>
    have hnot : ¬ st.Spawned i.agentId := by
      rintro ⟨n,hn,-⟩
      obtain ⟨⟨id,m⟩,hentry,-⟩ := List.mem_map.mp hn
      have hmem : id ∈ st.nodes := by
        rw [← AList.lookup_isSome,AList.mem_lookup_iff.mpr hentry]
        rfl
      obtain ⟨j,p,-,hp⟩ := h.mem_nodes_iff.mp hmem
      cases hp
    have hstep := h.injectSubagentActivity hs i.iter i.agentId i.messages i.tools
    have hsound := hs.injectSubagentActivity i.iter i.agentId i.messages i.tools
    rw [if_neg hnot] at hstep
    rw [injectedNodes,if_neg hnot,List.nil_append]
    exact ih hstep hsound

end Injected

/-! ## Agreement -/

theorem agree_append_iff {ps qs rs : List JournalNodePayload} :
    Agree (ps ++ qs) (ps ++ rs) ↔ Agree qs rs := by
  constructor
  · intro h i p q hp hq
    refine h (ps.length + i) p q ?_ ?_
    · rw [List.getElem?_append_right (Nat.le_add_right _ _),Nat.add_sub_cancel_left,hp]
    · rw [List.getElem?_append_right (Nat.le_add_right _ _),Nat.add_sub_cancel_left,hq]
  · intro h i p q hp hq
    rcases Nat.lt_or_ge i ps.length with hlt | hle
    · rw [List.getElem?_append_left hlt] at hp hq
      rw [hp] at hq
      exact (Option.some_inj.mp hq).symm
    · rw [List.getElem?_append_right hle] at hp hq
      exact h _ p q hp hq

theorem agree_iff_sameNodes {injected : List JournalNodePayload} {events : List FlatEvent}
    {turns : ℕ} (hface : ∀ p ∈ injected, p.face = some p) (hturns : turns ≠ 0) :
    Agree injected (listing turns events) ↔ SameNodes injected events := by
  have hsame (p q : JournalNodePayload) (hp : p.face = some p) : q.face = some p ↔ q = p := by
    constructor
    · intro h
      cases q with
      | turn n => cases h
      | message role content => exact Option.some_inj.mp h
      | tool n a r s d => exact Option.some_inj.mp h
      | subAgentSpawn a t => exact Option.some_inj.mp h
      | systemEvent d => exact Option.some_inj.mp h
    · rintro rfl
      exact hp
  rw [SameNodes,← map_face_listing hturns,List.zip_map_right,List.forall_mem_map]
  constructor
  · rintro h ⟨p,q⟩ hpq
    obtain ⟨i,hi⟩ := List.mem_iff_getElem?.mp hpq
    obtain ⟨hp,hq⟩ := List.getElem?_zip_eq_some.mp hi
    exact (hsame p q (hface p (List.mem_of_getElem? hp))).mpr (h i p q hp hq)
  · intro h i p q hp hq
    have hmem : (p,q) ∈ injected.zip (listing turns events) :=
      List.mem_iff_getElem?.mpr ⟨i,List.getElem?_zip_eq_some.mpr ⟨hp,hq⟩⟩
    exact (hsame p q (hface p (List.mem_of_getElem? hp))).mp (h (p,q) hmem)

/-! ## The place of the user -/

/-- The user's place is kept exactly if no appended message goes before a listed tool, and no
appended event takes an id from a different event of a sub-agent. -/
theorem placeKept_iff (st : JournalTreeState) (messages : List TuiMessage)
    (tools : List ToolExecutionEntry) (injections : List Injection)
    (newMessages : List TuiMessage) (newTools : List ToolExecutionEntry)
    (hlater : Later messages tools newMessages newTools) :
    PlaceKept st messages tools injections newMessages newTools ↔
      ¬ Overtakes messages tools newMessages ∧
        SameNodes (injectedNodes (st.rebuildFromFlat messages tools) injections)
          (flatEvents newMessages newTools) := by
  have hbuilt := rebuildFromFlat_lists st messages tools
  have hsound := rebuildFromFlat_sound st messages tools
  have hlists := injectAll_lists hbuilt hsound injections
  rw [PlaceKept,keepsPlace_iff_agree hlists]
  by_cases hover : Overtakes messages tools newMessages
  · refine iff_of_false (fun h => ?_) (fun h => h.1 hover)
    obtain ⟨i,p,q,hp,hq,hne⟩ := exists_overtaken hlater hover
    refine hne (h i p q ?_ hq)
    rw [List.getElem?_append_left (List.getElem?_eq_some_iff.mp hp).1,hp]
  · rw [and_iff_right hover]
    by_cases hopen : ∃ m ∈ messages, knownRole m.role = true
    · obtain ⟨m,hm,hrole⟩ := hopen
      have hturns : (flatEvents messages tools).foldl turnsAfter 0 ≠ 0 := by
        have hmem : FlatEvent.message m ∈ flatEvents messages tools :=
          mem_byKey.mpr (message_mem hm tools)
        exact Nat.ne_of_gt (foldl_turnsAfter_pos hmem hrole 0)
      have hnot : ∀ t ∈ tools, ∀ m ∈ newMessages, knownRole m.role = true →
          m.createdAt ≠ t.executedAt :=
        fun t ht m' hm' hrole' htime => hover ⟨⟨m,hm,hrole⟩,t,ht,m',hm',hrole',htime⟩
      rw [listing_append_later hlater hnot,agree_append_iff]
      exact agree_iff_sameNodes (fun p hp => face_of_mem_injectedNodes hp) hturns
    · -- Nothing opened a turn, so the tree has no nodes.
      have hnil : listing 0 (flatEvents messages tools) = [] := by
        refine listing_eq_nil (fun e he => ?_)
        rcases List.mem_append.mp (mem_byKey.mp he) with he | he
        · obtain ⟨m,hm,rfl⟩ := List.mem_map.mp he
          cases hrole : knownRole m.role with
          | false => exact hrole
          | true => exact absurd ⟨m,hm,hrole⟩ hopen
        · obtain ⟨t,-,rfl⟩ := List.mem_map.mp he
          rfl
      have hinjected : injectedNodes (st.rebuildFromFlat messages tools) injections = [] :=
        injectedNodes_eq_nil (hnil ▸ hbuilt) hsound injections
      rw [hnil,hinjected]
      refine iff_of_true (fun i p q hp _ => ?_) (fun pq hpq => ?_)
      · cases hp
      · cases hpq

/-- A request, and the tool execution that answers it in the same second. -/
def listRequest : TuiMessage := ⟨"user","list the files",10⟩

def listing10 : ToolExecutionEntry := ⟨"list_directory",".","3 entries",true,10,none⟩

def answer (createdAt : ℤ) : TuiMessage := ⟨"assistant","There are three.",createdAt⟩

theorem later_answer {createdAt : ℤ} (h : 10 ≤ createdAt) :
    Later [listRequest] [listing10] [answer createdAt] [] := by
  intro o ho e he
  have hlast : e = .message (answer createdAt) := by simpa [eventList] using he
  have hfirst : o = .message listRequest ∨ o = .tool listing10 := by simpa [eventList] using ho
  rw [hlast]
  rcases hfirst with rfl | rfl
  · exact h
  · exact h

theorem laterAnswer_placeKept_iff :
    PlaceKept {} [listRequest] [listing10] [] [answer 11] [] ↔
      ¬ Overtakes [listRequest] [listing10] [answer 11] ∧
        SameNodes (injectedNodes (JournalTreeState.rebuildFromFlat {} [listRequest] [listing10]) [])
          (flatEvents [answer 11] []) :=
  placeKept_iff {} [listRequest] [listing10] [] [answer 11] [] (later_answer (by decide))

/-- The answer of the same second takes the id of the tool. -/
theorem answer_not_placeKept : Later [listRequest] [listing10] [answer 10] [] ∧
    ¬ PlaceKept {} [listRequest] [listing10] [] [answer 10] [] := by
  refine ⟨later_answer (by decide),fun h => ?_⟩
  have hbefore : flatEvents [listRequest] [listing10] = [.message listRequest,.tool listing10] :=
    byKey_of_sorted (by decide)
  have hafter : flatEvents [listRequest,answer 10] [listing10] =
      [.message listRequest,.message (answer 10),.tool listing10] :=
    byKey_of_sorted (by decide)
  have hlists := injectAll_lists (rebuildFromFlat_lists {} [listRequest] [listing10])
    (rebuildFromFlat_sound {} [listRequest] [listing10]) []
  have hagree := (keepsPlace_iff_agree hlists [listRequest,answer 10] [listing10]).mp h
  have hanswer := hagree 2 listing10.node (.message "assistant" "There are three.")
    (by rw [hbefore]; rfl) (by rw [hafter]; rfl)
  cases hanswer

end Rullama.Tui
