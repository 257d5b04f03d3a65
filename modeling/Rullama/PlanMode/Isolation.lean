import Rullama.PlanMode.State

/-! # What plan mode keeps apart

Runs of entries, inputs, clears and exits. Beside the agent stand the main conversation as the
last entry met it and the plan's conversation as the last exit left it.
-/
namespace Rullama.PlanMode
open Agent (Message PlanModeStream)
open Transition

structure Session where
  agent : AgentState
  /-- ghost: the main conversation at the last entry -/
  entered : Option SavedMainContext := none
  /-- ghost: the conversation of the plan at the last exit -/
  left : Option (List DisplayMessage × List Message) := none

inductive PlanEvent where
  | enter (focus : Option String) (o : EnterOutcome) (now : ℤ)
  | input (content : String) (stream : PlanModeStream) (now later : ℤ)
  | clear (o : StoreOutcome) (now : ℤ)
  | exit (o : StoreOutcome) (now : ℤ)

namespace AgentState

def planConversation (a : AgentState) : List DisplayMessage × List Message :=
  (a.messages,withoutSystem a.conversationHistory)

/-- The state but for the time the plan was updated. -/
def timeless (a : AgentState) : AgentState :=
  { a with planModeState := a.planModeState.map (PlanModeState.touch · 0) }

end AgentState

namespace Session
variable (T : Texts) (s : Session)

def next : PlanEvent → Session
  | .enter focus o now =>
    let a := (s.agent.enterPlanMode T focus o now).1
    { s with
      agent := a
      entered := if !s.agent.isPlanMode && a.isPlanMode then some s.agent.savedContext
        else s.entered }
  | .input content stream now later =>
    { s with agent := (s.agent.processPlanModeInput T content stream now later).1 }
  | .clear o now => { s with agent := (s.agent.clearPlanMode o now).1 }
  | .exit o now =>
    let a := (s.agent.exitPlanMode o now).1
    { s with
      agent := a
      left := if s.agent.isPlanMode && !a.isPlanMode then some s.agent.planConversation
        else s.left }

/-- An entry brings back the plan of the last exit; an input is offered tools of the list; an
exit from plan mode brings back the main conversation of the entry, or fails and changes
nothing. -/
def Isolated : PlanEvent → Prop
  | .enter focus o now =>
    let a := (s.agent.enterPlanMode T focus o now).1
    s.agent.isPlanMode = false → a.isPlanMode = true → ∀ plan, s.left = some plan →
      a.planConversation = plan
  | .input content stream now later =>
    ∀ tools, (s.agent.processPlanModeInput T content stream now later).2 = .ok tools →
      ∀ tool ∈ tools, tool.name ∈ readOnlyTools
  | .clear _ _ => True
  | .exit o now =>
    let a := (s.agent.exitPlanMode o now).1
    s.agent.isPlanMode = true → match (s.agent.exitPlanMode o now).2 with
      | .panicked => False
      | .returned (.error _) => a.timeless = s.agent.timeless
      | .returned (.ok _) => a.isPlanMode = false ∧ ∃ main, s.entered = some main ∧
          a.messages = main.messages ∧ a.conversationHistory = main.conversationHistory ∧
            a.status = main.status

end Session

/-- The summary of the plan can be cut after 500 bytes. -/
def Cuttable (messages : List DisplayMessage) : Prop :=
  ∀ m, lastLongReply messages = some m → looksLikePlan m.content = true →
    500 < m.content.utf8ByteSize → isCharBoundary m.content.toList 500 = true

/-- A plan that is entered again was empty when it was left; no tool outside the list has a name
with one of the list in it; an exit reaches the database and can cut its summary. -/
def Session.Sheltered (T : Texts) (s : Session) : PlanEvent → Prop
  | .enter _ o _ => s.agent.isPlanMode = false → o.opened = .ok () →
    ∀ plan, s.left = some plan → plan = ([],[])
  | .input _ _ _ _ => s.agent.isPlanMode = true →
    ∀ tool ∈ s.agent.tools, AgentState.matchesReadOnly T tool = true → tool.name ∈ readOnlyTools
  | .clear _ _ => True
  | .exit o _ => s.agent.isPlanMode = true → o.opened = .ok () ∧ Cuttable s.agent.messages

def planMode (T : Texts) : Machine Session PlanEvent where
  enabled := fun _ _ => True
  next := Session.next T

/-! ## The summary -/

theorem generatePlanSummary_isSome_iff (messages : List DisplayMessage) :
    (generatePlanSummary messages).isSome = true ↔ Cuttable messages := by
  unfold generatePlanSummary Cuttable
  cases lastLongReply messages with
  | none => simp
  | some m =>
    by_cases hplan : looksLikePlan m.content = true
    · by_cases hlong : 500 < m.content.utf8ByteSize
      · simp [hplan,hlong,byteSlice_isSome]
      · simp [hplan,hlong]
    · simp [hplan]

/-! ## The table -/

/-- Plans that can be found again have no conversation. -/
def Blank (rows : List PlanModeState) : Prop :=
  ∀ row ∈ rows, row.active = true → row.messages = [] ∧ row.conversationHistory = []

theorem Blank.save {rows : List PlanModeState} (h : Blank rows) {plan : PlanModeState}
    (hplan : plan.active = true → plan.messages = [] ∧ plan.conversationHistory = [])
    (o : SaveOutcome) : Blank (save rows plan o) := by
  have hdelete : Blank (delete rows plan.planSessionId o.deleted) := by
    unfold delete
    split
    · exact h
    · exact fun row hrow => h row (List.mem_of_mem_filter hrow)
  unfold PlanMode.save
  dsimp only
  split
  · exact hdelete
  · intro row hrow
    rcases List.mem_append.mp hrow with hrow | hrow
    · exact hdelete row hrow
    · cases List.mem_singleton.mp hrow
      exact hplan

theorem mem_of_getByMainSession {rows : List PlanModeState} {mainSessionId : String}
    {plan : PlanModeState} (h : getByMainSession rows mainSessionId = some plan) :
    plan ∈ rows ∧ plan.active = true := by
  have hmem := List.mem_of_mem_head? h
  rw [List.mem_insertionSort,List.mem_filter,Bool.and_eq_true] at hmem
  exact ⟨hmem.1,hmem.2.2⟩

/-- Whatever an entry finds or makes is active and has no conversation yet. -/
theorem planToEnter_spec {a : AgentState} (h : Blank a.rows) (focus : Option String)
    (o : EnterOutcome) (now : ℤ) :
    (a.planToEnter focus o now).active = true ∧ (a.planToEnter focus o now).messages = [] ∧
      (a.planToEnter focus o now).conversationHistory = [] := by
  unfold AgentState.planToEnter
  split
  · next hfound =>
    obtain ⟨hmem,hactive⟩ := mem_of_getByMainSession hfound
    exact ⟨rfl,(h _ hmem hactive).1,(h _ hmem hactive).2⟩
  · exact ⟨rfl,rfl,rfl⟩

/-! ## What each operation does -/

namespace AgentState
variable {T : Texts} {a : AgentState}

/-- The state after an entry. -/
def entered (T : Texts) (a : AgentState) (plan : PlanModeState) (focus : Option String)
    (saved : SaveOutcome) : AgentState :=
  { a with
    savedMainContext := some a.savedContext
    planModeState := some plan
    isPlanMode := true
    messages := plan.messages
    conversationHistory :=
      ⟨.system,.text (T.planModeSystemPrompt (plan.focus.getD "the task at hand"))⟩ ::
        plan.conversationHistory
    status := "Plan Mode - Focus: " ++ focus.getD "general planning"
    rows := save a.rows plan saved }

theorem enterPlanMode_inside (h : a.isPlanMode = true) (focus : Option String) (o : EnterOutcome)
    (now : ℤ) : (a.enterPlanMode T focus o now).1 = a := by
  unfold enterPlanMode
  rw [if_pos h]

theorem enterPlanMode_error (h : a.isPlanMode = false) {e : String} {o : EnterOutcome}
    (ho : o.opened = .error e) (focus : Option String) (now : ℤ) :
    (a.enterPlanMode T focus o now).1 = { a with savedMainContext := some a.savedContext } := by
  unfold enterPlanMode
  rw [if_neg (by simp [h]),ho]

theorem enterPlanMode_ok (h : a.isPlanMode = false) {o : EnterOutcome} (ho : o.opened = .ok ())
    (focus : Option String) (now : ℤ) : (a.enterPlanMode T focus o now).1 =
      entered T a (a.planToEnter focus o now) focus o.saved := by
  unfold enterPlanMode
  rw [if_neg (by simp [h]),ho]
  rfl

/-- The state after an exit that restores the main conversation. -/
def restored (a : AgentState) (saved : SavedMainContext) : AgentState :=
  { a with
    savedMainContext := none
    messages := saved.messages
    conversationHistory := saved.conversationHistory
    status := saved.status
    isPlanMode := false }

theorem leavePlanMode_of_some {saved : SavedMainContext} {summary : Option String}
    (hsaved : a.savedMainContext = some saved)
    (hsummary : generatePlanSummary a.messages = some summary) :
    a.leavePlanMode = (a.restored saved,.returned (.ok (.planModeExited summary))) := by
  unfold leavePlanMode
  rw [hsummary,hsaved]
  rfl

theorem leavePlanMode_of_none (hsummary : generatePlanSummary a.messages = none) :
    a.leavePlanMode = (a,.panicked) := by
  unfold leavePlanMode
  rw [hsummary]

def withPlan (a : AgentState) (plan : PlanModeState) (rows : List PlanModeState) : AgentState :=
  { a with planModeState := some plan, rows := rows }

theorem exitPlanMode_outside (h : a.isPlanMode = false) (o : StoreOutcome) (now : ℤ) :
    (a.exitPlanMode o now).1 = a := by
  unfold exitPlanMode
  rw [h]
  rfl

theorem exitPlanMode_error (h : a.isPlanMode = true) {plan : PlanModeState}
    (hplan : a.planModeState = some plan) {e : String} {o : StoreOutcome}
    (ho : o.opened = .error e) (now : ℤ) : a.exitPlanMode o now =
      (a.withPlan (a.planToSave plan now) a.rows,.returned (.error e)) := by
  unfold exitPlanMode
  rw [if_neg (by simp [h]),hplan,ho]
  rfl

theorem exitPlanMode_ok (h : a.isPlanMode = true) {plan : PlanModeState}
    (hplan : a.planModeState = some plan) {o : StoreOutcome} (ho : o.opened = .ok ()) (now : ℤ) :
    a.exitPlanMode o now = (a.withPlan (a.planToSave plan now)
      (save a.rows (a.planToSave plan now) o.saved)).leavePlanMode := by
  unfold exitPlanMode
  rw [if_neg (by simp [h]),hplan,ho]
  rfl

theorem exitPlanMode_panics (h : a.isPlanMode = true) {plan : PlanModeState}
    (hplan : a.planModeState = some plan) {o : StoreOutcome} (ho : o.opened = .ok ())
    (hsummary : generatePlanSummary a.messages = none) (now : ℤ) :
    (a.exitPlanMode o now).2 = .panicked := by
  have hsame : generatePlanSummary (a.withPlan (a.planToSave plan now)
      (save a.rows (a.planToSave plan now) o.saved)).messages = none := hsummary
  rw [exitPlanMode_ok h hplan ho,leavePlanMode_of_none hsame]

end AgentState

/-! ## The invariant -/

/-- In plan mode the main conversation is set aside as the entry met it, and the plan is
active. -/
structure Session.Held (s : Session) : Prop where
  blank : Blank s.agent.rows
  aside : s.agent.isPlanMode = true →
    ∃ ctx, s.entered = some ctx ∧ s.agent.savedMainContext = some ctx
  active : s.agent.isPlanMode = true →
    ∃ plan, s.agent.planModeState = some plan ∧ plan.active = true

namespace Session
variable {T : Texts} {s : Session}

theorem Held.enter (h : s.Held) (focus : Option String) (o : EnterOutcome) (now : ℤ) :
    (s.next T (.enter focus o now)).Held := by
  cases hmode : s.agent.isPlanMode with
  | true =>
    simp only [next,AgentState.enterPlanMode_inside hmode,hmode,Bool.not_true,Bool.false_and]
    exact h
  | false =>
    cases ho : o.opened with
    | error e =>
      simp only [next,AgentState.enterPlanMode_error hmode ho,hmode,Bool.and_false]
      exact ⟨h.blank,nofun,nofun⟩
    | ok =>
      obtain ⟨hactive,hmessages,hhistory⟩ := planToEnter_spec h.blank focus o now
      simp only [next,AgentState.enterPlanMode_ok hmode ho,hmode]
      exact ⟨h.blank.save (fun _ => ⟨hmessages,hhistory⟩) o.saved,fun _ => ⟨_,rfl,rfl⟩,
        fun _ => ⟨_,rfl,hactive⟩⟩

/-- An addition to the plan leaves all but the conversations alone. -/
theorem Held.addPlanMessage (h : s.Held) (message : DisplayMessage) (entry : Message) (now : ℤ) :
    Held { s with agent := s.agent.addPlanMessage message entry now } where
  blank := h.blank
  aside := h.aside
  active := by
    intro hmode
    obtain ⟨plan,hplan,hactive⟩ := h.active hmode
    refine ⟨(plan.addMessage now message).addToHistory now entry,?_,hactive⟩
    simp only [AgentState.addPlanMessage,hplan,Option.map_some]

theorem Held.input (h : s.Held) (content : String) (stream : PlanModeStream) (now later : ℤ) :
    (s.next T (.input content stream now later)).Held := by
  have hasked := h.addPlanMessage ⟨"user",content,now⟩ (.user content) now
  change Held { s with agent := (s.agent.processPlanModeInput T content stream now later).1 }
  unfold AgentState.processPlanModeInput
  split
  · exact h
  · dsimp only
    split
    · exact ⟨hasked.blank,hasked.aside,hasked.active⟩
    · have hanswered := hasked.addPlanMessage ⟨"assistant",String.join stream.texts,later⟩
        (.assistant (String.join stream.texts)) later
      exact ⟨hanswered.blank,hanswered.aside,hanswered.active⟩

theorem Held.clear (h : s.Held) (o : StoreOutcome) (now : ℤ) :
    (s.next T (.clear o now)).Held := by
  change Held { s with agent := (s.agent.clearPlanMode o now).1 }
  unfold AgentState.clearPlanMode
  cases hplan : s.agent.planModeState with
  | none =>
    have hout : ¬ s.agent.isPlanMode = true := by
      intro hmode
      obtain ⟨plan,hsome,_⟩ := h.active hmode
      rw [hplan] at hsome
      cases hsome
    simp only [if_neg hout]
    exact h
  | some plan =>
    have hactive : s.agent.isPlanMode = true →
        ∃ p, some (plan.clear now) = some p ∧ p.active = true := by
      intro hmode
      obtain ⟨p,hp,hactive⟩ := h.active hmode
      cases hplan.symm.trans hp
      exact ⟨_,rfl,hactive⟩
    cases ho : o.opened with
    | error e =>
      dsimp only
      exact ⟨h.blank,h.aside,hactive⟩
    | ok =>
      have hblank : Blank (save s.agent.rows (plan.clear now) o.saved) :=
        h.blank.save (fun _ => ⟨rfl,rfl⟩) o.saved
      dsimp only
      split
      · exact ⟨hblank,h.aside,hactive⟩
      · exact ⟨hblank,h.aside,hactive⟩

theorem exitPlanMode_restored (h : s.Held) (hmode : s.agent.isPlanMode = true) {o : StoreOutcome}
    (ho : o.opened = .ok ()) (hcut : Cuttable s.agent.messages) (now : ℤ) :
    ∃ plan ctx summary, plan.active = false ∧ s.entered = some ctx ∧ s.agent.exitPlanMode o now =
      ((s.agent.withPlan plan (save s.agent.rows plan o.saved)).restored ctx,
        .returned (.ok (.planModeExited summary))) := by
  obtain ⟨ctx,hentered,hsaved⟩ := h.aside hmode
  obtain ⟨plan,hplan,_⟩ := h.active hmode
  obtain ⟨summary,hsummary⟩ :=
    Option.isSome_iff_exists.mp ((generatePlanSummary_isSome_iff _).mpr hcut)
  refine ⟨s.agent.planToSave plan now,ctx,summary,rfl,hentered,?_⟩
  rw [AgentState.exitPlanMode_ok hmode hplan ho]
  exact AgentState.leavePlanMode_of_some hsaved hsummary

theorem Held.exit (h : s.Held) {o : StoreOutcome} {now : ℤ} (hc : s.Sheltered T (.exit o now)) :
    (s.next T (.exit o now)).Held := by
  cases hmode : s.agent.isPlanMode with
  | false =>
    simp only [next,AgentState.exitPlanMode_outside hmode,hmode,Bool.false_and]
    exact h
  | true =>
    obtain ⟨ho,hcut⟩ := hc hmode
    obtain ⟨plan,ctx,summary,hinactive,_,hexit⟩ := exitPlanMode_restored h hmode ho hcut now
    have hblank : Blank (save s.agent.rows plan o.saved) := by
      refine h.blank.save ?_ o.saved
      intro hactive
      rw [hinactive] at hactive
      cases hactive
    simp only [next,hexit]
    exact ⟨hblank,nofun,nofun⟩

theorem Held.next {e : PlanEvent} (h : s.Held) (hc : s.Sheltered T e) : (s.next T e).Held := by
  cases e with
  | enter focus o now => exact h.enter focus o now
  | input content stream now later => exact h.input content stream now later
  | clear o now => exact h.clear o now
  | exit o now => exact h.exit hc

/-! ## What is kept apart -/

theorem isolated_enter_iff (h : s.Held) (focus : Option String) (o : EnterOutcome) (now : ℤ) :
    s.Isolated T (.enter focus o now) ↔ s.Sheltered T (.enter focus o now) := by
  simp only [Isolated,Sheltered]
  refine imp_congr_right (fun hmode => ?_)
  cases ho : o.opened with
  | error e =>
    rw [AgentState.enterPlanMode_error hmode ho]
    refine iff_of_true (fun hin => ?_) (fun hok => by cases hok)
    exact absurd (hmode.symm.trans hin) Bool.false_ne_true
  | ok =>
    obtain ⟨_,hmessages,hhistory⟩ := planToEnter_spec h.blank focus o now
    have hplan : (AgentState.entered T s.agent (s.agent.planToEnter focus o now) focus
        o.saved).planConversation = ([],[]) := by
      simp only [AgentState.planConversation,AgentState.entered,hmessages,hhistory]
      rfl
    rw [AgentState.enterPlanMode_ok hmode ho,hplan]
    constructor
    · intro h _ plan hleft
      exact (h rfl plan hleft).symm
    · intro h _ plan hleft
      exact (h rfl plan hleft).symm

theorem isolated_input_iff (content : String) (stream : PlanModeStream) (now later : ℤ) :
    s.Isolated T (.input content stream now later) ↔
      s.Sheltered T (.input content stream now later) := by
  simp only [Isolated,Sheltered,AgentState.processPlanModeInput]
  cases hmode : s.agent.isPlanMode with
  | false => simp
  | true =>
    simp only [Bool.not_true,Bool.false_eq_true,if_false,Except.ok.injEq,forall_eq',true_imp_iff]
    simp only [AgentState.getPlanModeTools,AgentState.addPlanMessage,List.mem_filter,and_imp]

theorem isolated_exit_iff (h : s.Held) (o : StoreOutcome) (now : ℤ) :
    s.Isolated T (.exit o now) ↔ s.Sheltered T (.exit o now) := by
  simp only [Isolated,Sheltered]
  refine imp_congr_right (fun hmode => ?_)
  obtain ⟨plan,hplan,hactive⟩ := h.active hmode
  cases ho : o.opened with
  | error e =>
    rw [AgentState.exitPlanMode_error hmode hplan ho]
    refine iff_of_false ?_ (fun hc => by cases hc.1)
    intro hsame
    have hstate := congrArg AgentState.planModeState hsame
    simp only [AgentState.timeless,AgentState.withPlan,hplan,Option.map_some,
      Option.some.injEq] at hstate
    have hinactive := congrArg PlanModeState.active hstate
    exact absurd (hinactive.trans hactive) Bool.false_ne_true
  | ok =>
    by_cases hcut : Cuttable s.agent.messages
    · obtain ⟨plan,ctx,summary,_,hentered,hexit⟩ := exitPlanMode_restored h hmode ho hcut now
      rw [hexit]
      exact iff_of_true ⟨rfl,ctx,hentered,rfl,rfl,rfl⟩ ⟨rfl,hcut⟩
    · have hnone : generatePlanSummary s.agent.messages = none := by
        rw [← Option.not_isSome_iff_eq_none,generatePlanSummary_isSome_iff]
        exact hcut
      rw [AgentState.exitPlanMode_panics hmode hplan ho hnone]
      exact iff_of_false (fun hp => hp) (fun hc => hcut hc.2)

theorem isolated_iff (h : s.Held) (e : PlanEvent) : s.Isolated T e ↔ s.Sheltered T e := by
  cases e with
  | enter focus o now => exact isolated_enter_iff h focus o now
  | input content stream now later => exact isolated_input_iff content stream now later
  | clear o now => exact Iff.rfl
  | exit o now => exact isolated_exit_iff h o now

/-- An agent outside plan mode, with its conversation, when no plan has been stored yet. -/
def start (sessionId model : String) (main : SavedMainContext) (tools : List Tool) : Session where
  agent :=
    { sessionId, model, messages := main.messages
      conversationHistory := main.conversationHistory, status := main.status, tools }

theorem Held.start (sessionId model : String) (main : SavedMainContext) (tools : List Tool) :
    (start sessionId model main tools).Held :=
  ⟨List.forall_mem_nil _,nofun,nofun⟩

end Session

/-- Over a run plan mode stays apart exactly when every step is sheltered. -/
theorem run_isolated_iff (T : Texts) {sessionId model : String} {main : SavedMainContext}
    {tools : List Tool} {es : List PlanEvent}
    (hr : (planMode T).Run (.start sessionId model main tools) es) :
    (∀ p ∈ (planMode T).trail (.start sessionId model main tools) es, p.1.Isolated T p.2) ↔
      ∀ p ∈ (planMode T).trail (.start sessionId model main tools) es, p.1.Sheltered T p.2 :=
  hr.forall_iff (G := Session.Held) (P := Session.Isolated T) (C := Session.Sheltered T)
    (fun _ _ h _ hc => h.next hc) (fun _ e h _ => Session.isolated_iff h e)
    (.start sessionId model main tools)

def plainTexts : Texts := ⟨String.toLower,fun focus => "Plan: " ++ focus⟩

def mainContext : SavedMainContext :=
  ⟨[⟨"user","Hello.",0⟩],[⟨.system,.text "Help."⟩,.user "Hello."],0,"Ready"⟩

def stored : StoreOutcome := ⟨.ok (),⟨.ok (),.ok ()⟩⟩

def enters : PlanEvent := .enter (some "tests") ⟨.ok (),.ok (),"plan-1",⟨.ok (),.ok ()⟩⟩ 1

def plans : PlanEvent := .input "What first?" ⟨["Read the tests."],some (.ok ())⟩ 2 3

/-- Plan mode is entered, used and left once. -/
def plannedOnce : List PlanEvent := [enters,plans,.exit stored 4]

theorem plannedOnce_isolated :
    (planMode plainTexts).Run (.start "s" "gemma4" mainContext [⟨"read_file","Reads."⟩])
      plannedOnce ∧
    ∀ p ∈ (planMode plainTexts).trail (.start "s" "gemma4" mainContext [⟨"read_file","Reads."⟩])
      plannedOnce, p.1.Isolated plainTexts p.2 := by
  have hrun : (planMode plainTexts).Run
      (.start "s" "gemma4" mainContext [⟨"read_file","Reads."⟩]) plannedOnce :=
    ⟨trivial,trivial,trivial,trivial⟩
  refine ⟨hrun,(run_isolated_iff plainTexts hrun).mpr ?_⟩
  simp only [plannedOnce,Machine.forall_trail_cons]
  refine ⟨?_,?_,?_,Machine.forall_trail_nil⟩
  · rintro _ _ plan ⟨⟩
  · intro _ tool htool _
    cases List.mem_singleton.mp htool
    decide
  · intro _
    exact ⟨rfl,(generatePlanSummary_isSome_iff _).mp (by decide)⟩

/-- The plan of the first visit is not found by the second. -/
def enteredTwice : List PlanEvent := [enters,plans,.exit stored 4,enters]

theorem enteredTwice_not_isolated :
    ¬ ∀ es, (planMode plainTexts).Run (.start "s" "gemma4" mainContext []) es →
      ∀ p ∈ (planMode plainTexts).trail (.start "s" "gemma4" mainContext []) es,
        p.1.Isolated plainTexts p.2 := by
  intro h
  have hentry := h enteredTwice ⟨trivial,trivial,trivial,trivial,trivial⟩ _
    (.tail _ (.tail _ (.tail _ (.head _)))) rfl rfl _ rfl
  exact absurd (congrArg (fun plan => plan.1.length) hentry) (by decide)

end Rullama.PlanMode
