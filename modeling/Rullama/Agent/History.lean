import Rullama.Agent.Process

/-! # The shape of the conversation history

Outside plan mode the history that goes to the provider is the system prompt, followed by
what the display list shows of the user and the assistant. Handlers of slash commands change
one of the two lists without the other.
-/
namespace Rullama.Agent
open Transition

/-- A text of the user or the assistant. -/
def Entry.spoken (e : Entry) : Option (Role × String) :=
  match e.message with
  | ⟨.user,.text content⟩ => some (.user,content)
  | ⟨.assistant,.text content⟩ => some (.assistant,content)
  | _ => none

def DisplayMessage.spoken (m : DisplayMessage) : Option (Role × String) :=
  if m.role = "user" then some (.user,m.content)
  else if m.role = "assistant" then some (.assistant,m.content)
  else none

structure Shaped (messages : List DisplayMessage) (history : List Entry) : Prop where
  systemFirst : ∃ head rest, history = head :: rest ∧ head.message.role = .system ∧
    ∀ e ∈ rest, e.message.role ≠ .system
  spoken : history.filterMap Entry.spoken = messages.filterMap DisplayMessage.spoken

def AgentState.Shaped (s : AgentState) : Prop := Agent.Shaped s.messages s.conversationHistory

/-- A command that is not blocked adds a text or clears the history only in plan mode. -/
def Process.SpeaksInPlanMode (p : Process) : ProcessEvent → Prop
  | .slashCommand _ _ blocked result => p.isPlanMode = false → blocked = false →
    match result with
    | .ok (.message _) | .ok (.actionWithMessage _ _) | .ok (.action .clearHistory _) => False
    | _ => True
  | _ => True

theorem Shaped.append {messages : List DisplayMessage} {history : List Entry}
    (h : Shaped messages history) {m : DisplayMessage} {e : Entry}
    (hsame : e.spoken = m.spoken) (hrole : e.message.role ≠ .system) :
    Shaped (messages ++ [m]) (history ++ [e]) := by
  obtain ⟨head,rest,rfl,hhead,hrest⟩ := h.systemFirst
  constructor
  · refine ⟨head,rest ++ [e],rfl,hhead,?_⟩
    intro e' he'
    rcases List.mem_append.mp he' with he' | he'
    · exact hrest e' he'
    · rw [List.mem_singleton.mp he']
      exact hrole
  · rw [List.filterMap_append,List.filterMap_append,h.spoken]
    simp only [List.filterMap_cons,List.filterMap_nil,hsame]

namespace AgentState
variable {s : AgentState}

theorem Shaped.addUserMessage (h : s.Shaped) (turn : ℕ) (content : String) :
    (s.addUserMessage turn content).Shaped :=
  h.append rfl (fun hrole => by cases hrole)

theorem Shaped.addAssistantMessage (h : s.Shaped) (turn : ℕ) (content : String) :
    (s.addAssistantMessage turn content).Shaped :=
  h.append rfl (fun hrole => by cases hrole)

/-- What was loaded has the shape. -/
theorem Shaped.new (model systemPrompt : String) (stored : List (String × String)) :
    (new model systemPrompt stored).Shaped := by
  constructor
  · refine ⟨_,_,rfl,rfl,?_⟩
    intro e he
    obtain ⟨m,_,hm⟩ := List.mem_filterMap.mp he
    unfold loadEntry at hm
    split at hm
    · cases hm
      exact fun hrole => by cases hrole
    split at hm
    · cases hm
      exact fun hrole => by cases hrole
    · cases hm
  · have hloaded : ∀ m : String × String, (loadEntry m).bind Entry.spoken =
        DisplayMessage.spoken ⟨0,m.1,m.2⟩ := by
      intro m
      unfold loadEntry DisplayMessage.spoken
      split
      · rfl
      split
      · rfl
      · rfl
    have hplace : ∀ (place : ℕ) (m : String × String),
        DisplayMessage.spoken ⟨place,m.1,m.2⟩ = DisplayMessage.spoken ⟨0,m.1,m.2⟩ :=
      fun _ _ => rfl
    change (stored.filterMap loadEntry).filterMap Entry.spoken =
      (stored.zipIdx.map (fun m => DisplayMessage.mk m.2 m.1.1 m.1.2)).filterMap
        DisplayMessage.spoken
    rw [List.filterMap_filterMap,List.filterMap_map]
    have hzip : stored = stored.zipIdx.map Prod.fst := (List.zipIdx_map_fst 0 stored).symm
    nth_rewrite 1 [hzip]
    rw [List.filterMap_map]
    apply List.filterMap_congr
    intro m _
    exact (hloaded m.1).trans (hplace m.2 m.1).symm

theorem Shaped.finish (h : s.Shaped) (t : Turn) (result : Except String String) :
    (s.finish t result).Shaped := by
  cases result with
  | ok response =>
    rw [finish_ok_eq,reply_eq]
    exact h.addAssistantMessage t.id response
  | error e =>
    unfold AgentState.finish
    cases t.kind with
    | input | pending | queued => exact h

theorem Shaped.next (h : s.Shaped) {e : Event} (he : s.Enabled e) : (s.next e).Shaped := by
  cases e with
  | attach | subscribe | disconnect | announce | cancel | syncRequest | startPending | stream
  | turnDies | drainDies => exact h
  | userInput viewer content => exact h.addUserMessage s.nextTurn content
  | queueMessage viewer content =>
    simp only [AgentState.next,queueMessage]
    split
    · exact h
    · exact h
  | turnEnds turn result =>
    obtain ⟨t,_,_,_,hnext⟩ := s.next_turnEnds he result
    rw [hnext]
    exact Shaped.finish (s := s.leave turn) h t result
  | popQueued =>
    simp only [AgentState.next,popQueued]
    split
    · exact h
    · exact h
  | beginQueued m content =>
    exact Shaped.addUserMessage
      (s := { s with popped := s.popped.erase m, given := s.given ++ [m.id] }) h s.nextTurn content

end AgentState

namespace Process
variable {p : Process}

/-- In plan mode the conversation that will be restored has the shape. -/
structure MainShaped (p : Process) : Prop where
  outside : p.isPlanMode = false → p.agent.Shaped
  inside : p.isPlanMode = true → ∃ messages history status,
    p.savedMainContext = some (messages,history,status) ∧ Agent.Shaped messages history

theorem processPlanModeInput_frame (content : String) (stream : PlanModeStream) :
    (p.processPlanModeInput content stream).isPlanMode = p.isPlanMode ∧
      (p.processPlanModeInput content stream).savedMainContext = p.savedMainContext ∧
        (p.isPlanMode = false → (p.processPlanModeInput content stream).agent.messages =
          p.agent.messages ∧ (p.processPlanModeInput content stream).agent.conversationHistory =
            p.agent.conversationHistory) := by
  unfold processPlanModeInput
  cases hplan : p.isPlanMode with
  | false =>
    simp only [Bool.not_false,if_true]
    exact ⟨hplan,rfl,fun _ => ⟨rfl,rfl⟩⟩
  | true =>
    simp only [Bool.not_true,Bool.false_eq_true,if_false]
    rw [foldl_send_eq]
    refine ⟨?_,?_,fun hfalse => by cases hfalse⟩
    · split
      · exact hplan
      · exact hplan
    · split
      · rfl
      · rfl

theorem MainShaped.enterPlanMode (h : p.MainShaped) (focus : Option String)
    (stored : Except String (Option PlanModeState)) (systemPrompt : String) :
    (p.enterPlanMode focus stored systemPrompt).MainShaped := by
  by_cases hplan : p.isPlanMode = true
  · rw [Process.enterPlanMode,if_pos hplan]
    exact ⟨h.outside,h.inside⟩
  · have hout : p.isPlanMode = false := (Bool.not_eq_true _).mp hplan
    rw [Process.enterPlanMode,if_neg hplan]
    cases stored with
    | error e => exact ⟨h.outside,fun htrue => absurd htrue hplan⟩
    | ok existing =>
      constructor
      · intro hfalse
        cases hfalse
      · intro _
        exact ⟨_,_,_,rfl,h.outside hout⟩

theorem MainShaped.exitPlanMode (h : p.MainShaped) (saved : Except String Unit) :
    (p.exitPlanMode saved).MainShaped := by
  by_cases hplan : p.isPlanMode = true
  · rw [Process.exitPlanMode,if_neg (by simp [hplan])]
    obtain ⟨messages,history,status,hsaved,hshaped⟩ := h.inside hplan
    cases saved with
    | error e => exact ⟨h.outside,h.inside⟩
    | ok u =>
      simp only [hsaved]
      constructor
      · intro _
        exact hshaped
      · intro htrue
        cases htrue
  · rw [Process.exitPlanMode,if_pos (by simp [hplan])]
    exact ⟨h.outside,h.inside⟩

theorem slashCommand_frame (command : String) (blocked : Bool)
    (result : Except String CommandResult) :
    (p.slashCommand command blocked result).isPlanMode = p.isPlanMode ∧
      (p.slashCommand command blocked result).savedMainContext = p.savedMainContext := by
  unfold slashCommand
  cases blocked with
  | true => exact ⟨rfl,rfl⟩
  | false =>
    rcases result with e | ⟨text⟩ | ⟨lines⟩ | ⟨action,name⟩ | ⟨name,text⟩
    · exact ⟨rfl,rfl⟩
    · exact ⟨rfl,rfl⟩
    · exact ⟨rfl,rfl⟩
    · cases action <;> exact ⟨rfl,rfl⟩
    · exact ⟨rfl,rfl⟩

/-- A text that is in the history alone, or an empty history, breaks the shape. -/
theorem slashCommand_shaped_iff (h : p.agent.Shaped) (hout : p.isPlanMode = false) (viewer : ℕ)
    (command : String) (blocked : Bool) (result : Except String CommandResult) :
    (p.slashCommand command blocked result).agent.Shaped ↔
      p.SpeaksInPlanMode (.slashCommand viewer command blocked result) := by
  have hexpanded : ∀ text, ¬ (p.addExpanded text).agent.Shaped := by
    intro text hshaped
    have hlonger := congrArg List.length (hshaped.spoken.trans h.spoken.symm)
    simp only [addExpanded,List.filterMap_append,List.length_append] at hlonger
    exact absurd hlonger (Nat.succ_ne_self _)
  unfold slashCommand SpeaksInPlanMode
  cases blocked with
  | true => exact iff_of_true h (fun _ hfalse => by cases hfalse)
  | false =>
    rcases result with e | ⟨text⟩ | ⟨lines⟩ | ⟨action,name⟩ | ⟨name,text⟩
    · exact iff_of_true h (fun _ _ => trivial)
    · exact iff_of_false (hexpanded text) (fun hspeaks => hspeaks hout rfl)
    · exact iff_of_true h (fun _ _ => trivial)
    · cases action with
      | clearHistory =>
        refine iff_of_false ?_ (fun hspeaks => hspeaks hout rfl)
        intro hshaped
        obtain ⟨head,rest,hhistory,-⟩ := hshaped.systemFirst
        cases hhistory
      | showStatus | exit | switchModel | execCommand | other =>
        exact iff_of_true h (fun _ _ => trivial)
    · exact iff_of_false (hexpanded text) (fun hspeaks => hspeaks hout rfl)

theorem MainShaped.processPlanModeInput (h : p.MainShaped) (content : String)
    (stream : PlanModeStream) : (p.processPlanModeInput content stream).MainShaped := by
  obtain ⟨hplan,hsaved,hlists⟩ := processPlanModeInput_frame (p := p) content stream
  constructor
  · intro hout
    rw [hplan] at hout
    obtain ⟨hmessages,hhistory⟩ := hlists hout
    rw [AgentState.Shaped,hmessages,hhistory]
    exact h.outside hout
  · intro hin
    rw [hplan] at hin
    rw [hsaved]
    exact h.inside hin

/-- Only slash commands outside plan mode can break the shape. -/
theorem MainShaped.next_iff (h : p.MainShaped) {e : ProcessEvent} (he : p.Enabled e) :
    (p.next e).MainShaped ↔ p.SpeaksInPlanMode e := by
  cases e with
  | chat e => exact iff_of_true ⟨fun hout => (h.outside hout).next he,h.inside⟩ trivial
  | detach viewer exitWhenDone => exact iff_of_true ⟨h.outside,h.inside⟩ trivial
  | exit viewer => exact iff_of_true ⟨h.outside,h.inside⟩ trivial
  | slashCommand viewer command blocked result =>
    obtain ⟨hplan,hsaved⟩ := slashCommand_frame (p := p) command blocked result
    change (p.slashCommand command blocked result).MainShaped ↔ _
    by_cases hout : p.isPlanMode = false
    · rw [← slashCommand_shaped_iff (h.outside hout) hout]
      constructor
      · intro hnext
        exact hnext.outside (hplan.trans hout)
      · intro hshaped
        refine ⟨fun _ => hshaped,?_⟩
        intro hin
        rw [hplan,hout] at hin
        cases hin
    · refine iff_of_true ⟨fun hfalse => absurd (hplan.symm.trans hfalse) hout,?_⟩
        (fun hfalse => absurd hfalse hout)
      intro hin
      rw [hsaved]
      exact h.inside (hplan.symm.trans hin)
  | parentSignal viewer signal =>
    cases signal <;> exact iff_of_true ⟨h.outside,h.inside⟩ trivial
  | enterPlanMode viewer focus stored systemPrompt =>
    exact iff_of_true (h.enterPlanMode focus stored systemPrompt) trivial
  | exitPlanMode viewer saved => exact iff_of_true (h.exitPlanMode saved) trivial
  | planModeUserInput viewer content => exact iff_of_true ⟨h.outside,h.inside⟩ trivial
  | processPlanModeInput content stream =>
    exact iff_of_true (MainShaped.processPlanModeInput
      (p := { p with planInputs := p.planInputs.erase content }) ⟨h.outside,h.inside⟩
      content stream) trivial

/-- A step outside plan mode leaves the shape of the lists as the only question. -/
theorem MainShaped.next_shaped_iff (h : p.MainShaped) {e : ProcessEvent} (he : p.Enabled e) :
    ((p.next e).isPlanMode = false → (p.next e).agent.Shaped) ↔ p.SpeaksInPlanMode e := by
  rw [← h.next_iff he]
  constructor
  · intro hshaped
    refine ⟨hshaped,?_⟩
    intro hin
    by_cases hspeaks : p.SpeaksInPlanMode e
    · exact ((h.next_iff he).mpr hspeaks).inside hin
    · cases e with
      | slashCommand viewer command blocked result =>
        obtain ⟨hplan,hsaved⟩ := slashCommand_frame (p := p) command blocked result
        have hframe : p.isPlanMode = true := hplan.symm.trans hin
        exact hsaved ▸ h.inside hframe
      | _ => exact absurd trivial hspeaks
  · intro hnext
    exact hnext.outside

end Process

/-- Over a run the history has its shape outside plan mode exactly when commands that add a
text or clear the history come only in plan mode. -/
theorem run_shaped_iff {sessionId model systemPrompt : String} {stored : List (String × String)}
    {es : List ProcessEvent} (hr : process.Run (.new sessionId model systemPrompt stored) es) :
    (∀ p ∈ process.trail (.new sessionId model systemPrompt stored) es,
      (p.1.next p.2).isPlanMode = false → (p.1.next p.2).agent.Shaped) ↔
      ∀ p ∈ process.trail (.new sessionId model systemPrompt stored) es,
        p.1.SpeaksInPlanMode p.2 := by
  refine hr.forall_iff (G := Process.MainShaped)
    (P := fun p e => (p.next e).isPlanMode = false → (p.next e).agent.Shaped)
    (C := Process.SpeaksInPlanMode) ?_ ?_ ?_
  · intro p e h he hspeaks
    exact (h.next_iff he).mpr hspeaks
  · intro p e h he
    exact h.next_shaped_iff he
  · exact ⟨fun _ => .new model systemPrompt stored,fun hin => by cases hin⟩

/-- A greeting and its reply, a look at the status, and a plan whose lists are cleared. -/
def plannedRun : List ProcessEvent :=
  [.chat (.attach 0),.chat (.subscribe 0),.chat (.userInput 0 "Hello."),
    .chat (.announce ⟨0,0,⟨0,"user","Hello."⟩⟩),.chat (.turnEnds 0 (.ok "Hello, what can I do?")),
    .slashCommand 0 "status" false (.ok (.action .showStatus "ShowStatus")),
    .enterPlanMode 0 none (.ok none) "Plan only.",
    .slashCommand 0 "clear" false (.ok (.action .clearHistory "ClearHistory")),
    .exitPlanMode 0 (.ok ())]

theorem plannedRun_shaped : process.Run (.new "main" "gemma" "Be brief." []) plannedRun ∧
    ∀ p ∈ process.trail (.new "main" "gemma" "Be brief." []) plannedRun,
      (p.1.next p.2).isPlanMode = false → (p.1.next p.2).agent.Shaped := by
  have hrun : process.Run (.new "main" "gemma" "Be brief." []) plannedRun := by decide
  refine ⟨hrun,(run_shaped_iff hrun).mpr ?_⟩
  simp only [plannedRun,Machine.forall_trail_cons]
  refine ⟨?_,?_,?_,?_,?_,?_,?_,?_,?_,Machine.forall_trail_nil⟩
  · trivial
  · trivial
  · trivial
  · trivial
  · trivial
  · exact fun _ _ => trivial
  · trivial
  · intro hout
    cases hout
  · trivial

/-- Clearing the conversation takes the system prompt with it. -/
def clearedRun : List ProcessEvent :=
  [.chat (.attach 0),.chat (.subscribe 0),
    .slashCommand 0 "clear" false (.ok (.action .clearHistory "ClearHistory"))]

theorem clearedRun_unshaped :
    ¬ ∀ es, process.Run (.new "main" "gemma" "Be brief." []) es →
      ∀ p ∈ process.trail (.new "main" "gemma" "Be brief." []) es,
        (p.1.next p.2).isPlanMode = false → (p.1.next p.2).agent.Shaped := by
  intro h
  have hshaped := h clearedRun (by decide) _ (.tail _ (.tail _ (.head _))) rfl
  obtain ⟨head,rest,hhistory,-⟩ := hshaped.systemFirst
  cases hhistory

end Rullama.Agent
