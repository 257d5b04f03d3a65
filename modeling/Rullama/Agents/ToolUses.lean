import Rullama.Agents.TaskAgent

/-! # Tool uses and their results

What the provider is sent has a result for each tool use, unless a tool call was skipped because
the checkpoint has its id.
-/
namespace Rullama.Agents
open Agent (Message MessageContent ContentBlock)
open Tools (ToolUse ToolResult LockType getLockRequirement)
open Transition.Machine (forall_trail_cons)

/-! ## Pairing -/

/-- A tool use, or the result of one. Results come from the user. -/
inductive Mark where
  | use (id : String)
  | result (id : String)

def marks (m : Message) : List Mark :=
  match m.content with
  | .text _ => []
  | .blocks blocks => blocks.filterMap (fun
    | .toolUse call => some (.use call.id)
    | .toolResult id _ => if m.role = .user then some (.result id) else none
    | .text _ => none)

/-- The ids of the tool uses that have no result yet. Each result is for one use of its id; `none`
where there is a result for no use. -/
def unanswered (ids : List String) : List Mark → Option (List String)
  | [] => some ids
  | .use id :: ms => unanswered (ids ++ [id]) ms
  | .result id :: ms => if id ∈ ids then unanswered (ids.erase id) ms else none

/-- Every tool use has exactly one result, later and with its id. -/
def Answered (history : List Message) : Prop := unanswered [] (history.flatMap marks) = some []

instance (history : List Message) : Decidable (Answered history) :=
  inferInstanceAs (Decidable (_ = _))

theorem unanswered_append (ids : List String) (ms ms' : List Mark) :
    unanswered ids (ms ++ ms') = (unanswered ids ms).bind (fun ids => unanswered ids ms') := by
  induction ms generalizing ids with
  | nil => rfl
  | cons m ms ih =>
    cases m with
    | use id => exact ih (ids ++ [id])
    | result id =>
      rw [List.cons_append,unanswered,unanswered]
      split
      · exact ih (ids.erase id)
      · rfl

theorem unanswered_uses (ids uses : List String) :
    unanswered ids (uses.map Mark.use) = some (ids ++ uses) := by
  induction uses generalizing ids with
  | nil => rw [List.map_nil,unanswered,List.append_nil]
  | cons id uses ih =>
    rw [List.map_cons,unanswered,ih,List.append_assoc]
    rfl

/-- The assistant's message has its tool uses only. -/
theorem marks_assistant {m : Message} (h : m.role = .assistant) :
    marks m = (toolUses m).map (fun t => .use t.id) := by
  obtain ⟨role,content⟩ := m
  cases h
  cases content with
  | text content => rfl
  | blocks blocks =>
    rw [marks,toolUses,List.map_filterMap]
    refine List.filterMap_congr (fun b _ => ?_)
    cases b with
    | text content => rfl
    | toolUse call => rfl
    | toolResult id content => rfl

/-! ## What a state owes -/

/-- The tool uses of the last response that are still to come; `none` after the run. -/
def Phase.due : Phase → Option (List String)
  | .tools pending => some (pending.map ToolUse.id)
  | .locking t _ _ pending => some (t.id :: pending.map ToolUse.id)
  | .executing t pending => some (t.id :: pending.map ToolUse.id)
  | .returned _ => none
  | _ => some []

/-- The tool use at work. -/
def Phase.current : Phase → Option ToolUse
  | .locking t _ _ _ => some t
  | .executing t _ => some t
  | _ => none

/-- The response whose tokens are not yet counted for the session. -/
def Phase.response : Phase → Option ChatResponse
  | .recording r => some r
  | .checking r => some r
  | _ => none

/-- The step that passes over a tool call. -/
def skips (a : TaskAgent) (e : Event) : Bool :=
  match a.phase,e with
  | .tools (t :: _),.nextTool => a.isCompleted t.id
  | _,_ => false

/-- Besides what is to come, results are missing for the tool uses that were skipped. -/
structure Owes (a : TaskAgent) (skipped : List String) : Prop where
  remaining : ∀ due, a.phase.due = some due →
    unanswered [] (a.history.flatMap marks) = some (skipped ++ due)
  completed : ∀ id ∈ skipped, a.isCompleted id = true
  current : ∀ t, a.phase.current = some t → a.isCompleted t.id = false
  idle : a.phase = .idle → skipped = []
  role : ∀ r, a.phase.response = some r → r.message.role = .assistant

variable {a b : TaskAgent} {skipped : List String}

theorem history_push (a : TaskAgent) (m : Message) :
    (a.push m).history.flatMap marks = a.history.flatMap marks ++ marks m := by
  rw [TaskAgent.push,List.flatMap_append,List.flatMap_singleton]

theorem isCompleted_congr (h : b.completedToolIds = a.completedToolIds) (id : String) :
    b.isCompleted id = a.isCompleted id := by
  rw [TaskAgent.isCompleted,TaskAgent.isCompleted,h]

/-- Outside of the tools nothing is paid and nothing is owed anew. -/
theorem Owes.keep (h : Owes a skipped) (hdue : a.phase.due = some [])
    (hmarks : b.history.flatMap marks = a.history.flatMap marks)
    (hcompleted : b.completedToolIds = a.completedToolIds)
    (hdue' : ∀ due, b.phase.due = some due → due = []) (hcurrent : b.phase.current = none)
    (hidle : b.phase ≠ .idle)
    (hrole : ∀ r, b.phase.response = some r → r.message.role = .assistant) : Owes b skipped := by
  refine ⟨fun due hb => ?_,fun id hid => ?_,fun t ht => ?_,fun hb => absurd hb hidle,hrole⟩
  · rw [hdue' due hb,hmarks]
    exact h.remaining [] hdue
  · rw [isCompleted_congr hcompleted]
    exact h.completed id hid
  · rw [hcurrent] at ht
    cases ht

/-- An exit from within the tools leaves open what was due. -/
theorem Owes.leave (h : Owes a skipped) {result : Except String TaskAgentResult}
    (hcompleted : b.completedToolIds = a.completedToolIds) (hb : b.phase = .returned result) :
    Owes b skipped := by
  refine ⟨fun due hdue => ?_,fun id hid => ?_,fun t ht => ?_,fun hidle => ?_,fun r hr => ?_⟩
  · rw [hb] at hdue
    cases hdue
  · rw [isCompleted_congr hcompleted]
    exact h.completed id hid
  · rw [hb] at ht
    cases ht
  · rw [hb] at hidle
    cases hidle
  · rw [hb] at hr
    cases hr

/-- The tool uses of a response are due. -/
theorem Owes.process (h : Owes a skipped) (hdue : a.phase.due = some []) {response : ChatResponse}
    (hrole : response.message.role = .assistant) : Owes (a.process response) skipped := by
  rw [TaskAgent.process]
  dsimp only
  split
  · exact h.keep hdue rfl rfl (fun due hb => (Option.some.inj hb).symm) rfl nofun nofun
  · have hhistory := h.remaining [] hdue
    rw [List.append_nil] at hhistory
    refine ⟨fun due hb => ?_,h.completed,nofun,nofun,nofun⟩
    cases hb
    have huses : marks response.message =
        ((toolUses response.message).map ToolUse.id).map Mark.use := by
      rw [marks_assistant hrole,List.map_map]
      rfl
    exact (congrArg (unanswered []) (history_push a response.message)).trans
      (by rw [unanswered_append,hhistory,Option.bind_some,huses,unanswered_uses])

/-- A result is for the tool use at work, which was not skipped before. -/
theorem Owes.answer (h : Owes a skipped) {t : ToolUse} {pending : List ToolUse}
    (hdue : a.phase.due = some (t.id :: pending.map ToolUse.id))
    (hcurrent : a.phase.current = some t) (content : String)
    (hhistory : b.history = (a.push (toolResultMessage t.id content)).history)
    (hcompleted : ∀ id, a.isCompleted id = true → b.isCompleted id = true)
    (hb : b.phase = .tools pending) : Owes b skipped := by
  have hnew : t.id ∉ skipped := fun hmem => by
    have htrue := h.completed t.id hmem
    rw [h.current t hcurrent] at htrue
    cases htrue
  have hopen := h.remaining _ hdue
  have hmem : t.id ∈ skipped ++ t.id :: pending.map ToolUse.id :=
    List.mem_append_right _ List.mem_cons_self
  refine ⟨fun due hbdue => ?_,fun id hid => hcompleted id (h.completed id hid),fun t' ht' => ?_,
    fun hidle => ?_,fun r hr => ?_⟩
  · rw [hb] at hbdue
    cases hbdue
    have hmarks : marks (toolResultMessage t.id content) = [.result t.id] := rfl
    rw [hhistory,history_push,unanswered_append,hopen,Option.bind_some,hmarks,unanswered,
      if_pos hmem,List.erase_append_right _ hnew,List.erase_cons_head]
    rfl
  · rw [hb] at ht'
    cases ht'
  · rw [hb] at hidle
    cases hidle
  · rw [hb] at hr
    cases hr

/-! ## Steps -/

theorem start_owes (h : Owes a skipped) (hidle : a.phase = .idle) (registers : Except String Unit)
    (checkpoint : Option (List String)) : Owes (a.start registers checkpoint) skipped := by
  have hdue : a.phase.due = some [] := by rw [hidle]; rfl
  have hstart : Owes { a.push (.user a.task.description) with
      registered := true
      status := .working a.task.description
      completedToolIds := checkpoint
      iterations := 0
      totalTokensUsed := 0
      phase := .looping } skipped := by
    have hhistory := h.remaining [] hdue
    rw [h.idle hidle] at hhistory ⊢
    refine ⟨fun due hb => ?_,nofun,nofun,nofun,nofun⟩
    cases hb
    exact (congrArg (unanswered []) (history_push a _)).trans
      ((congrArg (unanswered []) (List.append_nil _)).trans hhistory)
  unfold TaskAgent.start
  split
  · exact h.leave rfl rfl
  · exact hstart

theorem iterate_owes (h : Owes a skipped) (hdue : a.phase.due = some []) (elapsedSecs : ℕ)
    (helpResponse : Option (String × String)) :
    Owes (a.iterate elapsedSecs helpResponse) skipped := by
  rw [TaskAgent.iterate]
  dsimp only
  split
  · exact h.leave rfl rfl
  · split
    · exact h.leave rfl rfl
    · cases helpResponse with
      | none => exact h.keep hdue rfl rfl (fun due hb => (Option.some.inj hb).symm) rfl nofun nofun
      | some p =>
        refine h.keep hdue ?_ rfl (fun due hb => (Option.some.inj hb).symm) rfl nofun nofun
        exact (history_push _ _).trans (List.append_nil _)

theorem respond_owes (h : Owes a skipped) (hdue : a.phase.due = some [])
    {response : Except String ChatResponse}
    (hrole : ∀ r, response = .ok r → r.message.role = .assistant) :
    Owes (a.respond response) skipped := by
  cases response with
  | error e => exact h.leave rfl rfl
  | ok r =>
    have hcount : Owes { a with totalTokensUsed := a.totalTokensUsed + r.totalTokens } skipped :=
      ⟨h.remaining,h.completed,h.current,h.idle,h.role⟩
    simp only [TaskAgent.respond]
    split
    · exact h.leave rfl rfl
    · split
      · refine h.keep hdue rfl rfl (fun due hb => (Option.some.inj hb).symm) rfl nofun ?_
        rintro _ ⟨⟩
        exact hrole r rfl
      · exact hcount.process hdue (hrole r rfl)

theorem validate_owes (h : Owes a skipped) (hdue : a.phase.due = some []) (messageText : String)
    (feedback : Option String) : Owes (a.validate messageText feedback) skipped := by
  cases feedback with
  | none => exact h.leave rfl rfl
  | some text =>
    simp only [TaskAgent.validate]
    split
    · refine h.keep hdue ?_ rfl (fun due hb => (Option.some.inj hb).symm) rfl nofun nofun
      exact (history_push _ _).trans (List.append_nil _)
    · exact h.leave rfl rfl

/-- A tool call that is passed over is owed from then on. -/
theorem nextTool_owes (h : Owes a skipped) {pending : List ToolUse} (ha : a.phase = .tools pending) :
    ∃ skipped', Owes (a.nextTool pending) skipped' ∧
      (skipped' = [] ↔ skipped = [] ∧ skips a .nextTool = false) := by
  have hdue : a.phase.due = some (pending.map ToolUse.id) := by rw [ha]; rfl
  have hopen := h.remaining _ hdue
  cases pending with
  | nil =>
    refine ⟨skipped,⟨fun due hb => ?_,h.completed,nofun,nofun,nofun⟩,?_⟩
    · cases hb
      exact hopen
    · simp only [skips,ha,and_true]
  | cons t pending =>
    have hskips : skips a .nextTool = a.isCompleted t.id := by simp only [skips,ha]
    rw [hskips]
    rw [TaskAgent.nextTool]
    split
    · rename_i hcompleted
      refine ⟨skipped ++ [t.id],⟨fun due hb => ?_,fun id hid => ?_,nofun,nofun,nofun⟩,?_⟩
      · cases hb
        rw [List.append_assoc]
        exact hopen
      · rcases List.mem_append.mp hid with hid | hid
        · exact h.completed id hid
        · rw [List.mem_singleton.mp hid]
          exact hcompleted
      · simp [hcompleted]
    · rename_i hcompleted
      have hnot : a.isCompleted t.id = false := Bool.eq_false_iff.mpr hcompleted
      refine ⟨skipped,?_,by rw [hnot]; exact (and_iff_left rfl).symm⟩
      split
      · refine ⟨fun due hb => ?_,h.completed,fun t' ht' => ?_,nofun,nofun⟩
        · cases hb
          exact hopen
        · cases ht'
          exact hnot
      · refine ⟨fun due hb => ?_,h.completed,fun t' ht' => ?_,nofun,nofun⟩
        · cases hb
          exact hopen
        · cases ht'
          exact hnot

theorem locked_owes (h : Owes a skipped) {t : ToolUse} {path : String} {lockType : LockType}
    {pending : List ToolUse} (ha : a.phase = .locking t path lockType pending)
    (outcome : Except String Unit) : Owes (a.locked t path lockType pending outcome) skipped := by
  have hdue : a.phase.due = some (t.id :: pending.map ToolUse.id) := by rw [ha]; rfl
  have hcurrent : a.phase.current = some t := by rw [ha]; rfl
  cases outcome with
  | ok _ =>
    refine ⟨fun due hb => ?_,h.completed,fun t' ht' => ?_,nofun,nofun⟩
    · cases hb
      exact h.remaining _ hdue
    · cases ht'
      exact h.current t hcurrent
  | error e => exact h.answer hdue hcurrent _ rfl (fun _ hid => hid) rfl

theorem toolDone_owes (h : Owes a skipped) {t : ToolUse} {pending : List ToolUse}
    (ha : a.phase = .executing t pending) {outcome : Except String ToolResult}
    (hid : ∀ r, outcome = .ok r → r.toolUseId = t.id) (persisted : Bool) :
    Owes (a.toolDone t pending outcome persisted) skipped := by
  have hdue : a.phase.due = some (t.id :: pending.map ToolUse.id) := by rw [ha]; rfl
  have hcurrent : a.phase.current = some t := by rw [ha]; rfl
  cases outcome with
  | error e => exact h.leave rfl rfl
  | ok r =>
    refine h.answer hdue hcurrent r.content ?_ (fun id hcompleted => ?_) rfl
    · rw [← hid r rfl]
      rfl
    · rw [TaskAgent.isCompleted] at hcompleted ⊢
      cases hids : a.completedToolIds with
      | none =>
        rw [hids] at hcompleted
        cases hcompleted
      | some ids =>
        rw [hids] at hcompleted
        have hmem : id ∈ ids := List.contains_iff_mem.mp hcompleted
        simp only [TaskAgent.toolDone,TaskAgent.push,hids,Option.getD_some]
        by_cases hok : (!r.isError && persisted) = true
        · rw [if_pos hok]
          exact List.contains_iff_mem.mpr (List.mem_append_left _ hmem)
        · rw [if_neg hok]
          exact hcompleted

/-! ## Runs -/

/-- What is owed grows with the tool calls that are skipped, and never shrinks. -/
theorem Owes.next (h : Owes a skipped) {e : Event} (he : machine.enabled a e) :
    ∃ skipped', Owes (machine.next a e) skipped' ∧
      (skipped' = [] ↔ skipped = [] ∧ skips a e = false) := by
  have hkeep : ∀ {b}, Owes b skipped → skips a e = false → ∃ skipped', Owes b skipped' ∧
      (skipped' = [] ↔ skipped = [] ∧ skips a e = false) :=
    fun hb hskips => ⟨skipped,hb,by rw [hskips]; exact (and_iff_left rfl).symm⟩
  have hstep := step_of_enabled he
  generalize machine.next a e = b at hstep ⊢
  cases hstep with
  | start registers checkpoint ha =>
    exact hkeep (start_owes h ha registers checkpoint) (by simp only [skips,ha])
  | iterate elapsedSecs helpResponse ha =>
    exact hkeep (iterate_owes h (by rw [ha]; rfl) elapsedSecs helpResponse)
      (by simp only [skips,ha])
  | respond response ha hrole =>
    exact hkeep (respond_owes h (by rw [ha]; rfl) hrole) (by simp only [skips,ha])
  | record response ha =>
    refine hkeep ?_ (by simp only [skips,ha])
    refine h.keep (by rw [ha]; rfl) rfl rfl (fun due hb => (Option.some.inj hb).symm) rfl nofun ?_
    rintro r ⟨⟩
    exact h.role _ (by rw [ha]; rfl)
  | check response error ha =>
    refine hkeep ?_ (by simp only [skips,ha])
    cases error with
    | none => exact h.process (by rw [ha]; rfl) (h.role _ (by rw [ha]; rfl))
    | some e => exact h.leave rfl rfl
  | validate messageText feedback ha =>
    exact hkeep (validate_owes h (by rw [ha]; rfl) messageText feedback) (by simp only [skips,ha])
  | nextTool pending ha => exact nextTool_owes h ha
  | lock t path lockType pending outcome ha =>
    exact hkeep (locked_owes h ha outcome) (by simp only [skips,ha])
  | toolDone t pending outcome persisted ha hid =>
    exact hkeep (toolDone_owes h ha hid persisted) (by simp only [skips,ha])

theorem owes_of_answered (hidle : a.phase = .idle) (h : Answered a.history) : Owes a [] := by
  refine ⟨fun due hdue => ?_,nofun,fun t ht => ?_,fun _ => rfl,fun r hr => ?_⟩
  · rw [hidle] at hdue
    cases hdue
    exact h
  · rw [hidle] at ht
    cases ht
  · rw [hidle] at hr
    cases hr

theorem Owes.run (h : Owes a skipped) {es : List Event} (hr : machine.Run a es) :
    ∃ skipped', Owes (machine.exec a es) skipped' ∧
      (skipped' = [] ↔ skipped = [] ∧ ∀ p ∈ machine.trail a es, skips p.1 p.2 = false) := by
  induction es generalizing a skipped with
  | nil => exact ⟨skipped,h,by simp⟩
  | cons e es ih =>
    obtain ⟨he,hr⟩ := hr
    obtain ⟨skipped₁,h₁,hiff₁⟩ := h.next he
    obtain ⟨skipped',h',hiff⟩ := ih h₁ hr
    refine ⟨skipped',h',?_⟩
    rw [hiff,hiff₁,forall_trail_cons,and_assoc]

/-- At a call of the provider all tool uses have their results just where no tool call was skipped
before. -/
theorem toolUses_answered_iff (hidle : a.phase = .idle) (hhistory : Answered a.history) {es : List Event}
    (hr : machine.Run a es) (hcall : (machine.exec a es).phase = .calling) :
    Answered (machine.exec a es).history ↔
      ∀ p ∈ machine.trail a es, skips p.1 p.2 = false := by
  obtain ⟨skipped,h,hiff⟩ := (owes_of_answered hidle hhistory).run hr
  have hopen := h.remaining [] (by rw [hcall]; rfl)
  rw [List.append_nil] at hopen
  rw [Answered,hopen,Option.some.injEq,hiff,and_iff_right rfl]

/-- An agent with its defaults. -/
def reader : TaskAgent := { id := "agent-1",task := ⟨"task-1","Read the file.",0⟩,config := {} }

/-- One round of the loop: the provider asks for the file, and is answered. -/
def readRound (id : String) : List Event :=
  [.iterate 0 none,
    .respond (.ok { message := ⟨.assistant,.blocks [.toolUse
      ⟨id,"read_file",.object [("path",.string "notes.txt")]⟩]⟩ }),
    .nextTool,.lock (.ok ()),.toolDone (.ok ⟨id,"text",false⟩) true,.nextTool]

def distinctReads : List Event :=
  .start (.ok ()) none :: (readRound "call_0" ++ readRound "call_1" ++ [.iterate 0 none])

theorem distinctReads_answered : Answered (machine.exec reader distinctReads).history :=
  (toolUses_answered_iff (a := reader) rfl (by decide) (by decide) rfl).mpr (by decide)

/-- The provider numbers its calls from `call_0` in each response. -/
def repeatedReads : List Event :=
  .start (.ok ()) none :: (readRound "call_0" ++
    [.iterate 0 none,
      .respond (.ok { message := ⟨.assistant,.blocks [.toolUse
        ⟨"call_0","read_file",.object [("path",.string "other.txt")]⟩]⟩ }),
      .nextTool,.nextTool,.iterate 0 none])

theorem repeatedReads_unanswered : machine.Run reader repeatedReads ∧
    (machine.exec reader repeatedReads).phase = .calling ∧
    ¬ Answered (machine.exec reader repeatedReads).history :=
  ⟨by decide,rfl,by decide⟩

end Rullama.Agents
