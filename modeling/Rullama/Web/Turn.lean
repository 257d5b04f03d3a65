import Rullama.Transition.Machine
import Rullama.Web.Bubble
import Rullama.Web.Orchestration

/-! # A turn of the local model

The reply is streamed into the bubble, and flushed to the row every sixteen tokens or after a
while. Answers of tools and of the orchestrator are written to both directly.
-/
namespace Rullama.Web
open Text Transition
open ToolCalls (ToolCall parseToolCalls toolResponseBlock channelOpen channelClose
  dropNewline)

/-! ## Scripts in a reply -/

/-- The reply without its first block of reasoning. -/
def response (raw : Units) : Units :=
  match cut channelOpen raw with
  | none => raw
  | some (prelude,rest) =>
    match cut channelClose rest with
    | none => prelude
    | some (_,rest) => dropNewline (prelude ++ rest)

/-- A fence that opens here, and the text between it and the next one. -/
def fenceAt (s : Units) : Option Units :=
  if units "```" <+: s then
    let rest := s.drop 3
    let language := [units "rhai",units "rust",units "js"].find?
      (fun l => l <+: rest.map lowerUnit)
    let rest := rest.drop (language.elim 0 List.length)
    if unit '\n' ∈ rest.takeWhile isSpace then
      (cut (units "```") (rest.dropWhile isSpace)).map Prod.fst
    else none
  else none

def firstFence : Units → Option Units
  | [] => none
  | c :: s => (fenceAt (c :: s)).or (firstFence s)

/-- The body is trimmed, so that the blanks after the fence need not be told apart. -/
def extractScript (reply : Units) : Option Units :=
  let s := trim reply
  let s := (firstFence s).elim s trim
  if s = [] then none else some s

/-! ## The turn -/

/-- The model with its cache. -/
structure Engine (K : Type*) extends Vocabulary where
  step : K → ℕ → Except Units (K × ℕ)
  encode : Units → List ℕ

structure TurnState (K : Type*) where
  kv : K
  next : ℕ
  bubble : Bubble
  /-- all writes, in order -/
  writes : List Write
  emitted : ℕ
  fed : ℕ
  ctxLimitHit : Bool
  thrown : Option Units
  inflight : InflightGen

/-- When 750 milliseconds have passed since the last flush, and when the user has cancelled. -/
structure Clock (K : Type*) where
  late : TurnState K → Bool
  cancelled : TurnState K → Bool

structure TurnOptions where
  maxTokens : ℕ
  thinking : Bool
  toolMode : Bool
  orchestratorMode : Bool

/-- The tools as they are called one by one, with the round, and as a script calls them. -/
structure Toolbox where
  lower : Units → Units
  summary : ℕ → ToolCall → Units
  tools : Tools
  orchestrator : Except Units WasmOrchestrator

variable {K : Type*}

def TurnState.write (s : TurnState K) (w : Write) : TurnState K :=
  { s with bubble := s.bubble.write w, writes := s.writes ++ [w] }

variable (engine : Engine K) (clock : Clock K)

/-- The piece of the next token is written, and flushed every sixteen tokens or after a while. -/
def emitNext (s : TurnState K) : TurnState K :=
  let s := { s.write (.emit (piece engine.toVocabulary s.next)) with emitted := s.emitted + 1 }
  if s.emitted % 16 = 0 || clock.late s then s.write .flush else s

/-- Pieces are written until the model ends, the user cancels or the budget is used up. That the
context is full ends it too, or throws as any other error does. -/
def stream (graceful : Bool) : ℕ → TurnState K → TurnState K
  | 0,s => s
  | budget + 1,s =>
    if clock.cancelled s || engine.isEos s.next then s
    else
      let s := emitNext engine clock s
      match engine.step s.kv s.next with
      | .error message =>
        if graceful && isContextLimit message then { s with ctxLimitHit := true }
        else { s with thrown := some message }
      | .ok (kv,next) =>
        stream graceful budget
          { s with
            kv, next
            inflight := { s.inflight with
              emittedSoFar := s.bubble.content
              emittedTokenCount := s.emitted
              lastSampledNext := next } }

def streamTurn (budget : ℕ) (s : TurnState K) : TurnState K := stream engine clock true budget s

/-- Tokens that are fed and not shown. -/
def feed : List ℕ → TurnState K → TurnState K
  | [],s => s
  | id :: ids,s =>
    if clock.cancelled s then s
    else
      match engine.step s.kv id with
      | .error message => { s with thrown := some message }
      | .ok (kv,next) => feed ids { s with kv, next, fed := s.fed + 1 }

variable (options : TurnOptions) (toolbox : Toolbox)

def toolNames : List Units :=
  ["get_weather","get_current_weather","weather","current_weather","get_weather_forecast",
    "get_forecast","forecast","get_air_quality","air_quality","get_aqi","get_astronomy","astronomy",
    "get_sun_times","search_wikipedia","wikipedia","wiki","lookup_wikipedia","set_timer","timer",
    "start_timer","set_reminder","reminder","remind_me","get_news","news","search_news","headlines",
    "search_knowledge","search_notes","search_documents","search_docs","calculate","math",
    "compute_math","solve","analyze","units","convert_units"].map units

def isExecutableTool (name : Units) : Bool := toolNames.contains (toolbox.lower (trim name))

def hasArguments (c : ToolCall) : Bool :=
  match c.arguments with
  | .object _ | .array _ => true
  | _ => false

/-- The calls of a reply that are to be executed. -/
def execCalls (content : Units) : List ToolCall :=
  (parseToolCalls toolbox.lower content).calls.filter (fun c =>
    !c.pending && (c.result.getD []).isEmpty && isExecutableTool toolbox c.name && hasArguments c)

def respBlock (round : ℕ) (calls : List ToolCall) : Units :=
  units "\n" ++ calls.flatMap (fun c =>
      toolResponseBlock c.name (toolbox.summary round c) ++ units "\n") ++
    if options.thinking then channelOpen ++ units "\n" else []

/-- The rounds that are left of the tool loop. -/
def toolRounds : ℕ → ℕ → TurnState K → TurnState K
  | 0,_,s => s
  | n + 1,round,s =>
    if clock.cancelled s || s.thrown.isSome then s
    else
      let calls := execCalls toolbox s.bubble.content
      if calls = [] then s
      else
        let block := respBlock options toolbox round calls
        let s := s.write (.append block)
        if clock.cancelled s then s
        else
          let s := feed engine clock (engine.encode block) s
          if s.thrown.isSome then s
          else toolRounds n (round + 1) (streamTurn engine clock options.maxTokens s)

def scriptNote (error : Units) : Units :=
  units "\n<tool_response for=\"orchestrator\">That script could not run (" ++ error ++
    units "). Do NOT write a script. Answer the user now — if a tool is needed, emit " ++
    units "<tool_call>\x7b\"name\": \"<tool>\", \"arguments\": \x7b ... \x7d\x7d" ++
    units "</tool_call> blocks; otherwise just reply normally.</tool_response>\n"

/-- The script of the reply is run, and whether it has answered. -/
def orchestrate (s : TurnState K) : TurnState K × Bool :=
  if options.toolMode && options.orchestratorMode && !clock.cancelled s then
    match extractScript (response s.bubble.content) with
    | none => (s,false)
    | some script =>
      let result := (runOrchestration toolbox.tools script toolbox.orchestrator).1
      if result.ok then (s.write (.set result.output),true)
      else
        let s := s.write (.set [])
        let note := scriptNote (result.error.getD (units "null"))
        let s := feed engine clock (engine.encode note) s
        if s.thrown.isSome || clock.cancelled s then (s,false)
        else (streamTurn engine clock options.maxTokens s,false)
  else (s,false)

def maxToolRounds : ℕ := 5

/-- The tool loop, where the orchestrator has not answered. -/
def toolLoop (p : TurnState K × Bool) : TurnState K :=
  if options.toolMode && !p.2 then toolRounds engine clock options toolbox maxToolRounds 0 p.1
  else p.1

/-- The flush at the end, which a turn that has thrown does not come to. -/
def finish (s : TurnState K) : TurnState K := if s.thrown.isSome then s else s.write .flush

/-- From the first sampled token on. -/
def runTurn (s : TurnState K) : TurnState K :=
  let s := streamTurn engine clock options.maxTokens s
  if s.thrown.isSome then s
  else
    let p := orchestrate engine clock options toolbox s
    if p.1.thrown.isSome then p.1 else finish (toolLoop engine clock options toolbox p)

/-! ## What is stored and what is shown -/

def bubbleMachine : Machine Bubble Write := ⟨fun _ _ => True,Bubble.write⟩

theorem run_writes (b : Bubble) (ws : List Write) : bubbleMachine.Run b ws := by
  induction ws generalizing b with
  | nil => trivial
  | cons w ws ih => exact ⟨trivial,ih _⟩

/-- The bubble is what the writes have made of the first one. -/
def TurnState.Tracks (b : Bubble) (s : TurnState K) : Prop :=
  s.bubble = bubbleMachine.exec b s.writes

variable {engine : Engine K} {clock : Clock K} {options : TurnOptions} {toolbox : Toolbox}
  {b : Bubble} {s : TurnState K}

theorem TurnState.Tracks.write (h : s.Tracks b) (w : Write) : (s.write w).Tracks b := by
  rw [Tracks,TurnState.write,Machine.exec_append,← h]
  rfl

theorem TurnState.Tracks.emitNext (h : s.Tracks b) : (emitNext engine clock s).Tracks b := by
  have hemit := h.write (.emit (piece engine.toVocabulary s.next))
  unfold Web.emitNext
  dsimp only
  split
  · exact TurnState.Tracks.write (s := { s.write (.emit (piece engine.toVocabulary s.next)) with
      emitted := s.emitted + 1 }) hemit .flush
  · exact hemit

theorem TurnState.Tracks.stream (h : s.Tracks b) (graceful : Bool) (budget : ℕ) :
    (stream engine clock graceful budget s).Tracks b := by
  induction budget generalizing s with
  | zero => exact h
  | succ budget ih =>
    rw [Web.stream]
    split
    · exact h
    · have hemit : (Web.emitNext engine clock s).Tracks b := h.emitNext
      dsimp only
      split
      · split
        · exact hemit
        · exact hemit
      · exact ih hemit

theorem TurnState.Tracks.streamTurn (h : s.Tracks b) (budget : ℕ) :
    (streamTurn engine clock budget s).Tracks b := h.stream true budget

theorem TurnState.Tracks.feed (h : s.Tracks b) (ids : List ℕ) :
    (feed engine clock ids s).Tracks b := by
  induction ids generalizing s with
  | nil => exact h
  | cons id ids ih =>
    rw [Web.feed]
    split
    · exact h
    · split
      · exact h
      · exact ih h

theorem TurnState.Tracks.toolRounds (h : s.Tracks b) (n round : ℕ) :
    (toolRounds engine clock options toolbox n round s).Tracks b := by
  induction n generalizing round s with
  | zero => exact h
  | succ n ih =>
    rw [Web.toolRounds]
    split
    · exact h
    · dsimp only
      split
      · exact h
      · have hblock := h.write (.append (respBlock options toolbox round
          (execCalls toolbox s.bubble.content)))
        split
        · exact hblock
        · split
          · exact hblock.feed _
          · exact ih ((hblock.feed _).streamTurn _) _

theorem TurnState.Tracks.orchestrate (h : s.Tracks b) :
    (orchestrate engine clock options toolbox s).1.Tracks b := by
  rw [Web.orchestrate]
  split
  · split
    · exact h
    · dsimp only
      split
      · exact h.write _
      · split
        · exact (h.write _).feed _
        · exact ((h.write _).feed _).streamTurn _
  · exact h

theorem TurnState.Tracks.runTurn (h : s.Tracks b) :
    (runTurn engine clock options toolbox s).Tracks b := by
  have hstream : (Web.streamTurn engine clock options.maxTokens s).Tracks b := h.streamTurn _
  have hscript : (Web.orchestrate engine clock options toolbox
      (Web.streamTurn engine clock options.maxTokens s)).1.Tracks b := hstream.orchestrate
  rw [Web.runTurn]
  dsimp only
  split
  · exact hstream
  · split
    · exact hscript
    · have htools : (toolLoop engine clock options toolbox (Web.orchestrate engine clock options
          toolbox (Web.streamTurn engine clock options.maxTokens s))).Tracks b := by
        rw [toolLoop]
        split
        · exact hscript.toolRounds _ _
        · exact hscript
      rw [finish]
      split
      · exact htools
      · exact htools.write .flush

/-- A turn before it has written anything. -/
structure TurnState.Fresh (s : TurnState K) : Prop where
  bubble : s.bubble = {}
  writes : s.writes = []

theorem TurnState.Fresh.tracks (h : s.Fresh) : s.Tracks {} := by
  rw [Tracks,h.bubble,h.writes]
  rfl

/-- A turn that has not thrown has nothing pending in the end. -/
theorem pending_runTurn (h : (runTurn engine clock options toolbox s).thrown = none) :
    (runTurn engine clock options toolbox s).bubble.pending = [] := by
  rw [runTurn] at h ⊢
  dsimp only at h ⊢
  split at h
  · rename_i hthrown
    rw [h] at hthrown
    cases hthrown
  · rename_i hstream
    rw [if_neg hstream]
    split at h
    · rename_i hthrown
      rw [h] at hthrown
      cases hthrown
    · rename_i hscript
      rw [if_neg hscript]
      rw [finish] at h ⊢
      split at h
      · rename_i hthrown
        rw [h] at hthrown
        cases hthrown
      · rename_i htools
        rw [if_neg htools]
        rfl

/-! ## Turns without tools -/

/-- Nothing but the stream has been written. -/
def TurnState.Streams (s : TurnState K) : Prop :=
  ∀ w ∈ s.writes, (∃ text, w = .emit text) ∨ w = .flush

theorem TurnState.Streams.write (h : s.Streams) {w : Write}
    (hw : (∃ text, w = .emit text) ∨ w = .flush) : (s.write w).Streams :=
  List.forall_mem_append.mpr ⟨h,List.forall_mem_singleton.mpr hw⟩

theorem TurnState.Streams.stream (h : s.Streams) (graceful : Bool) (budget : ℕ) :
    (stream engine clock graceful budget s).Streams := by
  induction budget generalizing s with
  | zero => exact h
  | succ budget ih =>
    rw [Web.stream]
    split
    · exact h
    · have hemit : (emitNext engine clock s).Streams := by
        have hpiece := h.write (.inl ⟨piece engine.toVocabulary s.next,rfl⟩)
        unfold emitNext
        dsimp only
        split
        · exact TurnState.Streams.write
            (s := { s.write (.emit (piece engine.toVocabulary s.next)) with
              emitted := s.emitted + 1 })
            hpiece (.inr rfl)
        · exact hpiece
      dsimp only
      split
      · split
        · exact hemit
        · exact hemit
      · exact ih hemit

theorem harmless_of_streams (h : s.Streams) (b : Bubble) :
    ∀ p ∈ bubbleMachine.trail b s.writes, Harmless p.1 p.2 := by
  intro p hp
  rcases h p.2 (Machine.mem_of_mem_trail hp) with ⟨text,hw⟩ | hw
  · rw [hw]
    trivial
  · rw [hw]
    trivial

theorem streams_runTurn (hmode : options.toolMode = false) (h : s.Streams) :
    (runTurn engine clock options toolbox s).Streams := by
  have hstream : (streamTurn engine clock options.maxTokens s).Streams := h.stream true _
  have hscript : orchestrate engine clock options toolbox
      (streamTurn engine clock options.maxTokens s) =
        (streamTurn engine clock options.maxTokens s,false) := by
    rw [orchestrate,hmode]
    rfl
  have hloop : toolLoop engine clock options toolbox
      (streamTurn engine clock options.maxTokens s,false) =
        streamTurn engine clock options.maxTokens s := by
    rw [toolLoop,hmode]
    rfl
  rw [runTurn]
  dsimp only
  rw [hscript]
  split
  · exact hstream
  · rw [hloop,finish]
    split
    · exact hstream
    · exact hstream.write (.inr rfl)

/-! ## What a turn stores -/

/-- It calls a tool in one token, ends, and says "ok" after the response. -/
def solver : Engine ℕ where
  step := fun position _ => .ok (position + 1,if position = 1 then 2 else 1)
  tokenStr := fun token =>
    if token = 0 then
      some "<tool_call>\x7b\"name\": \"solve\", \"arguments\": \x7b\x7d\x7d</tool_call>"
    else some "ok"
  isEos := fun token => token = 1
  encode := fun _ => [7]

def quickClock : Clock ℕ := ⟨fun _ => false,fun _ => false⟩

def toolTurn : TurnOptions := ⟨1024,false,true,false⟩

def answering : Toolbox := ⟨id,fun _ _ => units "42",passTools,.error []⟩

def begin : TurnState ℕ := ⟨0,0,{},[],0,0,false,none,{ promptIds := [], maxTokens := 1024 }⟩

example : (runTurn solver quickClock toolTurn answering begin).bubble.row ≠
    (runTurn solver quickClock toolTurn answering begin).bubble.content := by decide +kernel

end Rullama.Web
