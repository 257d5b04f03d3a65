import Rullama.Native.ToolCalling
import Rullama.ToolCalls.Scan

/-! # The tool loop of the native app

Calls are read from the whole reply again in each round, and those that are new by their number
are executed. Their results are appended to the same reply, and the model goes on behind them.
-/
namespace Rullama.Native.ToolLoop

open Text
open ToolCalls (toolCallOpenPrefix toolCallClose toolResponseBlock lt)
open ToolCalling (Args isWhiteSpace parseInner)

/-! ## Reading calls -/

/-- The letters of the markers regardless of their case. -/
def fold (c : UInt16) : UInt16 := if unit 'A' ≤ c && c ≤ unit 'Z' then c + 32 else c

/-- What stands before the first occurrence of a marker, the occurrence and what comes after. -/
def cutFold (m s : Units) : Option (Units × Units × Units) :=
  (cut m (s.map fold)).map (fun p =>
    (s.take p.1.length,(s.drop p.1.length).take m.length,s.drop (p.1.length + m.length)))

structure ToolCall where
  name : Units
  args : Args
  raw : Units
  deriving DecidableEq

/-- What `\s*>?\s*` takes. -/
def skipBracket (s : Units) : Units :=
  let s := s.dropWhile isWhiteSpace
  (if s.head? = some (unit '>') then s.tail else s).dropWhile isWhiteSpace

/-- The next match of `CallRegex`: its group and its text, and what comes after it. -/
def nextCall (s : Units) : Option ((Units × Units) × Units) :=
  match cutFold toolCallOpenPrefix s with
  | none => none
  | some (_,tag,after) =>
    match cutFold toolCallClose after with
    | none => none
    | some (inner,close,rest) => some ((skipBracket inner,tag ++ (inner ++ close)),rest)

variable (jsonForm : Units → Option (Units × Args))

def toolCall (m : Units × Units) : Option ToolCall :=
  let p := parseInner jsonForm (ToolCalling.trim m.1)
  if p.1 = [] then none else some ⟨p.1,p.2,m.2⟩

/-- `ToolCalling.Parse` -/
def parse (text : Units) : List ToolCall := (split nextCall text).1.filterMap (toolCall jsonForm)

/-! ## The loop -/

def maxRounds : ℕ := 5

/-- What the model generated at one time, and the calls that were executed then with their
results. -/
structure Turn where
  segment : Units
  answered : List (ToolCall × Units)

def block (p : ToolCall × Units) : Units := toolResponseBlock p.1.name p.2

def Turn.text (t : Turn) : Units := t.segment ++ t.answered.flatMap block

inductive Phase
  /-- the model generates -/
  | generating
  /-- the loop condition comes next -/
  | checking
  /-- calls are executed from this index on -/
  | executing (calls : List ToolCall) (i : ℕ)
  | finished
  /-- cancelled, or failed with a notice -/
  | stopped (notice : Units)

/-- The loop's own variables, and what happened so far. -/
structure State where
  text : Units := []
  executed : ℕ := 0
  round : ℕ := 0
  phase : Phase := .generating
  turns : List Turn := []
  current : Turn := ⟨[],[]⟩

/-- What comes from outside. -/
inductive Event
  | piece (text : Units)
  /-- the model comes to an end -/
  | generated
  | check
  | result (text : Units)
  /-- no call is left -/
  | advance
  | stop (notice : Units)

inductive Step : State → Event → State → Prop
  | piece {s : State} (text : Units) : s.phase = .generating →
      Step s (.piece text) { s with
        text := s.text ++ text
        current := { s.current with segment := s.current.segment ++ text } }
  | generated {s : State} : s.phase = .generating →
      Step s .generated { s with phase := .checking }
  | rounds {s : State} : s.phase = .checking → maxRounds ≤ s.round →
      Step s .check { s with phase := .finished }
  | noCalls {s : State} : s.phase = .checking → s.round < maxRounds →
      (parse jsonForm s.text).length ≤ s.executed → Step s .check { s with phase := .finished }
  | calls {s : State} : s.phase = .checking → s.round < maxRounds →
      s.executed < (parse jsonForm s.text).length →
      Step s .check { s with phase := .executing (parse jsonForm s.text) s.executed }
  | result {s : State} {calls : List ToolCall} {i : ℕ} {c : ToolCall} (text : Units) :
      s.phase = .executing calls i → calls[i]? = some c →
      Step s (.result text) { s with
        text := s.text ++ block (c,text)
        phase := .executing calls (i + 1)
        current := { s.current with answered := s.current.answered ++ [(c,text)] } }
  | advance {s : State} {calls : List ToolCall} {i : ℕ} :
      s.phase = .executing calls i → calls.length ≤ i →
      Step s .advance { s with
        executed := calls.length
        round := s.round + 1
        phase := .generating
        turns := s.turns ++ [s.current]
        current := ⟨[],[]⟩ }
  | stop {s : State} (notice : Units) : s.phase ≠ .finished →
      (∀ n, s.phase ≠ .stopped n) →
      Step s (.stop notice) { s with text := s.text ++ notice, phase := .stopped notice }

/-! ## What the loop is for -/

def State.notice (s : State) : Units :=
  match s.phase with
  | .stopped notice => notice
  | _ => []

/-- The calls of the model, read from what it generated alone. -/
def ownCalls (turns : List Turn) : List ToolCall := turns.flatMap (fun t => parse jsonForm t.segment)

/-- In each turn the calls of the model are executed one after the other, and each is followed by
its result. Nothing else counts as a call, and only what the model generates in the end is not
executed any more. -/
structure Right (s : State) : Prop where
  text : s.text = s.turns.flatMap Turn.text ++ s.current.text ++ s.notice
  executed : ∀ t ∈ s.turns, t.answered.map Prod.fst = parse jsonForm t.segment
  executing : s.current.answered.map Prod.fst <+: parse jsonForm s.current.segment
  counted : ∀ calls i, s.phase = .executing calls i →
    calls = ownCalls jsonForm s.turns ++ parse jsonForm s.current.segment
  finished : s.phase = .finished → s.current.answered = [] ∧
    (parse jsonForm s.current.segment = [] ∨ s.turns.length = maxRounds)

/-- No call stands open behind the last closed one. -/
def Settled (text : Units) : Prop := ¬toolCallOpenPrefix <:+: (split nextCall text).2.map fold

/-- No call in a result is counted or stands open. -/
def Harmless (p : ToolCall × Units) : Prop := parse jsonForm (block p) = [] ∧ Settled (block p)

/-- What a result has to meet when it is appended. -/
def Fair (s : State) : Event → Prop
  | .result text => Settled s.current.segment ∧ ∀ calls i c, s.phase = .executing calls i →
      calls[i]? = some c → Harmless jsonForm (c,text)
  | _ => True

/-- Steps one after the other that all meet a condition. -/
inductive Run (meets : State → Event → Prop) : State → State → Prop
  | refl {s : State} : Run meets s s
  | tail {s s' s'' : State} {e : Event} : Run meets s s' → Step jsonForm s' e s'' →
      meets s' e → Run meets s s''

/-! ## Reading on -/

section Reading

variable {jsonForm} {m s t u r rest : Units}

theorem cutFold_eq_some {before found after : Units} (h : cutFold m s = some (before,found,after)) :
    ∃ p, cut m (s.map fold) = some p ∧ before = s.take p.1.length ∧
      found = (s.drop p.1.length).take m.length ∧ after = s.drop (p.1.length + m.length) ∧
      p.1.length + m.length ≤ s.length := by
  obtain ⟨p,hp,heq⟩ := Option.map_eq_some_iff.mp h
  cases heq
  refine ⟨p,hp,rfl,rfl,rfl,?_⟩
  have hlength := congrArg List.length (eq_append_of_cut hp)
  rw [List.length_map,List.length_append,List.length_append] at hlength
  omega

theorem cutFold_append {before found after : Units}
    (h : cutFold m s = some (before,found,after)) (u : Units) :
    cutFold m (s ++ u) = some (before,found,after ++ u) := by
  obtain ⟨p,hp,rfl,rfl,rfl,hlength⟩ := cutFold_eq_some h
  have hcut : cut m ((s ++ u).map fold) = some (p.1,p.2 ++ u.map fold) := by
    rw [List.map_append]
    exact cut_append hp _
  have hbefore : p.1.length ≤ s.length := by omega
  have hfound : m.length ≤ (s.drop p.1.length).length := by
    rw [List.length_drop]
    omega
  rw [cutFold,hcut]
  simp only [Option.map_some]
  rw [List.take_append_of_le_length hbefore,List.drop_append_of_le_length hbefore,
    List.take_append_of_le_length hfound,List.drop_append_of_le_length hlength]

theorem cutFold_through (h : Through m (r.map fold) (u.map fold)) :
    cutFold m (r ++ u) = (cutFold m u).map (fun p => (r ++ p.1,p.2)) := by
  rw [cutFold,List.map_append,h,cutFold,Option.map_map,Option.map_map]
  cases cut m (u.map fold) with
  | none => rfl
  | some p =>
    simp only [Option.map_some,Function.comp_apply,List.length_append,List.length_map]
    rw [List.take_length_add_append,List.drop_length_add_append,Nat.add_assoc,
      List.drop_length_add_append]

theorem length_cutFold {before found after : Units} (h : cutFold m s = some (before,found,after)) :
    after.length + m.length ≤ s.length := by
  obtain ⟨p,-,-,-,rfl,hlength⟩ := cutFold_eq_some h
  rw [List.length_drop]
  omega

theorem nextCall_eq_some {b : Units × Units} (h : nextCall s = some (b,rest)) :
    ∃ before tag after inner close, cutFold toolCallOpenPrefix s = some (before,tag,after) ∧
      cutFold toolCallClose after = some (inner,close,rest) ∧
      b = (skipBracket inner,tag ++ (inner ++ close)) := by
  rw [nextCall] at h
  split at h
  · cases h
  · rename_i before tag after hopen
    split at h
    · cases h
    · rename_i inner close rest hclose
      cases h
      exact ⟨before,tag,after,inner,close,hopen,hclose,rfl⟩

theorem nextCall_shortens : Shortens nextCall := by
  intro s b rest h
  obtain ⟨before,tag,after,inner,close,hopen,hclose,-⟩ := nextCall_eq_some h
  have hafter := length_cutFold hopen
  have hrest := length_cutFold hclose
  have hpos : 0 < toolCallClose.length := by decide
  omega

theorem nextCall_append {b : Units × Units} (h : nextCall s = some (b,rest)) (u : Units) :
    nextCall (s ++ u) = some (b,rest ++ u) := by
  obtain ⟨before,tag,after,inner,close,hopen,hclose,rfl⟩ := nextCall_eq_some h
  rw [nextCall,cutFold_append hopen u]
  simp only [cutFold_append hclose u]

theorem nextCall_through (h : Through toolCallOpenPrefix (r.map fold) (u.map fold)) :
    nextCall (r ++ u) = nextCall u := by
  rw [nextCall,nextCall,cutFold_through h]
  cases cutFold toolCallOpenPrefix u with
  | none => rfl
  | some p => rfl

/-- Behind a text that leaves no call open the reading starts anew. -/
theorem split_append (h : Through toolCallOpenPrefix ((split nextCall t).2.map fold) (u.map fold)) :
    (split nextCall (t ++ u)).1 = (split nextCall t).1 ++ (split nextCall u).1 := by
  induction t using nextCall_shortens.induction with
  | hnone t ht =>
    rw [split_of_none ht] at h ⊢
    have hnext := nextCall_through h
    rw [List.nil_append]
    cases hu : nextCall u with
    | none =>
      rw [hu] at hnext
      rw [split_of_none hnext,split_of_none hu]
    | some p =>
      rw [hu] at hnext
      rw [split_of_some nextCall_shortens hnext,split_of_some nextCall_shortens hu]
  | hsome t b rest ht ih =>
    rw [split_of_some nextCall_shortens ht] at h ⊢
    rw [split_of_some nextCall_shortens (nextCall_append ht u),ih h,List.cons_append]

theorem parse_append (h : Through toolCallOpenPrefix ((split nextCall t).2.map fold) (u.map fold)) :
    parse jsonForm (t ++ u) = parse jsonForm t ++ parse jsonForm u := by
  rw [parse,split_append h,List.filterMap_append,← parse,← parse]

/-- A text that ends with a letter that the marker does not have. -/
theorem through_of_getLast? {α : Type*} [DecidableEq α] {m b c : List α} {y : α}
    (hy : y ∉ m) (hb : ¬m <:+: b) (hlast : ∀ z ∈ b.getLast?, z = y) : Through m b c := by
  induction b with
  | nil =>
    rw [Through,List.nil_append]
    cases cut m c <;> rfl
  | cons d b ih =>
    rw [List.infix_cons_iff,not_or] at hb
    have hnot : ¬m <+: d :: (b ++ c) := by
      intro hpre
      rcases Nat.lt_or_ge (d :: b).length m.length with hlong | hshort
      · have hprefix : d :: b <+: m :=
          List.prefix_of_prefix_length_le (List.prefix_append (d :: b) c) hpre hlong.le
        obtain ⟨z,hz⟩ : ∃ z, (d :: b).getLast? = some z :=
          ⟨_,List.getLast?_eq_some_getLast (List.cons_ne_nil d b)⟩
        have hzy := hlast z hz
        exact hy (hzy ▸ hprefix.subset (List.mem_of_getLast? hz))
      · exact hb.1 (List.prefix_of_prefix_length_le hpre (List.prefix_append (d :: b) c) hshort)
    have hrest : Through m b c := by
      refine ih hb.2 fun z hz => hlast z ?_
      cases b with
      | nil => cases hz
      | cons e b => rwa [List.getLast?_cons_cons]
    rw [Through,List.cons_append,cut_cons_of_not_isPrefix hnot,hrest,Option.map_map]
    rfl

theorem suffix_split (t : Units) : (split nextCall t).2 <:+ t := by
  induction t using nextCall_shortens.induction with
  | hnone t ht =>
    rw [split_of_none ht]
  | hsome t b rest ht ih =>
    obtain ⟨before,tag,after,inner,close,hopen,hclose,-⟩ := nextCall_eq_some ht
    obtain ⟨p,-,-,-,rfl,-⟩ := cutFold_eq_some hopen
    obtain ⟨q,-,-,-,rfl,-⟩ := cutFold_eq_some hclose
    rw [split_of_some nextCall_shortens ht]
    exact ih.trans ((List.drop_suffix _ _).trans (List.drop_suffix _ _))

end Reading

/-! ## Turns -/

section Turns

variable {jsonForm} {segment u : Units} {turns : List Turn}

theorem block_eq (p : ToolCall × Units) : ∃ body, block p = lt :: body ++ [unit '>'] := by
  refine ⟨(units "tool_response for=\"" ++ (p.1.name ++ (units "\">" ++
    (p.2 ++ units "</tool_response")))),?_⟩
  have hopen : units "<tool_response for=\"" = lt :: units "tool_response for=\"" := rfl
  have hclose : ToolCalls.toolResponseClose = units "</tool_response" ++ [unit '>'] := rfl
  rw [block,toolResponseBlock,hopen,hclose]
  simp only [List.cons_append,List.append_assoc]

theorem startsAt_block (p : ToolCall × Units) (u : Units) :
    StartsAt lt ((block p ++ u).map fold) := by
  obtain ⟨body,hbody⟩ := block_eq p
  refine .inr ?_
  rw [hbody]
  rfl

/-- A harmless result is read over. -/
theorem parse_block {p : ToolCall × Units} (h : Harmless jsonForm p) (u : Units) :
    parse jsonForm (block p ++ u) = parse jsonForm u := by
  obtain ⟨hparse,hsettled⟩ := h
  have hclose : unit '>' ∉ toolCallOpenPrefix := by decide
  have hthrough : Through toolCallOpenPrefix ((split nextCall (block p)).2.map fold) (u.map fold) := by
    refine through_of_getLast? hclose hsettled fun z hz => ?_
    rw [List.getLast?_map] at hz
    obtain ⟨w,hw,rfl⟩ := Option.map_eq_some_iff.mp hz
    obtain ⟨front,hfront⟩ := suffix_split (block p)
    obtain ⟨body,hbody⟩ := block_eq p
    have hlast : (block p).getLast? = some w := by
      rw [← hfront,List.getLast?_append_of_ne_nil]
      · exact hw
      · rintro hnil
        rw [hnil] at hw
        cases hw
    rw [hbody,List.getLast?_concat] at hlast
    cases hlast
    decide
  rw [parse_append hthrough,hparse,List.nil_append]

theorem parse_blocks {ps : List (ToolCall × Units)} (h : ∀ p ∈ ps, Harmless jsonForm p)
    (u : Units) : parse jsonForm (ps.flatMap block ++ u) = parse jsonForm u := by
  induction ps with
  | nil => rfl
  | cons p ps ih =>
    rw [List.flatMap_cons,List.append_assoc,parse_block (h p List.mem_cons_self),
      ih fun q hq => h q (List.mem_cons_of_mem _ hq)]

/-- What the model generated leaves no call open, and a result comes next. -/
theorem parse_segment (h : Settled segment) (hu : StartsAt lt (u.map fold)) :
    parse jsonForm (segment ++ u) = parse jsonForm segment ++ parse jsonForm u :=
  parse_append (ToolCalls.sharp_open.cut_append h hu)

/-- A turn that was executed and answered. -/
structure Turn.Done (jsonForm : Units → Option (Units × Args)) (t : Turn) : Prop where
  executed : t.answered.map Prod.fst = parse jsonForm t.segment
  some_call : t.answered ≠ []
  settled : Settled t.segment
  harmless : ∀ p ∈ t.answered, Harmless jsonForm p

theorem Turn.Done.parse_text {t : Turn} (h : t.Done jsonForm) (u : Units) :
    parse jsonForm (t.text ++ u) = parse jsonForm t.segment ++ parse jsonForm u := by
  have hstart : StartsAt lt ((t.answered.flatMap block ++ u).map fold) := by
    obtain ⟨p,ps,hps⟩ := List.exists_cons_of_ne_nil h.some_call
    rw [hps,List.flatMap_cons,List.append_assoc]
    exact startsAt_block p _
  rw [Turn.text,List.append_assoc,parse_segment h.settled hstart,parse_blocks h.harmless]

theorem parse_turns (h : ∀ t ∈ turns, t.Done jsonForm) (u : Units) :
    parse jsonForm (turns.flatMap Turn.text ++ u) = ownCalls jsonForm turns ++ parse jsonForm u := by
  induction turns with
  | nil => rfl
  | cons t turns ih =>
    rw [List.flatMap_cons,List.append_assoc,(h t List.mem_cons_self).parse_text,
      ih fun t' ht' => h t' (List.mem_cons_of_mem _ ht'),ownCalls,ownCalls,List.flatMap_cons,
      List.append_assoc]

end Turns

/-! ## Runs -/

section Runs

variable {jsonForm} {s s' : State} {e : Event}

/-- What holds of the turn that goes on, by where the loop is. -/
def Current (jsonForm : Units → Option (Units × Args)) (s : State) : Prop :=
  match s.phase with
  | .generating | .checking => s.current.answered = []
  | .executing calls i =>
    calls = ownCalls jsonForm s.turns ++ parse jsonForm s.current.segment ∧
      i = s.executed + s.current.answered.length ∧
      (s.executed < calls.length ∧ s.round < maxRounds) ∧
      s.current.answered.map Prod.fst =
        (parse jsonForm s.current.segment).take s.current.answered.length ∧
      (s.current.answered ≠ [] → Settled s.current.segment) ∧
      ∀ p ∈ s.current.answered, Harmless jsonForm p
  | .finished => s.current.answered = [] ∧
      (parse jsonForm s.current.segment = [] ∨ s.round = maxRounds)
  | .stopped _ => s.current.answered.map Prod.fst <+: parse jsonForm s.current.segment

structure Inv (jsonForm : Units → Option (Units × Args)) (s : State) : Prop where
  text : s.text = s.turns.flatMap Turn.text ++ s.current.text ++ s.notice
  turns : ∀ t ∈ s.turns, t.Done jsonForm
  executed : s.executed = (ownCalls jsonForm s.turns).length
  round : s.round = s.turns.length ∧ s.round ≤ maxRounds
  current : Current jsonForm s

theorem Inv.right (h : Inv jsonForm s) : Right jsonForm s := by
  have hcurrent := h.current
  refine ⟨h.text,fun t ht => (h.turns t ht).executed,?_,?_,?_⟩
  · rw [Current] at hcurrent
    split at hcurrent
    · rw [hcurrent]
      exact List.nil_prefix
    · rw [hcurrent]
      exact List.nil_prefix
    · rw [hcurrent.2.2.2.1]
      exact List.take_prefix _ _
    · rw [hcurrent.1]
      exact List.nil_prefix
    · exact hcurrent
  · intro calls i hphase
    rw [Current,hphase] at hcurrent
    exact hcurrent.1
  · intro hphase
    rw [Current,hphase] at hcurrent
    exact ⟨hcurrent.1,h.round.1 ▸ hcurrent.2⟩

theorem inv_start : Inv jsonForm {} where
  text := rfl
  turns := List.forall_mem_nil _
  executed := rfl
  round := ⟨rfl,Nat.zero_le _⟩
  current := rfl

theorem text_nil_answered {t : Turn} (h : t.answered = []) : t.text = t.segment := by
  rw [Turn.text,h,List.flatMap_nil,List.append_nil]

theorem Inv.parse_text (h : Inv jsonForm s) (hphase : s.phase = .checking) :
    parse jsonForm s.text = ownCalls jsonForm s.turns ++ parse jsonForm s.current.segment := by
  have hcurrent := h.current
  rw [Current,hphase] at hcurrent
  have hnotice : s.notice = [] := by rw [State.notice,hphase]
  rw [h.text,hnotice,List.append_nil,text_nil_answered hcurrent,parse_turns h.turns]

theorem notice_eq (h : ∀ n, s.phase ≠ .stopped n) : s.notice = [] := by
  rw [State.notice]
  split
  · rename_i n hphase
    exact absurd hphase (h n)
  · rfl

/-- The text while the loop runs. -/
theorem Inv.text_running (h : Inv jsonForm s) (hphase : ∀ n, s.phase ≠ .stopped n) :
    s.text = s.turns.flatMap Turn.text ++ s.current.text := by
  rw [h.text,notice_eq hphase,List.append_nil]

theorem Inv.text_at (h : Inv jsonForm s) {phase : Phase} (hphase : s.phase = phase)
    (hrunning : ∀ n, phase ≠ .stopped n) :
    s.text = s.turns.flatMap Turn.text ++ s.current.text :=
  h.text_running fun n => hphase ▸ hrunning n

theorem Inv.piece (h : Inv jsonForm s) (hphase : s.phase = .generating) (text : Units) :
    Inv jsonForm { s with
      text := s.text ++ text
      current := { s.current with segment := s.current.segment ++ text } } := by
  have hcurrent := h.current
  rw [Current,hphase] at hcurrent
  have htext := h.text_at hphase fun _ h => (nomatch h)
  refine ⟨?_,h.turns,h.executed,h.round,?_⟩
  · have hsegment : (Turn.mk (s.current.segment ++ text) s.current.answered).text =
        s.current.text ++ text := by
      rw [text_nil_answered hcurrent,Turn.text,hcurrent,List.flatMap_nil,List.append_nil]
    rw [State.notice,hphase,List.append_nil,hsegment,htext,List.append_assoc]
  · rw [Current,hphase]
    exact hcurrent

theorem Inv.result (h : Inv jsonForm s) {calls : List ToolCall} {i : ℕ} {c : ToolCall}
    {text : Units} (hphase : s.phase = .executing calls i) (hcall : calls[i]? = some c)
    (hsettled : Settled s.current.segment) (hharmless : Harmless jsonForm (c,text)) :
    Inv jsonForm { s with
      text := s.text ++ block (c,text)
      phase := .executing calls (i + 1)
      current := { s.current with answered := s.current.answered ++ [(c,text)] } } := by
  have hcurrent := h.current
  rw [Current,hphase] at hcurrent
  obtain ⟨hcalls,hi,hsome,hdone,-,hall⟩ := hcurrent
  have htext := h.text_at hphase fun _ h => (nomatch h)
  -- the call is the next one of the model in this turn
  have hnext : (parse jsonForm s.current.segment)[s.current.answered.length]? = some c := by
    rw [hcalls,hi,h.executed,List.getElem?_append_right (by omega),Nat.add_sub_cancel_left] at hcall
    exact hcall
  refine ⟨?_,h.turns,h.executed,h.round,hcalls,?_,hsome,?_,fun _ => hsettled,?_⟩
  · rw [htext,Turn.text,Turn.text,List.flatMap_append,State.notice,List.append_nil]
    simp only [List.flatMap_singleton,List.append_assoc]
  · rw [hi,List.length_append,List.length_singleton,Nat.add_assoc]
  · rw [List.map_append,hdone,List.length_append,List.length_singleton,List.take_add_one,hnext]
    rfl
  · intro p hp
    rcases List.mem_append.mp hp with hp | hp
    · exact hall p hp
    · rw [List.mem_singleton.mp hp]
      exact hharmless

/-- All calls of the turn are executed, at least one. -/
theorem Inv.advance (h : Inv jsonForm s) {calls : List ToolCall} {i : ℕ}
    (hphase : s.phase = .executing calls i) (hall : calls.length ≤ i) :
    Inv jsonForm { s with
      executed := calls.length
      round := s.round + 1
      phase := .generating
      turns := s.turns ++ [s.current]
      current := ⟨[],[]⟩ } := by
  have hcurrent := h.current
  rw [Current,hphase] at hcurrent
  obtain ⟨hcalls,hi,⟨hsome,hround⟩,hdone,hsettled,hharmless⟩ := hcurrent
  have htext := h.text_at hphase fun _ h => (nomatch h)
  have hlength := congrArg List.length hcalls
  rw [List.length_append,← h.executed] at hlength
  have hne : s.current.answered ≠ [] := by
    rintro hnil
    rw [hnil,List.length_nil] at hi
    omega
  have hturn : s.current.Done jsonForm := by
    refine ⟨?_,hne,hsettled hne,hharmless⟩
    rw [hdone,List.take_of_length_le (by omega)]
  refine ⟨?_,?_,?_,?_,rfl⟩
  · rw [htext,List.flatMap_append,List.flatMap_singleton]
    exact ((List.append_nil _).trans (List.append_nil _)).symm
  · intro t ht
    rcases List.mem_append.mp ht with ht | ht
    · exact h.turns t ht
    · rw [List.mem_singleton.mp ht]
      exact hturn
  · rw [ownCalls,List.flatMap_append,List.flatMap_singleton,← ownCalls,hcalls]
  · rw [List.length_append,List.length_singleton,← h.round.1]
    exact ⟨rfl,hround⟩

theorem Inv.step (h : Inv jsonForm s) (hstep : Step jsonForm s e s') (hfair : Fair jsonForm s e) :
    Inv jsonForm s' := by
  have hcurrent := h.current
  cases hstep with
  | piece text hphase => exact h.piece hphase text
  | generated hphase =>
    rw [Current,hphase] at hcurrent
    have htext := h.text_at hphase fun _ h => (nomatch h)
    exact ⟨htext.trans (List.append_nil _).symm,h.turns,h.executed,h.round,hcurrent⟩
  | rounds hphase hround =>
    rw [Current,hphase] at hcurrent
    have htext := h.text_at hphase fun _ h => (nomatch h)
    refine ⟨htext.trans (List.append_nil _).symm,h.turns,h.executed,h.round,hcurrent,.inr ?_⟩
    exact Nat.le_antisymm h.round.2 hround
  | noCalls hphase hround hfew =>
    have hparse := h.parse_text hphase
    rw [Current,hphase] at hcurrent
    have htext := h.text_at hphase fun _ h => (nomatch h)
    refine ⟨htext.trans (List.append_nil _).symm,h.turns,h.executed,h.round,hcurrent,.inl ?_⟩
    rw [hparse,List.length_append,h.executed] at hfew
    have hnone : (parse jsonForm s.current.segment).length = 0 := by omega
    exact List.eq_nil_of_length_eq_zero hnone
  | calls hphase hround hmore =>
    have hparse := h.parse_text hphase
    rw [Current,hphase] at hcurrent
    have htext := h.text_at hphase fun _ h => (nomatch h)
    refine ⟨htext.trans (List.append_nil _).symm,h.turns,h.executed,h.round,hparse,?_,
      ⟨hmore,hround⟩,?_,?_,?_⟩
    · rw [hcurrent]
      rfl
    · rw [hcurrent]
      rfl
    · exact fun hne => absurd hcurrent hne
    · rw [hcurrent]
      exact List.forall_mem_nil _
  | @result calls i c text hphase hcall =>
    exact h.result hphase hcall hfair.1 (hfair.2 calls i c hphase hcall)
  | @advance calls i hphase hall => exact h.advance hphase hall
  | stop notice hfinished hstopped =>
    have htext := h.text_running hstopped
    refine ⟨?_,h.turns,h.executed,h.round,h.right.executing⟩
    rw [htext]
    rfl

theorem Run.inv (h : Run jsonForm (Fair jsonForm) s s') (hs : Inv jsonForm s) :
    Inv jsonForm s' := by
  induction h with
  | refl => exact hs
  | tail _ hstep hfair ih => exact ih.step hstep hfair

end Runs

def newsText : Units := units "<tool_call>get_news(\"rust\")</tool_call>"

def newsCall : ToolCall := ⟨units "get_news",[(units "query",units "rust")],newsText⟩

theorem parse_newsText : parse (fun _ => none) newsText = [newsCall] := by decide +kernel

/-- The model asks for news, and the loop comes to its call. -/
def atNews : State where
  text := newsText
  phase := .executing [newsCall] 0
  current := ⟨newsText,[]⟩

/-- The call is answered with this text. -/
def answeredNews (result : Units) : State where
  text := newsText ++ block (newsCall,result)
  phase := .executing [newsCall] 1
  current := ⟨newsText,[(newsCall,result)]⟩

theorem run_atNews (meets : State → Event → Prop) (hpiece : ∀ s text, meets s (.piece text))
    (hgenerated : ∀ s, meets s .generated) (hcheck : ∀ s, meets s .check) :
    Run (fun _ => none) meets {} atNews := by
  have hpieces : Step (fun _ => none) {} (.piece newsText)
      { text := newsText, current := ⟨newsText,[]⟩ } := .piece newsText rfl
  have hend : Step (fun _ => none) { text := newsText, current := ⟨newsText,[]⟩ } .generated
      { text := newsText, phase := .checking, current := ⟨newsText,[]⟩ } := .generated rfl
  have hcalls := @Step.calls (fun _ => none)
    { text := newsText, phase := .checking, current := ⟨newsText,[]⟩ } rfl (by decide)
  rw [parse_newsText] at hcalls
  exact ((Run.refl.tail hpieces (hpiece _ _)).tail hend (hgenerated _)).tail
    (hcalls Nat.zero_lt_one) (hcheck _)

theorem step_answeredNews (result : Units) :
    Step (fun _ => none) atNews (.result result) (answeredNews result) := .result result rfl rfl

theorem settled_of_isNone {text : Units}
    (h : (cut toolCallOpenPrefix ((split nextCall text).2.map fold)).isNone = true) :
    Settled text := cut_eq_none.mp (Option.isNone_iff_eq_none.mp h)

def fetchedText : Units := units "<tool_call>set_timer(\"1 second\")</tool_call>"

def fetchedCall : ToolCall := ⟨units "set_timer",[(units "duration",units "1 second")],fetchedText⟩

end Rullama.Native.ToolLoop
