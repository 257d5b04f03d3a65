import Rullama.CoreWorker.Rpc
import Rullama.Transition.Machine
import Rullama.Web.Bubble

/-! # Suspending and resuming a generation

The tab that runs a generation without tools keeps a record of it. When it is hidden, the record
is stored and the core is asked for its cache, which is then written to a file. If the tab is
killed, the next one goes on from what is stored. The core, the tab, the file and the user take
their steps in any order; a step that does not apply leaves the system as it is.
-/
namespace Rullama.Suspension
open Text Transition CoreWorker Web
open ToolCalls (includes)

inductive Phase where
  /-- the session is acquired and the file is read -/
  | restoring
  /-- in the loop over the prompt, at this index -/
  | prompt (i : ℕ)
  /-- in the loop over a conversation rendered anew, at this index -/
  | rebuild (ids : List ℕ) (i : ℕ)
  /-- in the loop that shows tokens, with what is left of the budget -/
  | generation (budget : ℕ)
  | done
  | failed

/-- The step that the tab waits for, and its result until the tab takes it. -/
inductive Request where
  | idle
  | posted (token : ℕ)
  | answered (next : Except String ℕ)

structure Tab where
  phase : Phase
  request : Request
  /-- in `resumeInflightGeneration`, not in `runJob` -/
  resumed : Bool
  inflight : InflightGen
  next : ℕ
  emitted : ℕ

structure System where
  core : CoreWorker.State
  tab : Option Tab
  /-- its row outlives the tab -/
  bubble : Bubble
  /-- in `localStorage` -/
  stored : Option InflightGen
  file : Option KvBytes
  /-- how many saves of the cache are still to come -/
  saves : ℕ
  /-- saved caches that are not yet in the file -/
  writes : List KvBytes
  /-- Ghost: no conversation was rendered anew, no cache was saved before it was restored, and
  none is written to the file after it was read. -/
  tracked : Bool
  /-- Ghost: the tokens that were sampled, each with the tokens of the cache by then. -/
  sampled : List (List Token × ℕ)

def tokensOf (core : CoreWorker.State) : Option (List Token) :=
  core.model.map (fun m => m.cache.entries.map Prod.fst)

/-! ## The first tab -/

def clear (core : CoreWorker.State) : CoreWorker.State × Except String ℕ :=
  match core.reset with
  | (core,.ok _) => (core,.ok 0)
  | (core,.error e) => (core,.error e)

/-- The cache is prepared for a prompt, of which so many tokens need not be fed. -/
def prepare (core : CoreWorker.State) (ids : List ℕ) : CoreWorker.State × Except String ℕ :=
  match core.kvReusePlan ids with
  | (core,.ok (.reuse n)) => if ids.length ≤ n then clear core else (core,.ok n)
  | (core,_) => clear core

def firstPhase : Except String ℕ → Phase
  | .ok reuse => .prompt reuse
  | .error _ => .failed

/-- A generation with an empty bubble, for which nothing is stored. -/
def begin (core : CoreWorker.State) (ids : List ℕ) (maxTokens : ℕ) : System where
  core := (prepare core ids).1
  tab := some
    { phase := firstPhase (prepare core ids).2
      request := .idle
      resumed := false
      inflight := { promptIds := ids, maxTokens }
      next := 0
      emitted := 0 }
  bubble := {}
  stored := none
  file := none
  saves := 0
  writes := []
  tracked := true
  sampled := []

namespace System
variable (v : Vocabulary) (s : System) (t : Tab)

/-! ## The loops -/

/-- What is stored is removed when a generation ends. -/
def fail : System :=
  { s with tab := some { t with phase := .failed, request := .idle }, stored := none, file := none }

def finish : System :=
  { s with
    tab := some { t with phase := .done, request := .idle }
    bubble := s.bubble.write .flush
    stored := none
    file := none }

/-- The loop that shows tokens, as it is entered. -/
def remaining : Phase := .generation (t.inflight.maxTokens - t.emitted)

/-- The piece of the next token is shown, and the token is fed. -/
def emit (budget : ℕ) (late : Bool) : System :=
  let bubble := s.bubble.write (.emit (piece v t.next))
  let emitted := t.emitted + 1
  { s with
    bubble := if emitted % 16 = 0 || late then bubble.write .flush else bubble
    tab := some { t with phase := .generation budget, request := .posted t.next, emitted } }

/-- The loop goes on up to its next step. -/
def post (late : Bool) : System :=
  match t.phase with
  | .prompt i =>
    match t.inflight.promptIds[i]? with
    | some id => { s with tab := some { t with request := .posted id } }
    | none => { s with tab := some { t with phase := remaining t } }
  | .rebuild ids i =>
    match ids[i]? with
    | some id => { s with tab := some { t with request := .posted id } }
    | none => { s with tab := some { t with phase := remaining t } }
  | .generation 0 => s.finish t
  | .generation (budget + 1) => if v.isEos t.next then s.finish t else s.emit v t budget late
  | _ => s

/-- The loop finds that the user has cancelled. -/
def stop : System :=
  match t.phase with
  | .prompt _ | .rebuild _ _ => s.fail t
  | .generation _ => s.finish t
  | _ => s

/-- The token that a step has come to. -/
def nextOf : Reply → Except String ℕ
  | .ok (.token next) | .ok (.decoded next _ _) => .ok next
  | .ok _ => .error ""
  | .error e => .error e

def handleStep (token : ℕ) (next : Except String ℕ) : CoreWorker.State × Reply :=
  match t.phase with
  | .generation _ =>
    s.core.stepAndDecode token next (next.toOption.elim false v.isEos)
      (next.toOption.bind v.tokenStr)
  | _ => s.core.step token next

def sample (core : CoreWorker.State) : Except String ℕ → List (List Token × ℕ)
  | .ok next => [((tokensOf core).getD [],next)]
  | .error _ => []

/-- The core takes the step. -/
def answer (token : ℕ) (next : Except String ℕ) : System :=
  let (core,reply) := s.handleStep v t token next
  let r := nextOf reply
  { s with
    core
    tab := some { t with request := .answered r }
    sampled := sample core r ++ s.sampled }

/-- The tab takes the result of the step. -/
def reply (r : Except String ℕ) : System :=
  match t.phase,r with
  | .prompt i,.ok n =>
    { s with
      tab := some
        { t with
          phase := .prompt (i + 1)
          request := .idle
          next := n
          inflight := { t.inflight with preEncodePosition := i + 1, lastSampledNext := n } } }
  | .rebuild ids i,.ok n =>
    { s with tab := some { t with phase := .rebuild ids (i + 1), request := .idle, next := n } }
  | .generation _,.ok n =>
    { s with
      tab := some
        { t with
          request := .idle
          next := n
          inflight := { t.inflight with
            emittedSoFar := s.bubble.content
            emittedTokenCount := t.emitted
            lastSampledNext := n } } }
  | .generation _,.error e =>
    if !t.resumed && isContextLimit (unitsOf e.toList) then s.finish t else s.fail t
  | _,.error _ => s.fail t
  | _,.ok _ => s

/-- A step of the loop that shows tokens takes too long. The first tab hands over at once. -/
def timeout : System :=
  if t.resumed then s.fail t else { s with tab := none, stored := some t.inflight }

/-! ## Suspending -/

def hide : System := { s with stored := some t.inflight, saves := s.saves + 1 }

/-- The core takes a save, `saves` is the outcome of its call. -/
def save (saves : Except String Unit) : System :=
  let (core,reply) := s.core.saveKvState saves
  match reply with
  | .ok (.kv bytes) =>
    { s with
      core
      saves := s.saves - 1
      writes := bytes :: s.writes
      tracked := s.tracked && match t.phase with
        | .restoring => false
        | _ => true }
  | _ => { s with core, saves := s.saves - 1 }

def write (bytes : KvBytes) : System :=
  { s with file := some bytes, writes := s.writes.erase bytes }

/-- A write that is cut off leaves an empty file. -/
def kill (torn : Bool) : System :=
  { s with
    tab := none
    saves := 0
    writes := []
    file := if torn && s.writes ≠ [] then none else s.file }

/-! ## Resuming -/

def resume (g : InflightGen) : System :=
  { s with
    tab := some
      { phase := .restoring
        request := .idle
        resumed := true
        inflight := g
        next := g.lastSampledNext
        emitted := g.emittedTokenCount }
    bubble := { content := g.emittedSoFar, row := s.bubble.row } }

/-- The slow path: the conversation rendered anew is fed from its start. -/
def rebuild (ids : List ℕ) : System :=
  match s.core.reset with
  | (core,.ok _) =>
    { s with
      core
      tab := some { t with phase := .rebuild ids 0, request := .idle, next := 0 }
      tracked := false }
  | (core,.error _) => { s with core }.fail t

/-- The message of a snapshot that the core does not accept. -/
def isIncompatible (message : Units) : Bool :=
  includes (units "kv snapshot") (message.map lowerUnit)

/-- The cache is restored from the file, `restores` is the outcome of the core's call, and what
is left of the prompt is fed. -/
def restore (restores : Except String Unit) (ids : List ℕ) : System :=
  match s.file with
  | none => s.rebuild t ids
  | some bytes =>
    match s.core.restoreKvState bytes restores with
    | (core,.ok _) =>
      { s with
        core
        tab := some
          { t with
            phase := if t.inflight.preEncodePosition < t.inflight.promptIds.length then
                .prompt t.inflight.preEncodePosition
              else remaining t
            request := .idle }
        tracked := s.tracked && s.writes = [] }
    | (core,.error e) =>
      if isIncompatible (unitsOf e.toList) then { s with core }.fail t
      else { s with core }.rebuild t ids

end System

/-! ## The system -/

inductive Event where
  /-- `late`: the last flush was more than 750 milliseconds ago -/
  | post (late : Bool)
  | stop
  | answer (next : Except String ℕ)
  | reply
  | timeout
  | hide
  | save (saves : Except String Unit)
  | write (bytes : KvBytes)
  | kill (torn : Bool)
  /-- what becomes of the core while no tab has the session -/
  | other (rpc : Rpc)
  | resume
  /-- `ids` are those of the conversation rendered anew -/
  | restore (restores : Except String Unit) (ids : List ℕ)

/-- The generation has not ended. -/
def Phase.active : Phase → Bool
  | .done | .failed => false
  | _ => true

/-- What happens with a tab and without one. -/
def System.meet (s : System) : Event → System
  | .write bytes => if bytes ∈ s.writes then s.write bytes else s
  | .kill torn => s.kill torn
  | _ => s

/-- What happens while a tab runs the generation. -/
def System.move (v : Vocabulary) (s : System) (t : Tab) : Event → System
  | .post late =>
    match t.request with
    | .idle => s.post v t late
    | _ => s
  | .stop =>
    match t.request with
    | .idle => s.stop t
    | _ => s
  | .answer next =>
    match t.request with
    | .posted token => s.answer v t token next
    | _ => s
  | .reply =>
    match t.request with
    | .answered r => s.reply t r
    | _ => s
  | .timeout =>
    match t.phase,t.request with
    | .generation _,.posted _ | .generation _,.answered _ => s.timeout t
    | _,_ => s
  | .hide => if t.phase.active then s.hide t else s
  | .save saves => if t.phase.active && 0 < s.saves then s.save t saves else s
  | .restore restores ids =>
    match t.phase with
    | .restoring => s.restore t restores ids
    | _ => s
  | e => s.meet e

/-- What happens while no tab does. -/
def System.rest (s : System) : Event → System
  | .other rpc => { s with core := (s.core.handle rpc).1 }
  | .resume =>
    match s.stored with
    | some g => s.resume g
    | none => s
  | e => s.meet e

def System.next (v : Vocabulary) (s : System) (e : Event) : System :=
  match s.tab with
  | some t => s.move v t e
  | none => s.rest e

def machine (v : Vocabulary) : Machine System Event := ⟨fun _ _ => True,System.next v⟩

end Rullama.Suspension
