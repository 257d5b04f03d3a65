import Mathlib.Data.List.Perm.Basic
import Rullama.Agent.Stream

/-! # Every call answered

The loop leaves a stream at the first call that gets a result and opens the continuation
with that call and its result alone: no text, no call before it, and none after it. So
nothing is lost exactly where no stream of the turn has more than one call to offer.
-/
namespace Rullama.Agent
open Tools

namespace ChunkStream

/-- The calls for this client in the stream, each with the text that precedes it. -/
def localCalls (before : String) : ChunkStream → List (ToolUse × String)
  | .text t rest => rest.localCalls (before ++ t)
  | .other rest => rest.localCalls before
  | .toolCall call server _ _ rest =>
    if server ≠ "cli-local" then rest.localCalls before
    else (call,before) :: rest.localCalls before
  | .ended | .stalls | .done | .error _ => []

def emitted (stream : ChunkStream) : List (ToolUse × String) := stream.localCalls ""

/-- No stream of the turn has a call for this client, or each has one, which is not preceded
by text and gets a result, and so on in the continuation. -/
inductive OneCallAtMost : ChunkStream → Prop where
  | none {stream : ChunkStream} (h : stream.emitted = []) : OneCallAtMost stream
  | one {stream continuation : ChunkStream} {call : ToolUse} {result : ToolResult}
      (h : stream.emitted = [(call,"")])
      (hleaving : stream.leaving = .called call result continuation)
      (hrest : OneCallAtMost continuation) : OneCallAtMost stream

end ChunkStream

namespace Message

def toolUses (m : Message) : List ToolUse :=
  match m.role,m.content with
  | .assistant,.blocks bs => bs.filterMap (fun
    | .toolUse call => some call
    | .text _ | .toolResult _ _ => none)
  | _,_ => []

/-- The ids of the calls whose results the message has. -/
def results (m : Message) : List String :=
  match m.content with
  | .blocks bs => bs.filterMap (fun
    | .toolResult id _ => some id
    | .text _ | .toolUse _ => none)
  | .text _ => []

/-- The text of a message of the assistant. -/
def said (m : Message) : String :=
  match m.role,m.content with
  | .assistant,.text t => t
  | .assistant,.blocks bs => String.join (bs.map (fun
    | .text t => t
    | .toolUse _ | .toolResult _ _ => ""))
  | _,_ => ""

end Message

/-- The later history adds the calls, each once, with one result after it and the text that
preceded it before it. -/
def Recorded (history later : List Message) (calls : List (ToolUse × String)) : Prop :=
  ∃ added, later = history ++ added ∧
    (added.flatMap Message.toolUses).Perm (calls.map Prod.fst) ∧
      ∀ c ∈ calls, ∃ before m after, added = before ++ m :: after ∧ c.1 ∈ m.toolUses ∧
        (after.flatMap Message.results).count c.1.id = 1 ∧
          String.join ((before ++ [m]).map Message.said) = c.2

/-- After a stream with calls comes a request whose history records them. -/
def Answered : List Request → Prop
  | [] => True
  | r :: rest => (r.stream.emitted ≠ [] →
      ∃ later ∈ rest.head?, Recorded r.history later.history r.stream.emitted) ∧ Answered rest

namespace StreamRun

structure Complete (run : StreamRun) : Prop where
  executes : run.executed.Perm
    (run.requests.flatMap (fun r => r.stream.emitted.map Prod.fst))
  answered : Answered run.requests

theorem afterContinuation_keeps (logs : Bool) (response : String) (run : StreamRun) :
    (run.afterContinuation logs response).requests = run.requests ∧
      (run.afterContinuation logs response).executed = run.executed := by
  unfold afterContinuation
  split
  · exact ⟨rfl,rfl⟩
  · split <;> exact ⟨rfl,rfl⟩
  · exact ⟨rfl,rfl⟩

end StreamRun

/-! ## What the loop adds to the history -/

theorem recorded_updatedHistory_iff {history : List Message} {call : ToolUse} {output : String}
    {calls : List (ToolUse × String)} :
    Recorded history (updatedHistory history call output) calls ↔ calls = [(call,"")] := by
  constructor
  · rintro ⟨added,hadded,hperm,hcalls⟩
    have hsame : added = [⟨.assistant,.blocks [.toolUse call]⟩,.toolResult call.id output] :=
      (List.append_cancel_left hadded).symm
    rw [hsame] at hperm
    have hfst : calls.map Prod.fst = [call] := List.perm_singleton.mp hperm.symm
    obtain ⟨c,rfl⟩ : ∃ c, calls = [c] := by
      rcases calls with _ | ⟨c,_ | ⟨d,rest⟩⟩
      · simp at hfst
      · exact ⟨c,rfl⟩
      · simp at hfst
    have hcall : c.1 = call := by simpa using hfst
    obtain ⟨before,m,after,hsplit,hmem,-,htext⟩ := hcalls c (List.mem_singleton_self c)
    rw [hsame] at hsplit
    rcases before with _ | ⟨b,before⟩
    · obtain ⟨rfl,-⟩ := List.cons.inj hsplit
      have hempty : c.2 = "" := by
        rw [← htext]
        rfl
      rw [← hcall,← hempty]
    · obtain ⟨-,htail⟩ := List.cons.inj hsplit
      rcases before with _ | ⟨b',before⟩
      · obtain ⟨rfl,-⟩ := List.cons.inj htail
        exact absurd hmem List.not_mem_nil
      · have hlength := congrArg List.length htail
        simp at hlength
  · rintro rfl
    refine ⟨_,rfl,List.Perm.refl _,?_⟩
    intro c hc
    rw [List.mem_singleton.mp hc]
    refine ⟨[],⟨.assistant,.blocks [.toolUse call]⟩,[.toolResult call.id output],rfl,?_,?_,rfl⟩
    · exact List.mem_singleton_self call
    · exact List.count_singleton_self

namespace ChunkStream

/-- The calls that the loop gets to are the first ones of the stream. -/
theorem refused_prefix (stream : ChunkStream) (before : String) :
    (stream.refused ++ match stream.leaving with
      | .called call _ _ => [call]
      | _ => []) <+: (stream.localCalls before).map Prod.fst := by
  induction stream generalizing before with
  | ended | stalls | done | error => exact List.nil_prefix
  | text t rest ih => exact ih (before ++ t)
  | other rest ih => exact ih before
  | toolCall call server outcome continuation rest ihc ih =>
    by_cases hserver : server = "cli-local"
    · subst hserver
      cases outcome with
      | error e =>
        simp only [refused,leaving,localCalls,ne_eq,not_true_eq_false,↓reduceIte,List.map_cons,
          List.cons_append]
        exact List.prefix_cons_inj _ |>.mpr (ih before)
      | ok result =>
        simp only [refused,leaving,localCalls,ne_eq,not_true_eq_false,↓reduceIte,List.map_cons,
          List.nil_append]
        exact List.prefix_cons_inj _ |>.mpr List.nil_prefix
    · simp only [refused,leaving,localCalls,ne_eq,hserver,not_false_eq_true,↓reduceIte]
      exact ih before

theorem sizeOf_continuation {stream continuation : ChunkStream} {call : ToolUse}
    {result : ToolResult} (h : stream.leaving = .called call result continuation) :
    sizeOf continuation < sizeOf stream := by
  induction stream with
  | ended | stalls | done | error => cases h
  | text t rest ih =>
    have hlt := ih h
    simp only [text.sizeOf_spec]
    omega
  | other rest ih =>
    have hlt := ih h
    simp only [other.sizeOf_spec]
    omega
  | toolCall call' server outcome continuation' rest ihc ih =>
    simp only [toolCall.sizeOf_spec]
    simp only [leaving] at h
    split at h
    · have hlt := ih h
      omega
    · split at h
      · have hlt := ih h
        omega
      · cases h
        omega

end ChunkStream

/-! ## The runs -/

variable {logs : Bool} {history : List Message} {stream : ChunkStream}

theorem requests_called {call : ToolUse} {result : ToolResult} {continuation : ChunkStream}
    (h : stream.leaving = .called call result continuation) :
    (streamWithToolExecution logs history stream).requests = ⟨history,stream⟩ ::
      (streamWithToolExecution logs (updatedHistory history call (truncatedOutput result.content))
        continuation).requests := by
  simp only [streamWithToolExecution,readStream_eq logs history,h,leave,StreamRun.after,
    (StreamRun.afterContinuation_keeps _ _ _).1]

theorem requests_not_called (h : ∀ call result continuation,
      stream.leaving ≠ .called call result continuation) :
    (streamWithToolExecution logs history stream).requests = [⟨history,stream⟩] := by
  simp only [streamWithToolExecution,readStream_eq,StreamRun.after]
  cases hl : stream.leaving with
  | called call result continuation => exact absurd hl (h _ _ _)
  | ranOut | stalled | done | failed => rfl

theorem executed_called {call : ToolUse} {result : ToolResult} {continuation : ChunkStream}
    (h : stream.leaving = .called call result continuation) :
    (streamWithToolExecution logs history stream).executed = stream.refused ++ call ::
      (streamWithToolExecution logs (updatedHistory history call (truncatedOutput result.content))
        continuation).executed := by
  simp only [streamWithToolExecution,readStream_eq logs history,h,leave,StreamRun.after,
    (StreamRun.afterContinuation_keeps _ _ _).2,List.singleton_append]

theorem executed_not_called (h : ∀ call result continuation,
      stream.leaving ≠ .called call result continuation) :
    (streamWithToolExecution logs history stream).executed = stream.refused := by
  simp only [streamWithToolExecution,readStream_eq,StreamRun.after]
  cases hl : stream.leaving with
  | called call result continuation => exact absurd hl (h _ _ _)
  | ranOut | stalled | done | failed => exact List.append_nil _

/-- Without calls the loop does not get to one. -/
theorem ChunkStream.not_called_of_emitted (h : stream.emitted = []) :
    stream.refused = [] ∧ ∀ call result continuation,
      stream.leaving ≠ .called call result continuation := by
  have hfirst := stream.refused_prefix ""
  rw [show stream.localCalls "" = [] from h,List.map_nil,List.prefix_nil,
    List.append_eq_nil_iff] at hfirst
  refine ⟨hfirst.1,?_⟩
  intro call result continuation hleaving
  rw [hleaving] at hfirst
  exact absurd hfirst.2 (List.cons_ne_nil _ _)

/-- Before a single call that gets its result no other one was refused. -/
theorem ChunkStream.refused_eq_nil {call c : ToolUse} {result : ToolResult}
    {continuation : ChunkStream} {before : String} (h : stream.emitted = [(c,before)])
    (hleaving : stream.leaving = .called call result continuation) : stream.refused = [] := by
  have hfirst := (stream.refused_prefix "").length_le
  rw [show stream.localCalls "" = [(c,before)] from h,hleaving] at hfirst
  simp only [List.length_append,List.length_cons,List.length_nil,List.length_map] at hfirst
  exact List.length_eq_zero_iff.mp (by omega)

theorem oneCallAtMost_of_answered (logs : Bool) (history : List Message) (stream : ChunkStream)
    (h : Answered (streamWithToolExecution logs history stream).requests) :
    stream.OneCallAtMost := by
  by_cases hnone : stream.emitted = []
  · exact .none hnone
  · by_cases hcalled : ∃ call result continuation, stream.leaving = .called call result continuation
    · obtain ⟨call,result,continuation,hleaving⟩ := hcalled
      rw [requests_called hleaving] at h
      obtain ⟨later,hlater,hrecorded⟩ := h.1 hnone
      obtain rfl := Option.mem_some_iff.mp hlater
      have hlt := ChunkStream.sizeOf_continuation hleaving
      exact .one (recorded_updatedHistory_iff.mp hrecorded) hleaving
        (oneCallAtMost_of_answered logs _ continuation h.2)
    · rw [requests_not_called (fun call result continuation hleaving =>
        hcalled ⟨call,result,continuation,hleaving⟩)] at h
      obtain ⟨later,hlater,-⟩ := h.1 hnone
      cases hlater
termination_by sizeOf stream

theorem ChunkStream.OneCallAtMost.complete (h : stream.OneCallAtMost) (logs : Bool)
    (history : List Message) : (streamWithToolExecution logs history stream).Complete := by
  induction h generalizing history with
  | @none stream h =>
    obtain ⟨hrefused,hnot⟩ := ChunkStream.not_called_of_emitted h
    refine ⟨?_,?_⟩
    · rw [executed_not_called hnot,requests_not_called hnot,hrefused]
      simp [h]
    · rw [requests_not_called hnot]
      exact ⟨fun hcalls => absurd h hcalls,trivial⟩
  | @one stream continuation call result h hleaving hrest ih =>
    obtain ⟨hexecutes,hanswered⟩ := ih
      (updatedHistory history call (truncatedOutput result.content))
    refine ⟨?_,?_⟩
    · rw [executed_called hleaving,requests_called hleaving,
        ChunkStream.refused_eq_nil h hleaving,List.flatMap_cons,h]
      exact hexecutes.cons call
    · rw [requests_called hleaving]
      refine ⟨?_,hanswered⟩
      intro _
      rw [h]
      exact ⟨_,rfl,recorded_updatedHistory_iff.mpr rfl⟩

/-- The loop executes every call once and hands each on with its text and one result
exactly when no stream of the turn has more than one call to offer, or text before it, or a
call that the executor refuses. -/
theorem streamWithToolExecution_complete_iff (logs : Bool) (history : List Message)
    (stream : ChunkStream) :
    (streamWithToolExecution logs history stream).Complete ↔ stream.OneCallAtMost := by
  constructor
  · intro h
    exact oneCallAtMost_of_answered logs history stream h.answered
  · intro h
    exact h.complete logs history

/-- Two calls in one stream, both of which the executor would answer. -/
def twoCalls : ChunkStream :=
  .toolCall ⟨"1","read_file",.null⟩ "cli-local" (.ok ⟨"1","",false⟩) .done
    (.toolCall ⟨"2","list_directory",.null⟩ "cli-local" (.ok ⟨"2","",false⟩) .done .done)

/-- The second call is never executed. -/
theorem twoCalls_incomplete :
    ¬ ∀ logs history stream, (streamWithToolExecution logs history stream).Complete := by
  intro h
  have hlength := (h false [] twoCalls).executes.length_eq
  exact absurd hlength (by decide)

end Rullama.Agent
