import Rullama.Agent.Conversation
import Rullama.Agent.Stream

/-! # What viewers are sent of a turn

`StreamEnd` is sent on `Done`, after the loop, and again at every level of the
continuations. A turn sends it once only if its stream runs out without `Done` and without
a call that gets a result, or if the stream of the first continuation fails.
-/
namespace Rullama.Agent
open Tools

namespace AgentMessage

def chunk? : AgentMessage → Option String
  | .streamChunk text => some text
  | _ => none

def isEnd : AgentMessage → Bool
  | .streamEnd _ => true
  | _ => false

/-- The start (true) or the result (false) of the call with this id. -/
def mark? : AgentMessage → Option (String × Bool)
  | .toolCallStart call _ => some (call.id,true)
  | .toolResult id _ _ _ => some (id,false)
  | _ => none

end AgentMessage

/-- Every start is followed by exactly one result for its id. -/
def Matched : List (String × Bool) → Prop
  | [] => True
  | (id,true) :: rest => rest.count (id,false) = 1 ∧ Matched rest
  | (_,false) :: rest => Matched rest

/-- What a turn sent, and the conversation before and after its response was added. -/
structure Protocol (sent : List AgentMessage) (before after : AgentState) : Prop where
  oneEnd : sent.countP AgentMessage.isEnd = 1
  quiet : ∀ earlier reason later, sent = earlier ++ .streamEnd reason :: later →
    later.filterMap AgentMessage.chunk? = []
  matched : Matched (sent.filterMap AgentMessage.mark?)
  text : ∃ m, after.messages = before.messages ++ [m] ∧
    m.content = String.join (sent.filterMap AgentMessage.chunk?)

/-- The stream runs out without `Done`, or the one of the first continuation fails before
it says anything; and the calls that the loop got to have distinct ids. -/
def ChunkStream.EndsOnce (stream : ChunkStream) : Prop :=
  match stream.leaving with
  | .ranOut => (stream.refused.map ToolUse.id).Nodup
  | .called call _ continuation => (∃ e, continuation.leaving = .failed e) ∧
      continuation.spoken = "" ∧
        ((stream.refused ++ call :: continuation.refused).map ToolUse.id).Nodup
  | .done | .stalled | .failed _ => False

/-! ## Projections of what is sent -/

def marks (ids : List String) : List (String × Bool) := ids.flatMap (fun id => [(id,true),(id,false)])

@[simp] theorem marks_cons (id : String) (ids : List String) :
    marks (id :: ids) = (id,true) :: (id,false) :: marks ids := rfl

theorem marks_append (ids ids' : List String) : marks (ids ++ ids') = marks ids ++ marks ids' :=
  List.flatMap_append

theorem mem_marks {id : String} {ids : List String} : (id,false) ∈ marks ids ↔ id ∈ ids := by
  simp [marks]

theorem matched_marks_iff {ids : List String} : Matched (marks ids) ↔ ids.Nodup := by
  induction ids with
  | nil => exact iff_of_true trivial List.nodup_nil
  | cons id ids ih =>
    rw [marks_cons,List.nodup_cons,← ih]
    have hcount : ((id,false) :: marks ids).count (id,false) = 1 ↔ id ∉ ids := by
      rw [List.count_cons_self,← mem_marks,← List.count_eq_zero]
      omega
    exact and_congr hcount Iff.rfl

namespace ChunkStream

theorem announced_countP (stream : ChunkStream) :
    stream.announced.countP AgentMessage.isEnd = 0 := by
  induction stream with
  | ended | stalls | done | error => rfl
  | text t rest ih => simpa [announced,AgentMessage.isEnd] using ih
  | other rest ih => exact ih
  | toolCall call server outcome continuation rest ihc ih =>
    simp only [announced]
    split
    · exact ih
    · cases outcome with
      | error e => simpa [callStarted,callError,AgentMessage.isEnd] using ih
      | ok result => rfl

theorem announced_chunks (stream : ChunkStream) :
    String.join (stream.announced.filterMap AgentMessage.chunk?) = stream.spoken := by
  induction stream with
  | ended | stalls | done | error => rfl
  | text t rest ih => simp [announced,spoken,AgentMessage.chunk?,ih]
  | other rest ih => exact ih
  | toolCall call server outcome continuation rest ihc ih =>
    simp only [announced,spoken]
    split
    · exact ih
    · cases outcome with
      | error e => exact ih
      | ok result => rfl

theorem announced_marks (stream : ChunkStream) :
    stream.announced.filterMap AgentMessage.mark? = marks (stream.refused.map ToolUse.id) := by
  induction stream with
  | ended | stalls | done | error => rfl
  | text t rest ih => exact ih
  | other rest ih => exact ih
  | toolCall call server outcome continuation rest ihc ih =>
    simp only [announced,refused]
    split
    · exact ih
    · cases outcome with
      | error e => exact congrArg (fun l => (call.id,true) :: (call.id,false) :: l) ih
      | ok result => rfl

end ChunkStream

/-- What comes after the one message with the property, when that is the last of all. -/
theorem later_eq_nil {α : Type*} {p : α → Bool} {l earlier later : List α} {a b : α}
    (hl : l.countP p = 0) (h : l ++ [a] = earlier ++ b :: later) (hb : p b = true) : later = [] := by
  rcases List.eq_nil_or_concat later with rfl | ⟨init,last,rfl⟩
  · rfl
  · rw [List.concat_eq_append,← List.cons_append,← List.append_assoc] at h
    obtain ⟨hinit,-⟩ := List.append_inj' h rfl
    have hmem : b ∈ l := by
      rw [hinit]
      exact List.mem_append_right _ List.mem_cons_self
    exact absurd hb (List.countP_eq_zero.mp hl b hmem)

/-! ## The runs -/

variable {logs : Bool} {history : List Message} {stream : ChunkStream}

theorem sent_eq : (streamWithToolExecution logs history stream).sent =
    stream.announced ++ (leave logs history stream.spoken stream.leaving).sent := by
  simp only [streamWithToolExecution,readStream_eq,StreamRun.after,String.empty_append]

theorem result_eq : (streamWithToolExecution logs history stream).result =
    (leave logs history stream.spoken stream.leaving).result := by
  simp only [streamWithToolExecution,readStream_eq,StreamRun.after,String.empty_append]

theorem afterContinuation_result (response : String) (run : StreamRun) (e : String) :
    (run.afterContinuation logs response).result ≠ some (.error e) := by
  unfold StreamRun.afterContinuation
  split
  · next h => simp [h]
  · split <;> simp
  · simp

/-- A turn fails only where its own stream does. -/
theorem leaving_of_error {e : String}
    (h : (streamWithToolExecution logs history stream).result = some (.error e)) :
    stream.leaving = .failed e := by
  rw [result_eq] at h
  cases hleaving : stream.leaving with
  | failed e' =>
    rw [hleaving] at h
    cases h
    rfl
  | called call result continuation =>
    rw [hleaving] at h
    exact absurd h (afterContinuation_result _ _ e)
  | ranOut | done | stalled =>
    rw [hleaving] at h
    cases h

/-- A loop that succeeds after its continuation closes with one more `StreamEnd`. -/
theorem afterContinuation_ok {own response : String} {run : StreamRun}
    (h : (run.afterContinuation logs own).result = some (.ok response)) :
    (∃ text, run.result = some (.ok text) ∧
      (run.afterContinuation logs own).sent = run.sent ++ [.streamEnd (some "stop")]) ∨
    ∃ e, run.result = some (.error e) ∧ response = own ∧
      (run.afterContinuation logs own).sent = (run.sent ++
        [.error ("Continuation failed: " ++ e) false]) ++ [.streamEnd (some "stop")] := by
  unfold StreamRun.afterContinuation at h ⊢
  rcases hrun : run.result with _ | e | text
  · simp [hrun] at h
  · simp only [hrun,Option.some.injEq,Except.ok.injEq] at h
    exact .inr ⟨e,rfl,h.symm,by simp [List.append_assoc]⟩
  · simp only [hrun] at h
    split at h
    · cases h
    · next hpanics => exact .inl ⟨text,rfl,by simp only [if_neg hpanics]⟩

/-- A turn that succeeds has sent its `StreamEnd`. -/
theorem one_le_ends {response : String}
    (h : (streamWithToolExecution logs history stream).result = some (.ok response)) :
    1 ≤ (streamWithToolExecution logs history stream).sent.countP AgentMessage.isEnd := by
  rw [result_eq] at h
  rw [sent_eq,List.countP_append]
  apply Nat.le_add_left_of_le
  cases hleaving : stream.leaving with
  | ranOut => exact Nat.le_refl 1
  | done => exact Nat.le_succ 1
  | stalled | failed =>
    rw [hleaving] at h
    cases h
  | called call result continuation =>
    rw [hleaving] at h
    simp only [leave,StreamRun.after,List.countP_append]
    have hend : [AgentMessage.streamEnd (some "stop")].countP AgentMessage.isEnd = 1 := rfl
    rcases afterContinuation_ok h with ⟨text,-,hsent⟩ | ⟨e,-,-,hsent⟩ <;>
      rw [hsent,List.countP_append,hend] <;> omega

/-- What a turn sends, up to the last message. -/
theorem protocol_append_iff {sent : List AgentMessage} {before after : AgentState}
    {m : DisplayMessage} (hsent : sent.countP AgentMessage.isEnd = 0)
    (hafter : after.messages = before.messages ++ [m]) :
    Protocol (sent ++ [.streamEnd (some "stop")]) before after ↔
      Matched (sent.filterMap AgentMessage.mark?) ∧
        m.content = String.join (sent.filterMap AgentMessage.chunk?) := by
  have hmarks : (sent ++ [AgentMessage.streamEnd (some "stop")]).filterMap AgentMessage.mark? =
      sent.filterMap AgentMessage.mark? := by
    rw [List.filterMap_append]
    exact List.append_nil _
  have hchunks : (sent ++ [AgentMessage.streamEnd (some "stop")]).filterMap AgentMessage.chunk? =
      sent.filterMap AgentMessage.chunk? := by
    rw [List.filterMap_append]
    exact List.append_nil _
  constructor
  · rintro ⟨-,-,hmatched,n,hn,htext⟩
    obtain ⟨-,hmn⟩ := List.append_inj (hafter.symm.trans hn) rfl
    rw [List.singleton_inj.mp hmn,← hmarks,← hchunks]
    exact ⟨hmatched,htext⟩
  · rintro ⟨hmatched,htext⟩
    refine ⟨?_,?_,?_,m,hafter,?_⟩
    · rw [List.countP_append,hsent]
      rfl
    · intro earlier reason later hsplit
      rw [later_eq_nil hsent hsplit rfl]
      rfl
    · rwa [hmarks]
    · rwa [hchunks]

theorem not_protocol {sent : List AgentMessage} {before after : AgentState}
    (h : 2 ≤ sent.countP AgentMessage.isEnd) : ¬ Protocol sent before after := by
  intro hp
  have hone := hp.oneEnd
  omega

theorem AgentState.finish_messages (s : AgentState) (t : Turn) (response : String) :
    (s.finish t (.ok response)).messages =
      s.messages ++ [⟨s.messages.length,"assistant",response⟩] := by
  rw [finish_ok_eq,reply_eq]
  rfl

/-- What a turn sends before its `StreamEnd` where the stream of the continuation fails. -/
def sentOfFailed (stream : ChunkStream) (call : ToolUse) (result : ToolResult)
    (continuation : ChunkStream) (e : String) : List AgentMessage :=
  stream.announced ++ (callStarted call "cli-local" ++
    [callResult call result,.statusUpdate "Processing tool result..."]) ++
      continuation.announced ++ [.error e false,.error ("Continuation failed: " ++ e) false]

section
variable (stream continuation : ChunkStream) (call : ToolUse) (result : ToolResult) (e : String)

theorem sentOfFailed_countP :
    (sentOfFailed stream call result continuation e).countP AgentMessage.isEnd = 0 := by
  simp only [sentOfFailed,List.countP_append,ChunkStream.announced_countP]
  rfl

theorem sentOfFailed_marks :
    (sentOfFailed stream call result continuation e).filterMap AgentMessage.mark? =
      marks ((stream.refused ++ call :: continuation.refused).map ToolUse.id) := by
  have hcall : (callStarted call "cli-local" ++
      [callResult call result,.statusUpdate "Processing tool result..."]).filterMap
        AgentMessage.mark? = marks [call.id] := rfl
  rw [List.map_append,List.map_cons,List.append_cons,marks_append,marks_append]
  simp only [sentOfFailed,List.filterMap_append,ChunkStream.announced_marks,hcall]
  exact List.append_nil _

theorem sentOfFailed_chunks :
    String.join ((sentOfFailed stream call result continuation e).filterMap
      AgentMessage.chunk?) = stream.spoken ++ continuation.spoken := by
  have hcall : (callStarted call "cli-local" ++
      [callResult call result,.statusUpdate "Processing tool result..."]).filterMap
        AgentMessage.chunk? = [] := rfl
  simp only [sentOfFailed,List.filterMap_append,hcall,List.append_nil,String.join_append,
    ChunkStream.announced_chunks]
  exact String.append_empty

end

/-- Where the continuation fails, a turn sends all that its two streams say. -/
theorem sent_called_failed {call : ToolUse} {result : ToolResult} {continuation : ChunkStream}
    {e : String} (hleaving : continuation.leaving = .failed e) :
    stream.announced ++ (leave logs history stream.spoken (.called call result continuation)).sent =
      sentOfFailed stream call result continuation e ++ [.streamEnd (some "stop")] := by
  have hresult : (streamWithToolExecution logs
      (updatedHistory history call (truncatedOutput result.content)) continuation).result =
        some (.error e) := by
    rw [result_eq,hleaving]
    rfl
  simp only [leave,StreamRun.after,StreamRun.afterContinuation,hresult]
  rw [sent_eq,hleaving]
  simp only [sentOfFailed,leave,List.append_assoc,List.cons_append,List.nil_append]

/-- A turn that succeeds keeps to the protocol exactly when its stream runs out without
`Done` and without a call that gets a result, or the stream of the first continuation fails
before it says anything, and the calls that the loop got to have distinct ids. -/
theorem streamWithToolExecution_protocol_iff {logs : Bool} {s : AgentState} {t : Turn}
    {stream : ChunkStream} {response : String}
    (h : (streamWithToolExecution logs (t.history.map Entry.message) stream).result =
      some (.ok response)) :
    Protocol (streamWithToolExecution logs (t.history.map Entry.message) stream).sent s
      (s.finish t (.ok response)) ↔ stream.EndsOnce := by
  have hmessages := s.finish_messages t response
  have hresult := h
  rw [result_eq] at hresult
  unfold ChunkStream.EndsOnce
  cases hleaving : stream.leaving with
  | stalled | failed =>
    rw [hleaving] at hresult
    cases hresult
  | done =>
    refine iff_of_false (not_protocol ?_) id
    rw [sent_eq,hleaving,List.countP_append]
    exact Nat.le_add_left 2 _
  | ranOut =>
    have hresponse : stream.spoken = response := by
      rw [hleaving] at hresult
      cases hresult
      rfl
    rw [sent_eq,hleaving]
    apply (protocol_append_iff stream.announced_countP hmessages).trans
    rw [stream.announced_marks,stream.announced_chunks,matched_marks_iff]
    exact and_iff_left hresponse.symm
  | called call result continuation =>
    rw [hleaving] at hresult
    rcases afterContinuation_ok hresult with ⟨text,hrun,hsent⟩ | ⟨e,hrun,hresponse,-⟩
    · have hends := one_le_ends hrun
      have hnot : ¬ ∃ e, continuation.leaving = .failed e := by
        rintro ⟨e,he⟩
        rw [result_eq,he] at hrun
        cases hrun
      refine iff_of_false (not_protocol ?_) (fun hcond => hnot hcond.1)
      rw [sent_eq,hleaving]
      simp only [leave,StreamRun.after,hsent,List.countP_append]
      have hend : [AgentMessage.streamEnd (some "stop")].countP AgentMessage.isEnd = 1 := rfl
      omega
    · have hfailed := leaving_of_error hrun
      rw [sent_eq,hleaving,sent_called_failed hfailed,
        protocol_append_iff (sentOfFailed_countP stream continuation call result e) hmessages,
        sentOfFailed_marks,sentOfFailed_chunks,matched_marks_iff,hresponse]
      constructor
      · rintro ⟨hnodup,htext⟩
        exact ⟨⟨e,hfailed⟩,String.append_eq_left_iff.mp htext.symm,hnodup⟩
      · rintro ⟨-,htext,hnodup⟩
        exact ⟨hnodup,(String.append_eq_left_iff.mpr htext).symm⟩

def firstTurn : Turn := ⟨0,.input,"gemma",[]⟩

/-- A stream that says one thing and runs out without `Done`. -/
theorem oneText_protocol : Protocol
    (streamWithToolExecution false (firstTurn.history.map Entry.message)
      (.text "Hello." .ended)).sent
    (.new "gemma" "" []) ((AgentState.new "gemma" "" []).finish firstTurn (.ok "Hello.")) := by
  apply (streamWithToolExecution_protocol_iff rfl).mpr
  exact List.nodup_nil

/-- A text and `Done`: the end is sent twice. -/
theorem doneTwice_not_protocol : ¬ ∀ (logs : Bool) (s : AgentState) (t : Turn)
    (stream : ChunkStream) (response : String),
    (streamWithToolExecution logs (t.history.map Entry.message) stream).result =
      some (.ok response) →
    Protocol (streamWithToolExecution logs (t.history.map Entry.message) stream).sent s
      (s.finish t (.ok response)) := by
  intro h
  have hp := h false (.new "gemma" "" []) firstTurn (.text "Hello." .done) "Hello." rfl
  exact absurd hp.oneEnd (by decide)

end Rullama.Agent
