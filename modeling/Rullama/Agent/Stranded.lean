import Rullama.Agent.Conversation
import Rullama.Agent.Tally

/-! # Stranded messages

The queue is drained only after the turn of an input or of a queued message that succeeded.
A message that is queued while no task is there to reach that point waits until some later
input gets its reply. Retries are counted exactly, whatever the order of events.
-/
namespace Rullama.Agent
open Transition

def QueuedMessage.waiting (m : QueuedMessage) : Attempt := ⟨m.id,m.retryCount,m.maxRetries,true⟩

def QueuedMessage.running (m : QueuedMessage) : Attempt :=
  ⟨m.id,m.retryCount + 1,m.maxRetries,false⟩

def Turn.queued? (t : Turn) : Option QueuedMessage :=
  match t.kind with
  | .queued m => some m
  | .input | .pending => none

/-- After a turn that ends so, its task goes on to drain the queue. -/
def Turn.HandsOn (t : Turn) (result : Except String String) : Prop :=
  match t.kind,result with
  | .input,.ok _ | .queued _,.ok _ => True
  | _,_ => False

namespace AgentState

/-- No turn is in progress and no task is about to start one. -/
def Idle (s : AgentState) : Prop :=
  s.turns = [] ∧ s.draining = 0 ∧ s.popped = [] ∧ s.hasPendingRequest = false

/-- The processing of every message in the queue has failed before. -/
def AllTried (s : AgentState) : Prop := ∀ m ∈ s.messageQueue.queue, 0 < m.retryCount

/-- Every message that was queued is still on its way or was given to the provider. -/
def Kept (s : AgentState) : Prop :=
  ∀ id < s.nextQueued, (∃ m ∈ s.messageQueue.queue ++ s.popped, m.id = id) ∨ id ∈ s.given

structure Unstranded (s : AgentState) : Prop where
  awake : s.Idle → s.AllTried
  kept : s.Kept
  bounded : ∀ id, s.given.count id ≤ 1 + (QueuedMessage.new id "").maxRetries

/-- A message is queued only while some task runs, unless the queue refuses it; a task that
ends without draining the queue leaves another task or no untried message behind; and no
drain dies with a message that was never tried. -/
def LeavesNone (s : AgentState) : Event → Prop
  | .queueMessage _ _ => s.Idle → s.messageQueue.maxSize ≤ s.messageQueue.queue.length
  | .turnEnds turn result =>
    ∀ t ∈ s.turn? turn, ¬ t.HandsOn result → (s.leave turn).Idle → s.AllTried
  | .turnDies turn => (s.leave turn).Idle → s.AllTried
  | .drainDies m =>
    0 < m.retryCount ∧ ({ s with popped := s.popped.erase m }.Idle → s.AllTried)
  | _ => True

instance (s : AgentState) : Decidable s.Idle := inferInstanceAs (Decidable (_ ∧ _ ∧ _ ∧ _))

instance (s : AgentState) : Decidable s.AllTried :=
  inferInstanceAs (Decidable (∀ m ∈ s.messageQueue.queue, _))

instance (t : Turn) (result : Except String String) : Decidable (t.HandsOn result) :=
  match t,result with
  | ⟨_,.input,_,_⟩,.ok _ | ⟨_,.queued _,_,_⟩,.ok _ => .isTrue trivial
  | ⟨_,.pending,_,_⟩,_ | ⟨_,.input,_,_⟩,.error _ | ⟨_,.queued _,_,_⟩,.error _ => .isFalse id

instance (s : AgentState) : ∀ e, Decidable (s.LeavesNone e)
  | .queueMessage _ _ | .turnDies _ => inferInstanceAs (Decidable (_ → _))
  | .turnEnds turn _ => inferInstanceAs (Decidable (∀ t ∈ s.turn? turn, _))
  | .drainDies _ => inferInstanceAs (Decidable (_ ∧ _))
  | .attach _ | .subscribe _ | .disconnect _ | .userInput _ _ | .announce _ | .cancel _
  | .syncRequest _ | .startPending | .stream _ _ | .popQueued | .beginQueued _ _ => .isTrue trivial

/-! ## Counting -/

def workload (waiting : List QueuedMessage) (turns : List Turn) : List Attempt :=
  waiting.map QueuedMessage.waiting ++ (turns.filterMap Turn.queued?).map QueuedMessage.running

def Counted (s : AgentState) : Prop :=
  Tallied 3 (workload (s.messageQueue.queue ++ s.popped) s.turns) s.nextQueued s.given

section Workload
variable {ms ms' : List QueuedMessage} {m : QueuedMessage} {turns turns' : List Turn} {t : Turn}

theorem workload_waiting (h : ms.Perm (m :: ms')) :
    (workload ms turns).Perm (m.waiting :: workload ms' turns) :=
  (h.map _).append_right _

theorem workload_running (h : turns.Perm (t :: turns')) (ht : t.queued? = some m) :
    (workload ms turns).Perm (m.running :: workload ms turns') := by
  have hfilter := h.filterMap Turn.queued?
  rw [List.filterMap_cons_some ht] at hfilter
  exact ((hfilter.map _).append_left _).trans List.perm_middle

theorem workload_other (h : turns.Perm (t :: turns')) (ht : t.queued? = none) :
    (workload ms turns).Perm (workload ms turns') := by
  have hfilter := h.filterMap Turn.queued?
  rw [List.filterMap_cons_none ht] at hfilter
  exact (hfilter.map _).append_left _

end Workload

variable {s : AgentState}

theorem Counted.ended (h : s.Counted) {t : Turn} {turns : List Turn}
    (hp : s.turns.Perm (t :: turns)) : { s with turns := turns }.Counted := by
  cases ht : t.queued? with
  | none => exact Tallied.perm h (workload_other hp ht).symm
  | some m => exact (Tallied.perm h (workload_running hp ht).symm).ended

/-- Its counter is far from its limit, so that one more retry is one more. -/
theorem Counted.next_retryCount (h : s.Counted) {t : Turn} {turns : List Turn} {m : QueuedMessage}
    (hp : s.turns.Perm (t :: turns)) (ht : t.queued? = some m) :
    m.incrementRetry.retryCount = m.retryCount + 1 ∧ 0 < m.incrementRetry.retryCount := by
  have hrunning := Tallied.perm h (workload_running hp ht).symm
  obtain ⟨hmax,hmade⟩ := hrunning.within m.running List.mem_cons_self
  have hle : m.retryCount + 1 ≤ m.maxRetries + 1 := hmade
  have hthree : m.maxRetries = 3 := hmax
  have hlt : m.retryCount + 1 < 2 ^ 32 := by omega
  have heq : m.incrementRetry.retryCount = m.retryCount + 1 := Nat.mod_eq_of_lt hlt
  exact ⟨heq,by omega⟩

theorem Counted.requeued (h : s.Counted) {t : Turn} {turns : List Turn} {m : QueuedMessage}
    (hp : s.turns.Perm (t :: turns)) (ht : t.queued? = some m) :
    { s with turns := turns, messageQueue := s.messageQueue.requeued m }.Counted := by
  have hrunning := Tallied.perm h (workload_running hp ht).symm
  rcases MessageQueue.requeued_cases with hq | ⟨hle,hq⟩
  · unfold Counted
    rw [hq]
    exact hrunning.ended
  · have hwaiting : m.incrementRetry.waiting = ⟨m.id,m.retryCount + 1,m.maxRetries,true⟩ := by
      rw [QueuedMessage.waiting,(h.next_retryCount hp ht).1]
      rfl
    rw [(h.next_retryCount hp ht).1] at hle
    have hwork : (workload _ turns).Perm _ := workload_waiting (hq.append_right s.popped)
    rw [hwaiting] at hwork
    exact (hrunning.retry hle).perm hwork

theorem Counted.queueMessage (h : s.Counted) (content : String) :
    (s.queueMessage content).Counted := by
  unfold AgentState.queueMessage
  split
  · next q hq =>
    have hp := (MessageQueue.push_perm hq).append_right s.popped
    exact (Tallied.accept h).perm (workload_waiting hp)
  · exact h

theorem Counted.popQueued (h : s.Counted) : s.popQueued.Counted := by
  unfold AgentState.popQueued
  cases hq : s.messageQueue.queue with
  | nil =>
    rw [MessageQueue.pop_nil hq]
    exact h
  | cons m rest =>
    rw [MessageQueue.pop_cons hq]
    have hp : (rest ++ (s.popped ++ [m])).Perm (s.messageQueue.queue ++ s.popped) := by
      rw [← List.append_assoc,hq]
      exact List.perm_append_singleton m _
    exact Tallied.perm h ((hp.map _).append_right _)

theorem Counted.beginQueued (h : s.Counted) {m : QueuedMessage} (hm : m ∈ s.popped)
    (content : String) : (s.beginQueued m content).Counted := by
  have hp : (s.messageQueue.queue ++ s.popped).Perm
      (m :: (s.messageQueue.queue ++ s.popped.erase m)) :=
    ((List.perm_cons_erase hm).append_left _).trans List.perm_middle
  let t : Turn := ⟨s.nextTurn,.queued m,s.model,
    (s.addUserMessage s.nextTurn content).conversationHistory⟩
  have hturn : (s.beginQueued m content).turns.Perm (t :: s.turns) :=
    List.perm_append_singleton _ _
  have hstart := Tallied.start (Tallied.perm h (workload_waiting hp).symm)
  exact hstart.perm (workload_running hturn rfl)

theorem Counted.drainDies (h : s.Counted) {m : QueuedMessage} (hm : m ∈ s.popped) :
    { s with popped := s.popped.erase m }.Counted := by
  have hp : (s.messageQueue.queue ++ s.popped).Perm
      (m :: (s.messageQueue.queue ++ s.popped.erase m)) :=
    ((List.perm_cons_erase hm).append_left _).trans List.perm_middle
  exact (Tallied.perm h (workload_waiting hp).symm).ended

theorem Counted.finish (h : s.Counted) {turn : ℕ} {t : Turn}
    (hp : s.turns.Perm (t :: (s.leave turn).turns)) (result : Except String String) :
    ((s.leave turn).finish t result).Counted := by
  have hended : (s.leave turn).Counted := h.ended hp
  cases result with
  | ok response =>
    rw [finish_ok_eq,reply_eq]
    exact hended
  | error e =>
    unfold AgentState.finish
    cases hk : t.kind with
    | input | pending => exact hended
    | queued m => exact h.requeued hp (by simp [Turn.queued?,hk])

theorem Counted.next (h : s.Counted) {e : Event} (he : s.Enabled e) : (s.next e).Counted := by
  cases e with
  | userInput viewer content =>
    let t : Turn := ⟨s.nextTurn,.input,s.model,
      (s.addUserMessage s.nextTurn content).conversationHistory⟩
    have hp : (s.userInput viewer content).turns.Perm (t :: s.turns) :=
      List.perm_append_singleton _ _
    exact Tallied.perm h (workload_other hp rfl)
  | queueMessage viewer content => exact h.queueMessage content
  | startPending =>
    let t : Turn := ⟨0,.pending,s.model,s.conversationHistory⟩
    have hp : s.startPending.turns.Perm (t :: s.turns) := List.perm_append_singleton _ _
    exact Tallied.perm h (workload_other hp rfl)
  | turnEnds turn result =>
    obtain ⟨t,-,-,hp,hnext⟩ := s.next_turnEnds he result
    rw [hnext]
    exact h.finish hp result
  | turnDies turn =>
    obtain ⟨t,-,-,hp,-⟩ := s.next_turnEnds he (.ok "")
    exact h.ended hp
  | popQueued => exact h.popQueued
  | beginQueued m content => exact h.beginQueued he content
  | drainDies m => exact h.drainDies he
  | _ => exact h

/-! ## What is left behind -/

theorem finish_handsOn {t : Turn} {result : Except String String} (h : t.HandsOn result) :
    (s.finish t result).Idle → (s.finish t result).AllTried := by
  intro hidle
  cases result with
  | error e => cases hk : t.kind <;> simp [Turn.HandsOn,hk] at h
  | ok response =>
    unfold AgentState.finish at hidle ⊢
    cases hk : t.kind with
    | pending => simp [Turn.HandsOn,hk] at h
    | queued m =>
      rw [hk] at hidle
      exact absurd hidle.2.1 (Nat.succ_ne_zero _)
    | input =>
      rw [hk] at hidle
      dsimp only at hidle ⊢
      split at hidle
      · next hq =>
        rw [if_pos hq]
        intro m hm
        rw [hq] at hm
        exact absurd hm List.not_mem_nil
      · exact absurd hidle.2.1 (Nat.succ_ne_zero _)

theorem finish_idle_iff {t : Turn} {result : Except String String} (h : ¬ t.HandsOn result) :
    (s.finish t result).Idle ↔ s.Idle := by
  cases result with
  | error e =>
    unfold AgentState.finish
    cases t.kind <;> exact Iff.rfl
  | ok response =>
    cases hk : t.kind with
    | pending =>
      have hsame : s.finish t (.ok response) = s.reply t response := by
        unfold AgentState.finish
        rw [hk]
      rw [hsame,reply_eq]
      exact Iff.rfl
    | input | queued => simp [Turn.HandsOn,hk] at h

theorem finish_keeps (t : Turn) (result : Except String String) :
    (s.finish t result).nextQueued = s.nextQueued ∧
      (s.finish t result).given = s.given ∧ (s.finish t result).popped = s.popped := by
  cases result with
  | ok response =>
    rw [finish_ok_eq,reply_eq]
    exact ⟨rfl,rfl,rfl⟩
  | error e =>
    unfold AgentState.finish
    cases t.kind <;> exact ⟨rfl,rfl,rfl⟩

/-- A turn that ends puts at most its own message, tried once more, into the queue. -/
theorem finish_queue (t : Turn) (result : Except String String) :
    (s.finish t result).messageQueue.queue = s.messageQueue.queue ∨
      ∃ m, t.queued? = some m ∧
        (s.finish t result).messageQueue.queue.Perm (m.incrementRetry :: s.messageQueue.queue) := by
  cases result with
  | ok response =>
    left
    rw [finish_ok_eq,reply_eq]
    rfl
  | error e =>
    unfold AgentState.finish
    cases hk : t.kind with
    | input | pending => exact .inl rfl
    | queued m =>
      rcases MessageQueue.requeued_cases with hq | ⟨-,hq⟩
      · exact .inl hq
      · exact .inr ⟨m,by simp [Turn.queued?,hk],hq⟩

theorem finish_allTried_iff (t : Turn) (result : Except String String)
    (hretry : ∀ m, t.queued? = some m → 0 < m.incrementRetry.retryCount) :
    (s.finish t result).AllTried ↔ s.AllTried := by
  unfold AllTried
  rcases s.finish_queue t result with hq | ⟨m,hm,hq⟩
  · rw [hq]
  · simp only [hq.mem_iff,List.forall_mem_cons,hretry m hm,true_and]

theorem Kept.queueMessage (h : s.Kept) (content : String) : (s.queueMessage content).Kept := by
  unfold AgentState.queueMessage
  split
  · next q hq =>
    have hp := (MessageQueue.push_perm hq).append_right s.popped
    intro id hid
    rcases Nat.lt_succ_iff_lt_or_eq.mp hid with hid | rfl
    · rcases h id hid with ⟨m,hm,rfl⟩ | hgiven
      · exact .inl ⟨m,hp.mem_iff.mpr (List.mem_cons_of_mem _ hm),rfl⟩
      · exact .inr hgiven
    · exact .inl ⟨_,hp.mem_iff.mpr List.mem_cons_self,rfl⟩
  · exact h

theorem Kept.popQueued (h : s.Kept) : s.popQueued.Kept := by
  unfold AgentState.popQueued
  cases hq : s.messageQueue.queue with
  | nil =>
    rw [MessageQueue.pop_nil hq]
    exact h
  | cons m rest =>
    rw [MessageQueue.pop_cons hq]
    intro id hid
    rcases h id hid with ⟨n,hn,rfl⟩ | hgiven
    · refine .inl ⟨n,?_,rfl⟩
      simp only [hq,List.mem_append,List.mem_cons,List.not_mem_nil,or_false] at hn ⊢
      tauto
    · exact .inr hgiven

theorem Kept.beginQueued (h : s.Kept) (m : QueuedMessage) (content : String) :
    (s.beginQueued m content).Kept := by
  intro id hid
  rcases h id hid with ⟨n,hn,rfl⟩ | hgiven
  · by_cases hnm : n = m
    · right
      rw [hnm]
      exact List.mem_append_right _ (List.mem_singleton_self _)
    · left
      refine ⟨n,?_,rfl⟩
      rcases List.mem_append.mp hn with hn | hn
      · exact List.mem_append_left _ hn
      · exact List.mem_append_right _ ((List.mem_erase_of_ne hnm).mpr hn)
  · exact .inr (List.mem_append_left _ hgiven)

theorem Kept.finish (h : s.Kept) (t : Turn) (result : Except String String) :
    (s.finish t result).Kept := by
  obtain ⟨hnext,hgiven,hpopped⟩ := s.finish_keeps t result
  intro id hid
  rw [hnext] at hid
  rw [hgiven,hpopped]
  rcases h id hid with ⟨m,hm,rfl⟩ | hg
  · refine .inl ⟨m,?_,rfl⟩
    rcases List.mem_append.mp hm with hm | hm
    · apply List.mem_append_left _
      rcases s.finish_queue t result with hq | ⟨n,-,hq⟩
      · rwa [hq]
      · exact hq.mem_iff.mpr (List.mem_cons_of_mem _ hm)
    · exact List.mem_append_right _ hm
  · exact .inr hg

/-- A message that goes down with its drain is gone unless it was given before. -/
theorem Counted.drainDies_kept_iff (hc : s.Counted) (h : s.Kept) {m : QueuedMessage}
    (hm : m ∈ s.popped) : { s with popped := s.popped.erase m }.Kept ↔ 0 < m.retryCount := by
  have hp : (s.messageQueue.queue ++ s.popped).Perm
      (m :: (s.messageQueue.queue ++ s.popped.erase m)) :=
    ((List.perm_cons_erase hm).append_left _).trans List.perm_middle
  have ht := Tallied.perm hc (workload_waiting hp).symm
  have hcount : s.given.count m.id = m.retryCount := ht.counted _ List.mem_cons_self
  constructor
  · intro hk
    rcases hk m.id (ht.known m.waiting List.mem_cons_self) with ⟨n,hn,hid⟩ | hg
    · have hmem : n.waiting ∈ workload (s.messageQueue.queue ++ s.popped.erase m) s.turns :=
        List.mem_append_left _ (List.mem_map_of_mem hn)
      exact absurd hid (ht.ne_of_mem hmem)
    · rw [← hcount]
      exact List.count_pos_iff.mpr hg
  · intro hpos id hid
    have hgiven : m.id ∈ s.given := by
      rw [← hcount] at hpos
      exact List.count_pos_iff.mp hpos
    rcases h id hid with ⟨n,hn,rfl⟩ | hg
    · rcases List.mem_cons.mp (hp.mem_iff.mp hn) with rfl | hn
      · exact .inr hgiven
      · exact .inl ⟨n,hn,rfl⟩
    · exact .inr hg

/-! ## The step and the run -/

theorem unstranded_next_iff (hc : s.Counted) (h : s.Unstranded) {e : Event} (he : s.Enabled e) :
    (s.next e).Unstranded ↔ s.LeavesNone e := by
  have hbounded := (hc.next he).bounded
  have hbusy : ∀ t : Turn, ∀ {turns : List Turn}, turns ++ [t] ≠ [] := by simp
  cases e with
  | userInput viewer content =>
    exact iff_of_true ⟨fun hidle => absurd hidle.1 (hbusy _),h.kept,hbounded⟩ trivial
  | startPending =>
    exact iff_of_true ⟨fun hidle => absurd hidle.1 (hbusy _),h.kept,hbounded⟩ trivial
  | beginQueued m content =>
    exact iff_of_true ⟨fun hidle => absurd hidle.1 (hbusy _),h.kept.beginQueued m content,hbounded⟩
      trivial
  | queueMessage viewer content =>
    have hkept := h.kept.queueMessage content
    change (s.queueMessage content).Unstranded ↔ (s.Idle → _)
    cases hpush : s.messageQueue.push (.new s.nextQueued content) with
    | error text =>
      have hsame : s.queueMessage content =
          s.send (.error ("Failed to queue message: " ++ text) false) := by
        simp only [AgentState.queueMessage,hpush]
      rw [hsame]
      exact iff_of_true ⟨h.awake,h.kept,h.bounded⟩
        (fun _ => MessageQueue.push_error_iff.mp ⟨text,hpush⟩)
    | ok q =>
      have hroom : ¬ s.messageQueue.maxSize ≤ s.messageQueue.queue.length := by
        intro hfull
        obtain ⟨text,htext⟩ := MessageQueue.push_error_iff.mpr hfull
        rw [hpush] at htext
        cases htext
      have hqueue : (s.queueMessage content).messageQueue = q := by
        simp only [AgentState.queueMessage,hpush]
        rfl
      have hidle : (s.queueMessage content).Idle ↔ s.Idle := by
        simp only [AgentState.queueMessage,hpush]
        exact Iff.rfl
      have huntried : ¬ (s.queueMessage content).AllTried := by
        intro hall
        have hnew := hall _ (by
          rw [hqueue]
          exact (MessageQueue.push_perm hpush).mem_iff.mpr List.mem_cons_self)
        exact absurd hnew (Nat.lt_irrefl 0)
      constructor
      · intro hu hi
        exact absurd (hu.awake (hidle.mpr hi)) huntried
      · intro hc
        exact ⟨fun hi => absurd (hc (hidle.mp hi)) hroom,hkept,hbounded⟩
  | turnEnds turn result =>
    obtain ⟨t,hfind,-,hp,hnext⟩ := s.next_turnEnds he result
    have hretry (m : QueuedMessage) (ht : t.queued? = some m) :
        0 < m.incrementRetry.retryCount := (hc.next_retryCount hp ht).2
    rw [hnext] at hbounded ⊢
    have hkept : (s.leave turn).Kept := h.kept
    have hcond : s.LeavesNone (.turnEnds turn result) ↔
        (¬ t.HandsOn result → (s.leave turn).Idle → s.AllTried) := by
      simp [LeavesNone,hfind]
    rw [hcond]
    by_cases hon : t.HandsOn result
    · exact iff_of_true ⟨finish_handsOn hon,hkept.finish t result,hbounded⟩
        (fun hoff => absurd hon hoff)
    · constructor
      · intro hu _ hidle
        have hall := hu.awake ((finish_idle_iff hon).mpr hidle)
        exact (@finish_allTried_iff (s.leave turn) t result hretry).mp hall
      · intro hc
        refine ⟨?_,hkept.finish t result,hbounded⟩
        intro hidle
        have hall : (s.leave turn).AllTried := hc hon ((finish_idle_iff hon).mp hidle)
        exact (finish_allTried_iff t result hretry).mpr hall
  | turnDies turn => exact ⟨fun hu => hu.awake,fun hc => ⟨hc,h.kept,hbounded⟩⟩
  | popQueued =>
    refine iff_of_true ⟨?_,h.kept.popQueued,hbounded⟩ trivial
    intro hidle
    change s.popQueued.Idle at hidle
    change s.popQueued.AllTried
    unfold AgentState.popQueued at hidle ⊢
    cases hq : s.messageQueue.queue with
    | nil =>
      rw [MessageQueue.pop_nil hq]
      intro m hm
      rw [hq] at hm
      exact absurd hm List.not_mem_nil
    | cons m rest =>
      rw [MessageQueue.pop_cons hq] at hidle
      exact absurd hidle.2.2.1 (by simp)
  | drainDies m =>
    constructor
    · intro hu
      exact ⟨(hc.drainDies_kept_iff h.kept he).mp hu.kept,hu.awake⟩
    · intro hcond
      exact ⟨hcond.2,(hc.drainDies_kept_iff h.kept he).mpr hcond.1,hbounded⟩
  | _ => exact iff_of_true ⟨h.awake,h.kept,h.bounded⟩ trivial

end AgentState

/-- Over a run no message is stranded exactly when every step leaves none behind. -/
theorem run_unstranded_iff {model systemPrompt : String} {stored : List (String × String)}
    {es : List Event} (hr : conversation.Run (.new model systemPrompt stored) es) :
    (∀ p ∈ conversation.trail (.new model systemPrompt stored) es, (p.1.next p.2).Unstranded) ↔
      ∀ p ∈ conversation.trail (.new model systemPrompt stored) es, p.1.LeavesNone p.2 := by
  refine hr.forall_good_iff (I := AgentState.Counted) (G := AgentState.Unstranded) ?_ ?_ ?_ ?_
  · intro s e h he
    exact h.next he
  · intro s e hc h he
    exact AgentState.unstranded_next_iff hc h he
  · exact Tallied.nil
  · refine ⟨?_,?_,?_⟩
    · intro _ m hm
      exact absurd hm List.not_mem_nil
    · intro id hid
      exact absurd hid (Nat.not_lt_zero id)
    · intro id
      exact Nat.zero_le _

/-- A message is queued during a turn, drained after it, fails and is queued again. -/
def retriedRun : List Event :=
  [.attach 0,.subscribe 0,.userInput 0 "Hello.",.announce ⟨0,0,⟨0,"user","Hello."⟩⟩,
    .queueMessage 0 "Run the tests.",.turnEnds 0 (.ok "Hello, what can I do?"),.popQueued,
    .beginQueued ⟨0,"Run the tests.",.normal,0,3⟩ "Run the tests.",.turnEnds 1 (.error "offline")]

theorem retriedRun_unstranded : conversation.Run (.new "gemma" "" []) retriedRun ∧
    ∀ p ∈ conversation.trail (.new "gemma" "" []) retriedRun, (p.1.next p.2).Unstranded :=
  ⟨by decide,(run_unstranded_iff (by decide)).mpr (by decide)⟩

/-- A message is queued while the agent is idle. -/
def idleQueueRun : List Event := [.attach 0,.subscribe 0,.queueMessage 0 "Run the tests."]

theorem idleQueueRun_stranded :
    ¬ ∀ es, conversation.Run (.new "gemma" "" []) es →
      ∀ p ∈ conversation.trail (.new "gemma" "" []) es, (p.1.next p.2).Unstranded := by
  intro h
  have hlast : (conversation.exec (.new "gemma" "" []) (idleQueueRun.take 2),
      .queueMessage 0 "Run the tests.") ∈ conversation.trail (.new "gemma" "" []) idleQueueRun :=
    .tail _ (.tail _ (.head _))
  have htried := (h idleQueueRun (by decide) _ hlast).awake (by decide)
  exact absurd htried (by decide)

end Rullama.Agent
