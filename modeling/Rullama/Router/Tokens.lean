import Rullama.Router.Replies
import Rullama.Router.Arbitration

/-! # One reply for each message

A message that the router took up is owed one reply: it sits in the queue, in
`pendingChild`, or its reply was posted. The count of the three never grows but by the
message itself, so no message is replied to twice.
-/
namespace Rullama.Router
open Transition

/-- What a tab receives. -/
def Effect.toTab? : Effect → Option (Port × ToTab)
  | .post port msg => some (port,msg)
  | .answer _ port requestId outcome => some (port,.reply requestId (outcome.map Result.core))
  | .reject _ port requestId => some (port,.reply requestId (.error "core disconnected"))
  | _ => none

/-- A reply to this request of this port. -/
def Effect.repliesTo (port : Port) (requestId : ℤ) (fx : Effect) : Bool :=
  match fx.toTab? with
  | some (p,.reply r _) => p == port && r == requestId
  | _ => false

def Waiter.serves (port : Port) (requestId : ℤ) (w : Waiter) : Bool :=
  w.port == port && w.requestId == requestId

def PendingChild.serves (port : Port) (requestId : ℤ) (p : PendingChild) : Bool :=
  p.port == port && p.originalRequestId == requestId

def Record.waiter? : Record → Option Waiter
  | .granted w _ | .rejected w _ => some w
  | .ended _ => none

namespace Arbiter

/-- All that ever waited, queued or settled. -/
def waiters (s : Arbiter) : List Waiter := s.queue ++ s.history.filterMap Record.waiter?

theorem wakeNext_waiters (s : Arbiter) : s.wakeNext.waiters.Perm s.waiters := by
  unfold wakeNext
  split
  · exact .refl _
  · exact .refl _
  · next w rest _ hq =>
    simp only [waiters,grant,hq,List.filterMap_append]
    exact (List.perm_append_comm.append_left rest).trans List.perm_middle

theorem clear_waiters (s : Arbiter) (a : ActiveSession) : (s.clear a).waiters = s.waiters := by
  simp only [waiters,clear,List.filterMap_append]
  exact congrArg _ (List.append_nil _)

theorem clear_wakeNext_waiters (s : Arbiter) (a : ActiveSession) :
    (s.clear a).wakeNext.waiters.Perm s.waiters := by
  have h := wakeNext_waiters (s.clear a)
  rwa [clear_waiters] at h

theorem drop_waiters {s : Arbiter} {stay gone : List Waiter} (error : String)
    (h : (gone ++ stay).Perm s.queue) :
    (s.move (.drop stay gone error)).waiters.Perm s.waiters := by
  have hgone : (gone.map (fun w => Record.rejected w error)).filterMap Record.waiter? = gone := by
    rw [List.filterMap_map]
    exact List.filterMap_some
  simp only [waiters,move,List.filterMap_append,hgone]
  refine List.Perm.trans ?_ (h.append_right _)
  rw [List.append_assoc]
  exact (List.perm_append_comm.append_left stay).trans
    (by rw [← List.append_assoc,← List.append_assoc]; exact List.perm_append_comm.append_right _)

end Arbiter

/-- The waiter that an event brings in. -/
def DocketEvent.newWaiters (d : Docket) : DocketEvent → List Waiter
  | .acquire abortToken port requestId => [⟨port,abortToken,requestId,d.arbiter.nextPromise⟩]
  | _ => []

namespace Docket

theorem next_waiters (d : Docket) (e : DocketEvent) :
    (d.next e).arbiter.waiters.Perm (e.newWaiters d ++ d.arbiter.waiters) := by
  cases e with
  | connect port => exact .refl _
  | acquire abortToken port requestId =>
    unfold next Arbiter.acquireSession DocketEvent.newWaiters
    cases d.arbiter.active with
    | none =>
      simp only [Arbiter.waiters,Arbiter.grant,List.filterMap_append]
      rw [← List.append_assoc]
      exact List.perm_append_comm
    | some a =>
      simp only [Arbiter.waiters]
      rw [← List.append_assoc]
      exact List.perm_append_comm.append_right _
  | release sid port =>
    simp only [next,Arbiter.releaseSession,DocketEvent.newWaiters]
    split
    · exact .refl _
    · split
      · exact .refl _
      · exact Arbiter.clear_wakeNext_waiters _ _
  | cancel abortToken =>
    simp only [next,Arbiter.cancelAcquire,DocketEvent.newWaiters]
    cases hf : d.arbiter.queue.find? (fun w => w.abortToken == abortToken) with
    | none => exact .refl _
    | some w => exact Arbiter.drop_waiters "aborted" (Arbiter.cancel_perm hf)
  | disconnect port =>
    have hpurge : ∀ s : Arbiter, Arbiter.waiters { s with
        queue := (Arbiter.purge port s.queue).1
        history := s.history ++ (Arbiter.purge port s.queue).2 } |>.Perm s.waiters := by
      intro s
      rw [Arbiter.purge_eq_drop]
      exact Arbiter.drop_waiters _ (Arbiter.purge_perm port s.queue)
    unfold next Arbiter.disconnect DocketEvent.newWaiters
    apply (hpurge _).trans
    split
    · split
      · exact Arbiter.clear_wakeNext_waiters _ _
      · exact .refl _
    · exact .refl _

end Docket

namespace State
variable (port : Port) (requestId : ℤ)

/-- How much a mark takes of what is owed to this request of this port. -/
def markSpent : Mark → ℕ
  | .docket (.acquire _ p r) | .serve p r | .forward p r _ _ =>
    if p = port ∧ r = requestId then 1 else 0
  | .settle r => (r.waiter?.toList.countP (Waiter.serves port requestId))
  | _ => 0

/-- What this request of this port is owed, got, or was owed as an acquire. -/
def account (s : State) : ℕ :=
  s.arbiter.waiters.countP (Waiter.serves port requestId) +
    s.pendingChild.countP (PendingChild.serves port requestId ∘ Prod.snd) +
    s.trace.countP (Effect.repliesTo port requestId)

variable {s : State}

theorem notice_countP {l : List Effect} (h : ∀ fx ∈ l, fx.isNotice = true) :
    l.countP (Effect.repliesTo port requestId) = 0 := by
  apply List.countP_eq_zero.mpr
  intro fx hfx
  have hnotice := h fx hfx
  cases fx with
  | post p msg => cases msg <;> first | exact Bool.false_ne_true | simp [Effect.isNotice] at hnotice
  | pingCore | shutdown | closePort => exact Bool.false_ne_true
  | _ => simp [Effect.isNotice] at hnotice

theorem posted_countP (p : Port) (r : ℤ) (outcome : Except String Result) :
    (s.posted p (.reply r outcome)).countP (Effect.repliesTo port requestId) ≤
      if p = port ∧ r = requestId then 1 else 0 := by
  unfold State.posted
  by_cases hp : p ∈ s.ports
  · rw [if_pos hp,List.countP_singleton]
    simp [Effect.repliesTo,Effect.toTab?]
  · rw [if_neg hp]
    exact Nat.zero_le _

/-- The accounts of the two sides, from bounds on their parts. -/
theorem account_le {t : State} {a : Act} {spent : ℕ} (htrace : t.trace = s.trace ++ s.emits a)
    (hparts : t.arbiter.waiters.countP (Waiter.serves port requestId) +
      t.pendingChild.countP (PendingChild.serves port requestId ∘ Prod.snd) +
      (s.emits a).countP (Effect.repliesTo port requestId) ≤
        s.arbiter.waiters.countP (Waiter.serves port requestId) +
        s.pendingChild.countP (PendingChild.serves port requestId ∘ Prod.snd) +
        spent) : t.account port requestId ≤ s.account port requestId + spent := by
  unfold account
  rw [htrace,List.countP_append]
  omega

theorem lose_account (reason : String) :
    (s.emits (.lose reason)).countP (Effect.repliesTo port requestId) ≤
      s.pendingChild.countP (PendingChild.serves port requestId ∘ Prod.snd) := by
  have hrejects : ∀ l : List (ℕ × PendingChild),
      (l.flatMap s.rejected).countP (Effect.repliesTo port requestId) ≤
        l.countP (PendingChild.serves port requestId ∘ Prod.snd) := by
    intro l
    induction l with
    | nil => exact Nat.le.refl
    | cons entry l ih =>
      rw [List.flatMap_cons,List.countP_append,List.countP_cons]
      have hone : (s.rejected entry).countP (Effect.repliesTo port requestId) ≤
          if (PendingChild.serves port requestId ∘ Prod.snd) entry = true then 1 else 0 := by
        unfold rejected
        by_cases hp : entry.2.port ∈ s.ports
        · rw [if_pos hp,List.countP_singleton]
          exact Nat.le.refl
        · rw [if_neg hp]
          exact Nat.zero_le _
      omega
  have hlog := notice_countP port requestId (l := s.broadcast (.log [s!"core: lost ({reason})"]))
    (fun fx hfx => by
      obtain ⟨_,_,rfl⟩ := s.mem_broadcast.mp hfx
      rfl)
  have hclose : (s.corePort.toList.map Effect.closeCore).countP
      (Effect.repliesTo port requestId) = 0 := by
    cases s.corePort <;> rfl
  have hfreed := notice_countP port requestId
    (l := if s.loadedInfo.isSome then s.broadcast (.notify .modelFreed) else [])
    (fun fx hfx => by
      split at hfx
      · obtain ⟨_,_,rfl⟩ := s.mem_broadcast.mp hfx
        rfl
      · simp at hfx)
  simp only [emits,List.countP_append,hlog,hclose,hfreed,Nat.zero_add,Nat.add_zero]
  exact hrejects s.pendingChild

theorem act_account {a : Act} (hl : Ledger s) (ha : s.Allows a) :
    (s.act a).account port requestId ≤
      s.account port requestId + (a.marks.map (markSpent port requestId)).sum := by
  apply account_le port requestId (act_trace s a)
  cases a with
  | tell effects =>
    rw [emits,notice_countP port requestId (fun fx hfx => (ha fx hfx).1)]
    exact Nat.le.refl
  | aside | join | abandon | attach | stray => exact Nat.le.refl
  | reply p r outcome =>
    have h := s.posted_countP port requestId p r outcome
    rw [act_reply]
    simp only [Act.marks,List.map_cons,List.map_nil,List.sum_cons,List.sum_nil,markSpent,emits]
    simp only [emit]
    omega
  | settle r =>
    rw [act_settle]
    simp only [Act.marks,List.map_cons,List.map_nil,List.sum_cons,List.sum_nil,markSpent,emit]
    cases r with
    | granted w sid =>
      have h := s.posted_countP port requestId w.port w.requestId (.ok (.sid sid))
      simp only [emits,Record.waiter?,Option.toList_some,List.countP_singleton,Waiter.serves,
        Bool.and_eq_true,beq_iff_eq]
      omega
    | rejected w error =>
      have h := s.posted_countP port requestId w.port w.requestId (.error error)
      simp only [emits,Record.waiter?,Option.toList_some,List.countP_singleton,Waiter.serves,
        Bool.and_eq_true,beq_iff_eq]
      omega
    | ended sid => exact Nat.le.refl
  | leave p =>
    have h := (Docket.next_waiters s.docket (.disconnect p)).countP_eq (Waiter.serves port requestId)
    have hfilter := (List.filter_sublist (p := fun entry => decide (entry.2.port ≠ p))
      (l := s.pendingChild)).countP_le (p := PendingChild.serves port requestId ∘ Prod.snd)
    simp only [Act.marks,List.map_cons,List.map_nil,List.sum_cons,List.sum_nil,markSpent,emits,
      List.countP_nil]
    exact Nat.add_le_add (Nat.add_le_add (Nat.le_of_eq h) hfilter) Nat.le.refl
  | arbitrate e =>
    have h := (Docket.next_waiters s.docket e).countP_eq (Waiter.serves port requestId)
    rw [List.countP_append] at h
    have hnew : (e.newWaiters s.docket).countP (Waiter.serves port requestId) ≤
        markSpent port requestId (.docket e) := by
      cases e with
      | acquire token p r =>
        simp only [DocketEvent.newWaiters,List.countP_singleton,Waiter.serves,Bool.and_eq_true,
          beq_iff_eq,markSpent]
        exact Nat.le.refl
      | connect | release | cancel | disconnect => exact Nat.le.refl
    simp only [Act.marks,List.map_cons,List.map_nil,List.sum_cons,List.sum_nil,emits,
      List.countP_nil,act]
    change (s.docket.next e).arbiter.waiters.countP _ + _ + 0 ≤ _
    rw [h]
    change _ + s.arbiter.waiters.countP _ + _ + 0 ≤ _
    omega
  | elect tab now =>
    have hnone : (s.emits (.elect tab now)).countP (Effect.repliesTo port requestId) = 0 := by
      apply notice_countP port requestId
      intro fx hfx
      simp only [emits] at hfx
      split at hfx
      · simp at hfx
      · obtain ⟨_,rfl⟩ := (s.mem_posted tab).mp hfx
        rfl
    rw [hnone,act_elect]
    exact Nat.le.refl
  | lose reason =>
    have h := s.lose_account port requestId reason
    have hnil : (s.act (.lose reason)).pendingChild = [] := rfl
    have harbiter : (s.act (.lose reason)).arbiter = s.arbiter := rfl
    rw [hnil,harbiter,List.countP_nil]
    omega
  | forward p r call kept =>
    cases hc : s.corePort with
    | none => simp [Allows,hc] at ha
    | some core =>
      have hnone : (s.emits (.forward p r call kept)).countP (Effect.repliesTo port requestId) = 0 := by
        simp only [emits,hc]
        rfl
      rw [hnone,forward_pending hl hc,(s.forward_frame p r call kept).arbiter,List.countP_append]
      have hnew : (if kept then [(s.nextChildReqId,PendingChild.mk p r)] else []).countP
          (PendingChild.serves port requestId ∘ Prod.snd) ≤
            if p = port ∧ r = requestId then 1 else 0 := by
        cases kept with
        | false => exact Nat.zero_le _
        | true => simp [List.countP_singleton,PendingChild.serves]
      simp only [Act.marks,List.map_cons,List.map_nil,List.sum_cons,List.sum_nil,markSpent]
      omega
  | relay childReqId outcome =>
    rw [(s.relay_frame childReqId outcome).arbiter]
    cases hlook : s.pendingChild.lookup childReqId with
    | none =>
      have hsame : s.act (.relay childReqId outcome) = s := by simp only [act,hlook]
      rw [hsame]
      simp only [emits,hlook]
      exact Nat.le.refl
    | some p =>
      have hmem : (childReqId,p) ∈ s.pendingChild := by
        obtain ⟨pre,post,hsplit,_⟩ := List.lookup_eq_some_iff.mp hlook
        simp [hsplit]
      have hsplit := List.countP_eq_countP_filter_add s.pendingChild
        (PendingChild.serves port requestId ∘ Prod.snd) (fun entry => decide (entry.1 ≠ childReqId))
      have hone : (s.emits (.relay childReqId outcome)).countP (Effect.repliesTo port requestId) ≤
          (s.pendingChild.filter (fun entry => !decide (entry.1 ≠ childReqId))).countP
            (PendingChild.serves port requestId ∘ Prod.snd) := by
        simp only [emits,hlook,Option.toList_some,List.flatMap_cons,List.flatMap_nil,
          List.append_nil,answered]
        split
        · rw [List.countP_singleton]
          split
          · next hserves =>
            refine List.countP_pos_iff.mpr ⟨(childReqId,p),?_,?_⟩
            · exact List.mem_filter.mpr ⟨hmem,by simp⟩
            · simpa [Effect.repliesTo,Effect.toTab?,PendingChild.serves] using hserves
          · exact Nat.zero_le _
        · exact Nat.zero_le _
      have hpending : (s.act (.relay childReqId outcome)).pendingChild =
          s.pendingChild.filter (fun entry => decide (entry.1 ≠ childReqId)) := by
        simp only [act,hlook,answer_eq]
        rfl
      rw [hpending]
      omega

theorem Performs.account {t : State} {ms : List Mark} (h : Performs s ms t) (hs : Sound s)
    (hl : Ledger s) : t.account port requestId ≤
      s.account port requestId + (ms.map (markSpent port requestId)).sum := by
  induction h with
  | nil => exact Nat.le.refl
  | cons a ha _ ih =>
    have hone := act_account port requestId hl ha
    have hrest := ih (act_sound hs ha) (act_ledger hs hl ha)
    rw [List.map_append,List.sum_append]
    omega

/-- What this request of this port is owed or got. -/
def owed (s : State) : ℕ :=
  s.arbiter.queue.countP (Waiter.serves port requestId) +
    s.pendingChild.countP (PendingChild.serves port requestId ∘ Prod.snd) +
    s.trace.countP (Effect.repliesTo port requestId)

theorem account_eq (s : State) : s.account port requestId = s.owed port requestId +
    (s.arbiter.history.filterMap Record.waiter?).countP (Waiter.serves port requestId) := by
  unfold account owed Arbiter.waiters
  rw [List.countP_append]
  omega

variable {e : Event}

theorem next_arbiter (s : State) (e : Event) : (s.next e).arbiter = (s.task e).arbiter := by
  unfold next
  rw [runMicrotasks_eq]
  rfl

/-- The history grows by what a step settles. -/
theorem next_history (hs : Sound s) (he : Enabled s e) :
    (s.next e).arbiter.history = s.arbiter.history ++ s.settled e := by
  obtain ⟨hdocket,-⟩ := next_docket hs he
  obtain ⟨rs,hrs,-⟩ := Docket.exec_history s.docket (s.docketEvents e)
  have hhistory : (s.next e).arbiter.history = s.arbiter.history ++ rs :=
    (congrArg (fun d => d.arbiter.history) hdocket).trans hrs
  have hsettled : s.settled e = rs := by
    rw [settled,← next_arbiter,hhistory,List.drop_left]
  rw [hhistory,hsettled]

theorem settled_spent (records : List Record) :
    ((records.map Mark.settle).map (markSpent port requestId)).sum =
      (records.filterMap Record.waiter?).countP (Waiter.serves port requestId) := by
  induction records with
  | nil => rfl
  | cons r records ih =>
    rw [List.map_cons,List.map_cons,List.sum_cons,ih]
    cases r with
    | granted w _ | rejected w _ =>
      change _ = (w :: records.filterMap Record.waiter?).countP _
      rw [List.countP_cons,Nat.add_comm]
      simp [markSpent,Record.waiter?,List.countP_singleton]
    | ended sid => exact Nat.zero_add _

/-- The share of the message an event takes up. -/
def eventSpent : Event → ℕ
  | .message p msg _ _ => if p = port ∧ msg.requestId = requestId then 1 else 0
  | _ => 0

theorem marks_spent (s : State) (e : Event) :
    ((s.marks e).map (markSpent port requestId)).sum = eventSpent port requestId e := by
  cases e with
  | connect | coreMessage | pingTimeout => rfl
  | heartbeat now later =>
    simp [marks,Function.comp_def,markSpent,eventSpent]
  | message p msg now throws =>
    obtain ⟨r,request⟩ := msg
    cases request with
    | attachCore transferred => cases transferred <;> simp [marks,markSpent,eventSpent]
    | core call =>
      simp only [marks]
      split <;> simp [markSpent,eventSpent]
    | _ => simp [marks,markSpent,eventSpent]

/-- What is owed to a request grows only by the request itself. -/
theorem next_owed (hs : Sound s) (hl : Ledger s) (he : Enabled s e) :
    (s.next e).owed port requestId ≤ s.owed port requestId + eventSpent port requestId e := by
  have h := (next_performs hs he).account port requestId hs hl
  rw [account_eq,account_eq,next_history hs he,List.filterMap_append,List.countP_append,
    List.map_append,List.sum_append,marks_spent,settled_spent] at h
  omega

end State
end Rullama.Router
