import Mathlib.Data.List.Perm.Basic
import Rullama.Router.Docket

/-! # The lease: what session arbitration is for

The lease machine reads the history of an arbiter and knows nothing of queues. It
lets a promise be granted only while no session is open, under a session id above all
earlier ones, and only when every older promise has been settled; it lets a promise be
settled once. The arbiter's moves keep its history a run of the lease.
-/
namespace Rullama.Router
open Transition

/-- The promise a record settles. -/
def Record.promise? : Record → Option ℕ
  | .granted w _ | .rejected w _ => some w.promise
  | .ended _ => none

/-- The session id a record grants. -/
def Record.granted? : Record → Option ℕ
  | .granted _ sid => some sid
  | _ => none

structure Lease where
  holder : Option ActiveSession
  lastSid : ℕ
  settled : List ℕ

namespace Lease

def initial : Lease := ⟨none,1,[]⟩

def Enabled (l : Lease) : Record → Prop
  | .granted w sid => l.holder = none ∧ l.lastSid < sid ∧ w.promise ∉ l.settled ∧
      ∀ k < w.promise, k ∈ l.settled
  | .rejected w _ => w.promise ∉ l.settled
  | .ended sid => ∃ port, l.holder = some ⟨sid,port⟩

def next (l : Lease) : Record → Lease
  | .granted w sid => ⟨some ⟨sid,w.port⟩,sid,l.settled ++ [w.promise]⟩
  | .rejected w _ => { l with settled := l.settled ++ [w.promise] }
  | .ended _ => { l with holder := none }

def machine : Machine Lease Record where
  enabled := Enabled
  next := next

theorem exec_settled (l : Lease) (rs : List Record) :
    (machine.exec l rs).settled = l.settled ++ rs.filterMap Record.promise? := by
  induction rs generalizing l with
  | nil => simp
  | cons r rs ih =>
    rw [Machine.exec_cons,ih]
    cases r with
    | granted w sid => exact (List.append_cons l.settled w.promise _).symm
    | rejected w error => exact (List.append_cons l.settled w.promise _).symm
    | ended sid => rfl

/-- In a run no promise is settled twice. -/
theorem run_settled_nodup {l : Lease} {rs : List Record} (hr : machine.Run l rs)
    (hl : l.settled.Nodup) : (machine.exec l rs).settled.Nodup := by
  refine Machine.Run.invariant (I := fun l => l.settled.Nodup) (fun l r hl he => ?_) hr hl
  have hsnoc : ∀ w : Waiter, w.promise ∉ l.settled → (l.settled ++ [w.promise]).Nodup := by
    intro w hw
    refine List.nodup_append.mpr ⟨hl,List.pairwise_singleton _ _,?_⟩
    rintro k hk q hq rfl
    exact hw (List.mem_singleton.mp hq ▸ hk)
  cases r with
  | granted w sid => exact hsnoc w he.2.2.1
  | rejected w error => exact hsnoc w he
  | ended sid => exact hl

/-- In a run every granted id is above those granted before. -/
theorem run_sids_sorted {l : Lease} {rs : List Record} (hr : machine.Run l rs) :
    (rs.filterMap Record.granted?).Pairwise (· < ·) ∧
      ∀ sid ∈ rs.filterMap Record.granted?, l.lastSid < sid := by
  induction rs generalizing l with
  | nil => simp
  | cons r rs ih =>
    obtain ⟨he,hr⟩ := hr
    obtain ⟨hsorted,hlast⟩ := ih hr
    cases r with
    | granted w sid =>
      refine ⟨List.pairwise_cons.mpr ⟨hlast,hsorted⟩,?_⟩
      intro n hn
      rcases List.mem_cons.mp hn with rfl | hn
      · exact he.2.1
      · exact Nat.lt_trans he.2.1 (hlast n hn)
    | rejected w error => exact ⟨hsorted,hlast⟩
    | ended sid => exact ⟨hsorted,hlast⟩

/-- Rejecting distinct unsettled promises is a run. -/
theorem run_rejects (l : Lease) (error : String) {gone : List Waiter}
    (h : (l.settled ++ gone.map Waiter.promise).Nodup) :
    machine.Run l (gone.map (fun w => .rejected w error)) ∧
      machine.exec l (gone.map (fun w => .rejected w error)) =
        { l with settled := l.settled ++ gone.map Waiter.promise } := by
  induction gone generalizing l with
  | nil => simp
  | cons w gone ih =>
    rw [List.map_cons,List.append_cons] at h
    have hw : w.promise ∉ l.settled := by
      intro hmem
      have := (List.nodup_append.mp (List.nodup_append.mp h).1).2.2 _ hmem w.promise (by simp)
      exact this rfl
    obtain ⟨hrun,hexec⟩ := ih { l with settled := l.settled ++ [w.promise] } h
    refine ⟨⟨hw,hrun⟩,?_⟩
    rw [List.map_cons,Machine.exec_cons,List.map_cons,List.append_cons]
    exact hexec

end Lease

namespace Arbiter

/-- The moves the arbiter's functions are made of. `drop` splits the queue into who
stays and who is rejected. -/
inductive Move where
  | enter (w : Waiter)
  | serve
  | clear
  | drop (stay gone : List Waiter) (error : String)

def moveEnabled (s : Arbiter) : Move → Prop
  | .enter w => w.promise = s.nextPromise
  | .serve => s.active = none
  | .clear => True
  | .drop stay gone error => stay.Sublist s.queue ∧ (gone ++ stay).Perm s.queue ∧
      error ≠ "core disconnected"

def move (s : Arbiter) : Move → Arbiter
  | .enter w => { s with queue := s.queue ++ [w], nextPromise := s.nextPromise + 1 }
  | .serve =>
    match s.queue with
    | [] => s
    | w :: rest => { s with queue := rest }.grant w
  | .clear =>
    match s.active with
    | none => s
    | some a => s.clear a
  | .drop stay gone error =>
    { s with queue := stay, history := s.history ++ gone.map (fun w => .rejected w error) }

def moves : Machine Arbiter Move where
  enabled := moveEnabled
  next := move

/-- The arbiter refines the lease: its history is a run, the lease's holder and last id
are its own, and the unsettled promises are those of the queue, in order. -/
structure Orderly (s : Arbiter) : Prop where
  lawful : Lease.machine.Run .initial s.history
  holder : (Lease.machine.exec .initial s.history).holder = s.active
  lastSid : (Lease.machine.exec .initial s.history).lastSid = s.nextSid
  promises : ((Lease.machine.exec .initial s.history).settled ++ s.queue.map Waiter.promise).Perm
    (List.range s.nextPromise)
  sorted : (s.queue.map Waiter.promise).Pairwise (· < ·)
  polite : ∀ w error, .rejected w error ∈ s.history → error ≠ "core disconnected"

theorem orderly_initial : Orderly .initial :=
  ⟨trivial,rfl,rfl,.nil,.nil,fun _ _ h => by simp [initial] at h⟩

section Step
variable {s : Arbiter}

theorem enter_orderly (h : Orderly s) {w : Waiter} (hw : w.promise = s.nextPromise) :
    Orderly (s.move (.enter w)) := by
  obtain ⟨hrun,hholder,hsid,hperm,hsorted,hpolite⟩ := h
  refine ⟨hrun,hholder,hsid,?_,?_,hpolite⟩
  · simp only [move,List.map_append,List.map_cons,List.map_nil,hw,List.range_succ,
      ← List.append_assoc]
    exact hperm.append_right _
  · simp only [move,List.map_append,List.map_cons,List.map_nil,hw]
    refine List.pairwise_append.mpr ⟨hsorted,List.pairwise_singleton _ _,?_⟩
    intro k hk q hq
    obtain rfl := List.mem_singleton.mp hq
    exact List.mem_range.mp (hperm.subset (List.mem_append_right _ hk))

theorem serve_orderly (h : Orderly s) (ha : s.active = none) : Orderly (s.move .serve) := by
  have horderly := h
  obtain ⟨hrun,hholder,hsid,hperm,hsorted,hpolite⟩ := h
  simp only [move]
  cases hq : s.queue with
  | nil => exact horderly
  | cons w rest =>
    rw [hq,List.map_cons] at hperm hsorted
    obtain ⟨hmin,hsorted⟩ := List.pairwise_cons.mp hsorted
    have hnodup := hperm.nodup_iff.mpr List.nodup_range
    have hnew : w.promise ∉ (Lease.machine.exec .initial s.history).settled := by
      intro hmem
      exact (List.nodup_append.mp hnodup).2.2 _ hmem _ List.mem_cons_self rfl
    have holder : ∀ k < w.promise, k ∈ (Lease.machine.exec .initial s.history).settled := by
      intro k hk
      have hw : w.promise ∈ List.range s.nextPromise := hperm.subset (by simp)
      have hkr : k ∈ List.range s.nextPromise :=
        List.mem_range.mpr (Nat.lt_trans hk (List.mem_range.mp hw))
      rcases List.mem_append.mp (hperm.symm.subset hkr) with hk' | hk'
      · exact hk'
      · rcases List.mem_cons.mp hk' with rfl | hk'
        · exact absurd hk (Nat.lt_irrefl _)
        · exact absurd hk (Nat.lt_asymm (hmin k hk'))
    have hen : Lease.machine.enabled (Lease.machine.exec .initial s.history)
        (.granted w (s.nextSid + 1)) :=
      ⟨hholder.trans ha,hsid ▸ Nat.lt_succ_self _,hnew,holder⟩
    refine ⟨?_,?_,?_,?_,hsorted,?_⟩
    · exact Machine.run_append _ |>.mpr ⟨hrun,hen,trivial⟩
    · simp only [grant,Machine.exec_append]
      rfl
    · simp only [grant,Machine.exec_append]
      rfl
    · simp only [grant,Machine.exec_append,Machine.exec_cons,Machine.exec_nil]
      rw [List.append_cons] at hperm
      exact hperm
    · intro v error hv
      rcases List.mem_append.mp hv with hv | hv
      · exact hpolite v error hv
      · simp at hv

theorem clear_orderly (h : Orderly s) : Orderly (s.move .clear) := by
  have horderly := h
  obtain ⟨hrun,hholder,hsid,hperm,hsorted,hpolite⟩ := h
  simp only [move]
  cases ha : s.active with
  | none => exact horderly
  | some a =>
    refine ⟨?_,?_,?_,?_,hsorted,?_⟩
    · exact Machine.run_append _ |>.mpr ⟨hrun,⟨a.port,hholder.trans ha⟩,trivial⟩
    · simp only [clear,Machine.exec_append]
      rfl
    · simp only [clear,Machine.exec_append]
      exact hsid
    · simp only [clear,Machine.exec_append]
      exact hperm
    · intro v error hv
      rcases List.mem_append.mp hv with hv | hv
      · exact hpolite v error hv
      · simp at hv

theorem drop_orderly (h : Orderly s) {stay gone : List Waiter} {error : String}
    (hm : s.moveEnabled (.drop stay gone error)) : Orderly (s.move (.drop stay gone error)) := by
  obtain ⟨hrun,hholder,hsid,hperm,hsorted,hpolite⟩ := h
  obtain ⟨hsub,hsplit,herror⟩ := hm
  have hperm' : (((Lease.machine.exec .initial s.history).settled ++ gone.map Waiter.promise) ++
      stay.map Waiter.promise).Perm (List.range s.nextPromise) := by
    rw [List.append_assoc,← List.map_append]
    exact ((hsplit.map Waiter.promise).append_left _).trans hperm
  have hnodup := (List.nodup_append.mp (hperm'.nodup_iff.mpr List.nodup_range)).1
  obtain ⟨hrejects,hexec⟩ := Lease.run_rejects _ error hnodup
  refine ⟨?_,?_,?_,?_,hsorted.sublist (hsub.map _),?_⟩
  · exact Machine.run_append _ |>.mpr ⟨hrun,hrejects⟩
  · simp only [move,Machine.exec_append,hexec]
    exact hholder
  · simp only [move,Machine.exec_append,hexec]
    exact hsid
  · simp only [move,Machine.exec_append,hexec]
    exact hperm'
  · intro v e hv
    rcases List.mem_append.mp hv with hv | hv
    · exact hpolite v e hv
    · obtain ⟨w,_,hw⟩ := List.mem_map.mp hv
      obtain ⟨_,rfl⟩ := Record.rejected.inj hw
      exact herror

theorem move_orderly (h : Orderly s) {m : Move} (hm : moves.enabled s m) :
    Orderly (moves.next s m) := by
  cases m with
  | enter w => exact enter_orderly h hm
  | serve => exact serve_orderly h hm
  | clear => exact clear_orderly h
  | drop stay gone error => exact drop_orderly h hm

end Step

theorem wakeNext_eq {s : Arbiter} (h : s.active = none) : s.wakeNext = s.move .serve := by
  unfold wakeNext move
  simp only [h]
  split <;> simp_all

theorem clear_wakeNext_orderly {s : Arbiter} (h : Orderly s) {a : ActiveSession}
    (ha : s.active = some a) : Orderly (s.clear a).wakeNext := by
  have hclear : s.move .clear = s.clear a := by simp only [move,ha]
  rw [wakeNext_eq rfl,← hclear]
  exact serve_orderly (clear_orderly h) (hclear ▸ rfl)

/-- Work conservation: only behind an open session does anyone wait. -/
def Busy (s : Arbiter) : Prop := s.queue ≠ [] → s.active.isSome

theorem wakeNext_busy {s : Arbiter} (h : s.active = none) : Busy s.wakeNext := by
  intro hq
  unfold wakeNext at *
  simp only [h] at *
  cases hs : s.queue with
  | nil => simp [hs] at hq
  | cons w rest => rfl

theorem Busy.shrink {s : Arbiter} (h : Busy s) {stay : List Waiter} (hstay : stay.Sublist s.queue)
    (history : List Record) : Busy { s with queue := stay, history := history } := by
  intro hq
  refine h (fun hnil => hq ?_)
  rw [hnil] at hstay
  exact List.sublist_nil.mp hstay

/-- Who is cancelled and who stays make up the queue. -/
theorem cancel_perm {queue : List Waiter} {abortToken : String} {w : Waiter}
    (h : queue.find? (fun w => w.abortToken == abortToken) = some w) :
    ([w] ++ queue.eraseP (fun w => w.abortToken == abortToken)).Perm queue := by
  obtain ⟨hw,pre,post,hsplit,hpre⟩ := List.find?_eq_some_iff_append.mp h
  have herase : (pre ++ w :: post).eraseP (fun w => w.abortToken == abortToken) = pre ++ post := by
    rw [List.eraseP_append_right _ (fun v hv => by simpa using hpre v hv)]
    exact congrArg (pre ++ ·) (List.eraseP_cons_of_pos hw)
  rw [hsplit,herase,List.singleton_append]
  exact List.perm_middle.symm

/-- Who is purged and who stays make up the queue. -/
theorem purge_perm (port : Port) (queue : List Waiter) :
    ((queue.filter (fun w => w.port = port)).reverse ++
      queue.filter (fun w => w.port ≠ port)).Perm queue := by
  apply ((List.reverse_perm _).append_right _).trans
  have h := List.filter_append_perm (fun w : Waiter => decide (w.port = port)) queue
  simpa using h

theorem purge_eq_drop (s : Arbiter) (port : Port) :
    { s with
      queue := (purge port s.queue).1
      history := s.history ++ (purge port s.queue).2 } =
      s.move (.drop (s.queue.filter (fun w => w.port ≠ port))
        (s.queue.filter (fun w => w.port = port)).reverse "port disconnected") := by
  simp only [move,purge_queue,purge_records,List.map_reverse]

end Arbiter

namespace Docket

/-- What every docket event keeps. -/
structure Fair (d : Docket) : Prop where
  orderly : d.arbiter.Orderly
  busy : d.arbiter.Busy

theorem fair_initial (ports : List Port) : Fair ⟨ports,.initial⟩ :=
  ⟨Arbiter.orderly_initial,fun h => absurd rfl h⟩

section Step
variable {d : Docket}

theorem acquire_fair (h : Fair d) (abortToken : String) (port : Port) (requestId : ℤ) :
    Fair (d.next (.acquire abortToken port requestId)) := by
  obtain ⟨horderly,hbusy⟩ := h
  have henter := Arbiter.enter_orderly horderly
    (w := ⟨port,abortToken,requestId,d.arbiter.nextPromise⟩) rfl
  unfold next Arbiter.acquireSession
  cases ha : d.arbiter.active with
  | none =>
    have hq : d.arbiter.queue = [] := by
      by_contra hq
      simpa [ha] using hbusy hq
    refine ⟨?_,fun _ => rfl⟩
    have hserve := Arbiter.serve_orderly henter ha
    simp only [Arbiter.move,hq,List.nil_append] at hserve
    simp only [hq]
    exact hserve
  | some a =>
    simp only [Arbiter.move,ha] at henter
    exact ⟨henter,fun _ => rfl⟩

theorem release_fair (h : Fair d) (sid : Option ℕ) (port : Port) :
    Fair (d.next (.release sid port)) := by
  unfold next Arbiter.releaseSession
  cases ha : d.arbiter.active with
  | none => exact h
  | some a =>
    simp only
    split
    · exact h
    · exact ⟨Arbiter.clear_wakeNext_orderly h.orderly ha,Arbiter.wakeNext_busy rfl⟩

theorem cancel_fair (h : Fair d) (abortToken : String) : Fair (d.next (.cancel abortToken)) := by
  cases hf : d.arbiter.queue.find? (fun w => w.abortToken == abortToken) with
  | none =>
    simp only [next,Arbiter.cancelAcquire,hf]
    exact ⟨h.orderly,h.busy⟩
  | some w =>
    simp only [next,Arbiter.cancelAcquire,hf]
    have hsub := List.eraseP_sublist (p := fun w => w.abortToken == abortToken)
      (l := d.arbiter.queue)
    exact ⟨Arbiter.drop_orderly h.orderly ⟨hsub,Arbiter.cancel_perm hf,by decide⟩,
      h.busy.shrink hsub _⟩

theorem purge_fair (h : Fair d) (ports : List Port) (port : Port) :
    Fair ⟨ports,{ d.arbiter with
      queue := (Arbiter.purge port d.arbiter.queue).1
      history := d.arbiter.history ++ (Arbiter.purge port d.arbiter.queue).2 }⟩ := by
  rw [Arbiter.purge_eq_drop]
  have hsub := List.filter_sublist (p := fun w : Waiter => w.port ≠ port) (l := d.arbiter.queue)
  exact ⟨Arbiter.drop_orderly h.orderly ⟨hsub,Arbiter.purge_perm port _,by decide⟩,
    h.busy.shrink hsub _⟩

theorem disconnect_fair (h : Fair d) (port : Port) : Fair (d.next (.disconnect port)) := by
  unfold next Arbiter.disconnect
  cases ha : d.arbiter.active with
  | none => exact purge_fair h _ port
  | some a =>
    simp only
    split
    · have hwoken : Fair ⟨d.ports,(d.arbiter.clear a).wakeNext⟩ :=
        ⟨Arbiter.clear_wakeNext_orderly h.orderly ha,Arbiter.wakeNext_busy rfl⟩
      exact purge_fair hwoken _ port
    · exact purge_fair h _ port

theorem next_fair (h : Fair d) (e : DocketEvent) : Fair (d.next e) := by
  cases e with
  | connect port => exact ⟨h.orderly,h.busy⟩
  | acquire abortToken port requestId => exact acquire_fair h abortToken port requestId
  | release sid port => exact release_fair h sid port
  | cancel abortToken => exact cancel_fair h abortToken
  | disconnect port => exact disconnect_fair h port

end Step

theorem run_fair {d : Docket} {es : List DocketEvent} (hr : machine.Run d es) (h : Fair d) :
    Fair (machine.exec d es) :=
  Machine.Run.invariant (I := Fair) (fun _ e h _ => next_fair h e) hr h

end Docket
end Rullama.Router
