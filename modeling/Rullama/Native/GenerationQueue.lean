import Mathlib.Data.List.Basic
import Mathlib.Data.List.Nodup
import Mathlib.Tactic.Common
import Rullama.Transition.Machine

/-! # Generation queue

The pump runs one job after the other on the thread of the interface. It tells of every change,
and whoever is told may enqueue, remove and kick again before the pump goes on.
-/
namespace Rullama.Native.Generation
open Transition

inductive JobStatus where
  | queued
  | running
deriving DecidableEq

/-- Jobs are compared by reference. -/
structure GenerationQueue (Job : Type) where
  jobs : List Job := []
  status : Job → JobStatus := fun _ => .queued
  pumping : Bool := false
  active : Bool := false
  runningConvId : Option String := none
  /-- the token of the running job: whether it is cancelled -/
  runningCts : Option Bool := none

/-- What goes on when the code called last returns: the rest of a method that has raised
`Changed`, or of the pump. -/
inductive Frame (Job : Type) where
  | enqueued (kick : Bool)
  | removed
  | kicked
  | starting (job : Job)
  | runner (job : Job)
  | finished
  | stopped

/-- The thread of the interface: the calls in progress, innermost first, and the job whose runner
the pump awaits. -/
structure PumpState (Job : Type) where
  queue : GenerationQueue Job := {}
  stack : List (Frame Job) := []
  awaited : Option Job := none
  /-- ghost: all jobs that were enqueued -/
  enqueued : List Job := []
  /-- ghost: all jobs that were started -/
  started : List Job := []
  /-- ghost: whether `Kick` was called since the last job was enqueued -/
  kicked : Bool := false

/-- `returns` ends a handler, `suspend` the part of a runner up to its first pause. A runner
completes or fails before that, or later when the thread is idle. -/
inductive PumpEvent (Job : Type) where
  | enqueue (job : Job) (kick : Bool)
  | remove (job : Job)
  | kick
  | cancelRunning
  | returns
  | suspend
  | complete (failed : Bool)

namespace PumpState

section Step

variable {Job : Type} [DecidableEq Job] (convId : Job → String) (s : PumpState Job)

def call (f : Frame Job) : PumpState Job := { s with stack := f :: s.stack }

def isQueued (q : GenerationQueue Job) (job : Job) : Bool := q.status job = .queued

def enqueue (job : Job) (kick : Bool) : PumpState Job :=
  call { s with
    queue := { s.queue with jobs := s.queue.jobs ++ [job] }
    enqueued := s.enqueued ++ [job]
    kicked := false } (.enqueued kick)

def remove (job : Job) : PumpState Job :=
  if job ∈ s.queue.jobs then
    call { s with queue := { s.queue with jobs := s.queue.jobs.erase job } } .removed
  else s

def kick : PumpState Job :=
  if s.queue.pumping then { s with kicked := true }
  else call { s with
    queue := { s.queue with
      pumping := true
      active := true }
    kicked := true } .kicked

def cancelRunning : PumpState Job :=
  { s with queue := { s.queue with runningCts := s.queue.runningCts.map (fun _ => true) } }

/-- The head of the loop, with the end of the pump. -/
def pump : PumpState Job :=
  match s.queue.jobs.find? (isQueued s.queue) with
  | none => call { s with
      queue := { s.queue with
        pumping := false
        active := false } } .stopped
  | some job => call { s with
      queue := { s.queue with
        status := fun j => if j = job then .running else s.queue.status j
        runningConvId := some (convId job)
        runningCts := some false }
      started := s.started ++ [job] } (.starting job)

/-- The clean-up after a runner, whether it has completed or failed. -/
def finish (job : Job) : PumpState Job :=
  call { s with queue := { s.queue with
    runningCts := none
    runningConvId := none
    jobs := s.queue.jobs.erase job } } .finished

def resume : Frame Job → PumpState Job
  | .enqueued kick => if kick then s.kick else s
  | .removed | .stopped => s
  | .kicked | .finished => s.pump convId
  | .starting job => s.call (.runner job)
  | .runner job => { s with awaited := some job }

def Enabled : PumpEvent Job → Prop
  | .returns => ∃ f stack, s.stack = f :: stack ∧ ∀ job, f ≠ .runner job
  | .suspend => ∃ job stack, s.stack = .runner job :: stack
  | .complete _ => (∃ job stack, s.stack = .runner job :: stack) ∨
      s.stack = [] ∧ s.awaited.isSome = true
  | _ => True

def next : PumpEvent Job → PumpState Job
  | .enqueue job kick => s.enqueue job kick
  | .remove job => s.remove job
  | .kick => s.kick
  | .cancelRunning => s.cancelRunning
  | .returns | .suspend =>
    match s.stack with
    | [] => s
    | f :: stack => { s with stack := stack }.resume convId f
  | .complete _ =>
    match s.stack with
    | .runner job :: stack => { s with stack := stack }.finish job
    | _ =>
      match s.awaited with
      | none => s
      | some job => { s with awaited := none }.finish job

end Step

def machine {Job : Type} [DecidableEq Job] (convId : Job → String) :
    Machine (PumpState Job) (PumpEvent Job) where
  enabled := Enabled
  next := next convId

/-! ## What holds in every state -/

variable {Job : Type} [DecidableEq Job]

/-- The job that a call in progress runs. -/
def frameJob : Frame Job → Option Job
  | .starting job | .runner job => some job
  | _ => none

/-- A call of the pump that is in progress. -/
def isPump : Frame Job → Bool
  | .kicked | .starting _ | .runner _ | .finished => true
  | _ => false

/-- The jobs that were handed out and have not come back. -/
def executing (s : PumpState Job) : List Job :=
  s.stack.filterMap frameJob ++ s.awaited.toList

/-- The pumps in progress. -/
def pumps (s : PumpState Job) : ℕ := s.stack.countP isPump + s.awaited.toList.length

def waiting (s : PumpState Job) : List Job := s.queue.jobs.filter (isQueued s.queue)

/-- One job runs at a time, and every job of the list that says so is that one, unless it was
enqueued twice; jobs start in their order, and none twice; an idle pump leaves nothing. -/
structure Serial (s : PumpState Job) : Prop where
  single : s.executing.length ≤ 1
  running : ∀ job ∈ s.queue.jobs, s.queue.status job = .running →
    job ∈ s.executing ∨ 2 ≤ s.enqueued.count job
  ordered : s.started.Sublist s.enqueued
  once : s.started.Nodup
  idle : s.queue.active = false → s.kicked = true → s.waiting = []

/-- A job that is started is the first one of the list that is queued. -/
def StartsFirst (s s' : PumpState Job) : Prop :=
  s'.started = s.started ∨ ∃ job, s.waiting.head? = some job ∧ s'.started = s.started ++ [job]

/-- The state while the thread has taken a call off the stack: `hand` is its job, and `n` is one if
it was the pump. -/
structure Sound (hand : Option Job) (n : ℕ) (s : PumpState Job) : Prop where
  pumps_eq : s.pumps + n = if s.queue.pumping then 1 else 0
  active_eq : s.queue.active = s.queue.pumping
  started_iff : ∀ job, s.queue.status job = .running ↔ job ∈ s.started
  ordered : (s.started ++ s.waiting).Sublist s.enqueued
  once : s.started.Nodup
  counts : ∀ job, s.queue.jobs.count job ≤ s.enqueued.count job
  past : ∀ job ∈ s.started, job ∉ s.executing → hand ≠ some job →
    s.queue.jobs.count job < s.enqueued.count job
  idle : s.queue.active = false → s.kicked = true → s.waiting = []

variable {convId : Job → String} {s : PumpState Job} {hand : Option Job} {n : ℕ}

theorem sound_start : Sound none 0 ({} : PumpState Job) where
  pumps_eq := rfl
  active_eq := rfl
  started_iff _ := iff_of_false nofun nofun
  ordered := List.Sublist.refl _
  once := List.nodup_nil
  counts _ := Nat.le_refl _
  past := nofun
  idle _ _ := rfl

omit [DecidableEq Job] in
theorem length_executing_le (s : PumpState Job) : s.executing.length ≤ s.pumps := by
  have hframes : (s.stack.filterMap frameJob).length ≤ s.stack.countP isPump := by
    rw [List.length_filterMap_eq_countP]
    refine List.countP_mono_left (fun f _ hf => ?_)
    cases f <;> first | rfl | cases hf
  rw [executing,pumps,List.length_append]
  omega

theorem Sound.serial (h : Sound none 0 s) : s.Serial := by
  have hpumps := h.pumps_eq
  refine ⟨?_,?_,?_,h.once,h.idle⟩
  · have hle := length_executing_le s
    split at hpumps <;> omega
  · intro job hjob hrunning
    by_cases hex : job ∈ s.executing
    · exact .inl hex
    · have hlt := h.past job ((h.started_iff job).mp hrunning) hex nofun
      have hpos := List.count_pos_iff.mpr hjob
      exact .inr (by omega)
  · exact (List.sublist_append_left _ _).trans h.ordered

/-! ## One call -/

theorem Sound.pop (h : Sound none 0 s) {f : Frame Job} {stack : List (Frame Job)}
    (hs : s.stack = f :: stack) :
    Sound (frameJob f) (if isPump f then 1 else 0) { s with stack := stack } := by
  refine ⟨?_,h.active_eq,h.started_iff,h.ordered,h.once,h.counts,?_,h.idle⟩
  · have hpumps := h.pumps_eq
    rw [pumps,hs,List.countP_cons] at hpumps
    rw [pumps]
    simp only at hpumps ⊢
    omega
  · intro job hjob hex hhand
    refine h.past job hjob ?_ nofun
    intro hmem
    rw [executing,hs,List.filterMap_cons] at hmem
    cases hf : frameJob f with
    | none =>
      rw [hf] at hmem
      exact hex hmem
    | some j =>
      rw [hf] at hmem hhand
      rcases List.mem_cons.mp hmem with rfl | hmem
      · exact hhand rfl
      · exact hex hmem

/-- A call of which the pump knows nothing changes nothing. -/
theorem Sound.call (h : Sound hand n s) {f : Frame Job} (hf : isPump f = false) :
    Sound hand n (s.call f) := by
  have hnone : frameJob f = none := by
    cases f <;> first | rfl | cases hf
  refine ⟨?_,h.active_eq,h.started_iff,h.ordered,h.once,h.counts,?_,h.idle⟩
  · have hpumps := h.pumps_eq
    rw [pumps] at hpumps ⊢
    rw [PumpState.call,List.countP_cons_of_neg (by rw [hf]; exact nofun)]
    exact hpumps
  · intro job hjob hex
    refine h.past job hjob ?_
    rwa [executing,PumpState.call,List.filterMap_cons_none hnone] at hex

/-- The pump goes on in a call that it makes. -/
theorem Sound.callPump (h : Sound hand 1 s) {f : Frame Job} (hf : isPump f = true)
    (hhand : ∀ job, hand = some job → frameJob f = some job) : Sound none 0 (s.call f) := by
  refine ⟨?_,h.active_eq,h.started_iff,h.ordered,h.once,h.counts,?_,h.idle⟩
  · have hpumps := h.pumps_eq
    rw [pumps] at hpumps ⊢
    rw [PumpState.call,List.countP_cons_of_pos hf]
    simp only at hpumps ⊢
    omega
  · intro job hjob hex _
    have hmem (j : Job) (hj : j ∈ s.executing ∨ frameJob f = some j) :
        j ∈ (s.call f).executing := by
      rw [executing,PumpState.call,List.filterMap_cons]
      cases hfj : frameJob f with
      | none => exact hj.resolve_right (by rw [hfj]; exact nofun)
      | some i =>
        rcases hj with hj | hj
        · exact List.mem_cons_of_mem _ hj
        · rw [hfj] at hj
          cases hj
          exact List.mem_cons_self
    refine h.past job hjob (fun hj => hex (hmem job (.inl hj))) ?_
    exact fun heq => hex (hmem job (.inr (hhand job heq)))

theorem Sound.enqueue (h : Sound none 0 s) (job : Job) (kick : Bool) :
    Sound none 0 (s.enqueue job kick) := by
  refine Sound.call ?_ rfl
  refine ⟨h.pumps_eq,h.active_eq,h.started_iff,?_,h.once,?_,?_,nofun⟩
  · have hfilter : ([job].filter (isQueued s.queue)).Sublist [job] := List.filter_sublist
    have hsub := h.ordered.append hfilter
    rw [List.append_assoc,waiting,← List.filter_append] at hsub
    exact hsub
  · intro j
    have hle := h.counts j
    simp only [List.count_append]
    omega
  · intro j hj hex hhand
    have hlt := h.past j hj hex hhand
    simp only [List.count_append]
    omega

theorem Sound.remove (h : Sound none 0 s) (job : Job) : Sound none 0 (s.remove job) := by
  rw [PumpState.remove]
  split
  · refine Sound.call ?_ rfl
    have hsub : (s.queue.jobs.erase job).Sublist s.queue.jobs := List.erase_sublist
    refine ⟨h.pumps_eq,h.active_eq,h.started_iff,?_,h.once,?_,?_,?_⟩
    · exact ((hsub.filter _).append_left _).trans h.ordered
    · exact fun j => Nat.le_trans (hsub.count_le j) (h.counts j)
    · exact fun j hj hex hhand => Nat.lt_of_le_of_lt (hsub.count_le j) (h.past j hj hex hhand)
    · intro hactive hkicked
      have hnil := h.idle hactive hkicked
      exact List.sublist_nil.mp (hnil ▸ hsub.filter (isQueued s.queue))
  · exact h

theorem Sound.kick (h : Sound none 0 s) : Sound none 0 s.kick := by
  have hpumps := h.pumps_eq
  rw [PumpState.kick]
  split
  · rename_i hp
    refine ⟨h.pumps_eq,h.active_eq,h.started_iff,h.ordered,h.once,h.counts,h.past,?_⟩
    intro hactive
    exact absurd (h.active_eq.symm.trans hactive) (by rw [hp]; exact nofun)
  · rename_i hp
    refine @Sound.callPump _ _ _ none ?_ _ rfl nofun
    refine ⟨?_,rfl,h.started_iff,h.ordered,h.once,h.counts,h.past,nofun⟩
    rw [if_neg hp] at hpumps
    have hzero : s.pumps = 0 := hpumps
    change s.pumps + 1 = 1
    rw [hzero]

/-- The pump that is in hand is the only one. -/
theorem Sound.in_hand (h : Sound hand 1 s) : s.pumps = 0 ∧ s.queue.pumping = true := by
  have hpumps := h.pumps_eq
  split at hpumps
  · rename_i hp
    exact ⟨by omega,hp⟩
  · omega

/-- The job that is started is no longer queued; the others are as before. -/
theorem waiting_started {q : GenerationQueue Job} {job : Job} {rest : List Job}
    (hrest : q.jobs.filter (isQueued q) = job :: rest) :
    (q.jobs.filter (isQueued { q with
      status := fun j => if j = job then .running else q.status j })).Sublist rest := by
  have hqueued : isQueued { q with status := fun j => if j = job then .running else q.status j } =
      fun j => decide (j ≠ job) && isQueued q j := by
    funext j
    by_cases hj : j = job <;> simp [isQueued,hj]
  rw [hqueued,← List.filter_filter,hrest,List.filter_cons_of_neg (by simp)]
  exact List.filter_sublist

theorem Sound.pump (h : Sound none 1 s) : Sound none 0 (s.pump convId) := by
  obtain ⟨hzero,hp⟩ := h.in_hand
  have hhead : s.waiting.head? = s.queue.jobs.find? (isQueued s.queue) := List.head?_filter
  rw [PumpState.pump]
  split
  · rename_i hnone
    have hnil : s.waiting = [] := List.head?_eq_none_iff.mp (hhead.trans hnone)
    refine Sound.call ?_ rfl
    exact ⟨hzero,rfl,h.started_iff,h.ordered,h.once,h.counts,h.past,fun _ _ => hnil⟩
  · rename_i job hjob
    have hqueued : s.queue.status job = .queued := by simpa [isQueued] using List.find?_some hjob
    have hnew : job ∉ s.started := by
      rw [← h.started_iff,hqueued]
      exact nofun
    obtain ⟨rest,hrest⟩ := List.head?_eq_some_iff.mp (hhead.trans hjob)
    refine @Sound.callPump _ _ _ (some job) ?_ _ rfl (fun _ heq => heq)
    refine ⟨h.pumps_eq,h.active_eq,?_,?_,?_,h.counts,?_,?_⟩
    · intro j
      simp only [List.mem_append,List.mem_singleton]
      by_cases hj : j = job
      · simp [hj]
      · simp [hj,h.started_iff]
    · have hsub := (waiting_started hrest).append_left (s.started ++ [job])
      have hordered := h.ordered
      rw [hrest,List.append_cons] at hordered
      exact hsub.trans hordered
    · refine List.nodup_append.mpr ⟨h.once,List.nodup_singleton _,?_⟩
      rintro a ha b hb rfl
      rw [List.mem_singleton.mp hb] at ha
      exact hnew ha
    · intro j hj hex hhand
      rcases List.mem_append.mp hj with hj | hj
      · exact h.past j hj hex nofun
      · rw [List.mem_singleton.mp hj] at hhand
        exact absurd rfl hhand
    · intro hactive
      exact absurd (h.active_eq.symm.trans hactive) (by rw [hp]; exact nofun)

theorem Sound.finish {job : Job} (h : Sound (some job) 1 s) : Sound none 0 (s.finish job) := by
  obtain ⟨hzero,hp⟩ := h.in_hand
  refine @Sound.callPump _ _ _ none ?_ _ rfl nofun
  have hsub : (s.queue.jobs.erase job).Sublist s.queue.jobs := List.erase_sublist
  refine ⟨h.pumps_eq,h.active_eq,h.started_iff,?_,h.once,?_,?_,?_⟩
  · exact ((hsub.filter _).append_left _).trans h.ordered
  · exact fun j => Nat.le_trans (hsub.count_le j) (h.counts j)
  · intro j hj hex _
    by_cases heq : j = job
    · have hmem : j ∈ s.enqueued :=
        h.ordered.subset (List.mem_append_left _ hj)
      have hpos := List.count_pos_iff.mpr hmem
      have hcount := h.counts j
      rw [heq] at hpos hcount ⊢
      simp only [List.count_erase_self]
      omega
    · refine Nat.lt_of_le_of_lt (hsub.count_le j) (h.past j hj hex ?_)
      exact fun hsome => heq (Option.some.inj hsome).symm
  · intro hactive
    exact absurd (h.active_eq.symm.trans hactive) (by rw [hp]; exact nofun)

/-! ## Steps and runs -/

theorem Sound.resume (h : Sound none 0 s) {f : Frame Job} {stack : List (Frame Job)}
    (hs : s.stack = f :: stack) : Sound none 0 ({ s with stack := stack }.resume convId f) := by
  have hpop := h.pop hs
  cases f with
  | enqueued kick =>
    cases kick with
    | true => exact Sound.kick hpop
    | false => exact hpop
  | removed => exact hpop
  | stopped => exact hpop
  | kicked => exact Sound.pump hpop
  | finished => exact Sound.pump hpop
  | starting job => exact Sound.callPump hpop rfl (fun _ heq => heq)
  | runner job =>
    have hzero := hpop.in_hand.1
    have hnone : s.awaited = none := by
      cases ha : s.awaited with
      | none => rfl
      | some j =>
        rw [pumps,ha] at hzero
        exact absurd hzero (Nat.succ_ne_zero _)
    refine ⟨?_,hpop.active_eq,hpop.started_iff,hpop.ordered,hpop.once,hpop.counts,?_,hpop.idle⟩
    · have hpumps := hpop.pumps_eq
      rw [pumps,hnone] at hpumps
      exact hpumps
    · intro j hj hex _
      have hmem (i : Job) : i ∈ ({ s with stack := stack, awaited := some job } :
          PumpState Job).executing ↔ i ∈ stack.filterMap frameJob ∨ i = job := by
        simp [executing]
      refine hpop.past j hj ?_ ?_
      · intro hin
        rw [executing,hnone] at hin
        refine hex ((hmem j).mpr (.inl ?_))
        simpa using hin
      · intro heq
        exact hex ((hmem j).mpr (.inr (Option.some.inj heq).symm))

theorem Sound.awaited (h : Sound none 0 s) {job : Job} (ha : s.awaited = some job) :
    Sound (some job) 1 { s with awaited := none } := by
  refine ⟨?_,h.active_eq,h.started_iff,h.ordered,h.once,h.counts,?_,h.idle⟩
  · have hpumps := h.pumps_eq
    rw [pumps,ha] at hpumps
    exact hpumps
  · intro j hj hex hhand
    refine h.past j hj ?_ nofun
    intro hin
    rw [executing,ha] at hin
    rcases List.mem_append.mp hin with hin | hin
    · exact hex (List.mem_append_left _ hin)
    · exact hhand (congrArg some (List.mem_singleton.mp hin).symm)

theorem Sound.next (h : Sound none 0 s) {e : PumpEvent Job} (he : s.Enabled e) :
    Sound none 0 (s.next convId e) := by
  cases e with
  | enqueue job kick => exact h.enqueue job kick
  | remove job => exact h.remove job
  | kick => exact h.kick
  | cancelRunning =>
    exact ⟨h.pumps_eq,h.active_eq,h.started_iff,h.ordered,h.once,h.counts,h.past,h.idle⟩
  | returns =>
    obtain ⟨f,stack,hs,-⟩ := he
    rw [PumpState.next,hs]
    exact h.resume hs
  | suspend =>
    obtain ⟨job,stack,hs⟩ := he
    rw [PumpState.next,hs]
    exact h.resume hs
  | complete failed =>
    rcases he with ⟨job,stack,hs⟩ | ⟨hs,hsome⟩
    · rw [PumpState.next,hs]
      exact Sound.finish (h.pop hs)
    · obtain ⟨job,ha⟩ := Option.isSome_iff_exists.mp hsome
      have hnext : s.next convId (.complete failed) = { s with awaited := none }.finish job := by
        simp only [PumpState.next,hs,ha]
      rw [hnext]
      exact Sound.finish (h.awaited ha)

theorem pump_startsFirst (s : PumpState Job) : StartsFirst s (s.pump convId) := by
  have hhead : s.waiting.head? = s.queue.jobs.find? (isQueued s.queue) := List.head?_filter
  rw [PumpState.pump]
  split
  · exact .inl rfl
  · rename_i job hjob
    exact .inr ⟨job,hhead.trans hjob,rfl⟩

omit [DecidableEq Job] in
theorem kick_started (s : PumpState Job) : s.kick.started = s.started := by
  rw [PumpState.kick]
  split <;> rfl

theorem resume_startsFirst (s : PumpState Job) (f : Frame Job) :
    StartsFirst s (s.resume convId f) := by
  cases f with
  | enqueued kick =>
    cases kick with
    | true => exact .inl (kick_started s)
    | false => exact .inl rfl
  | removed => exact .inl rfl
  | stopped => exact .inl rfl
  | kicked => exact pump_startsFirst s
  | finished => exact pump_startsFirst s
  | starting job => exact .inl rfl
  | runner job => exact .inl rfl

theorem next_startsFirst (s : PumpState Job) (e : PumpEvent Job) :
    StartsFirst s (s.next convId e) := by
  have hreturn : StartsFirst s (match s.stack with
      | [] => s
      | f :: stack => { s with stack := stack }.resume convId f) := by
    split
    · exact .inl rfl
    · exact resume_startsFirst { s with stack := _ } _
  cases e with
  | enqueue job kick => exact .inl rfl
  | remove job =>
    rw [PumpState.next,PumpState.remove]
    split <;> exact .inl rfl
  | kick => exact .inl (kick_started s)
  | cancelRunning => exact .inl rfl
  | returns => exact hreturn
  | suspend => exact hreturn
  | complete failed =>
    rw [PumpState.next]
    split
    · exact .inl rfl
    · split <;> exact .inl rfl

/-- A second job comes in while the first kick is told of, and a third kick when the pump has
stopped. -/
def reentrant : List (PumpEvent ℕ) :=
  [.enqueue 1 true,.returns,.enqueue 2 false,.returns,.returns,.returns,.suspend,.cancelRunning,
    .complete true,.returns,.returns,.complete false,.returns,.kick,.returns,.returns,.returns]

example : ((machine toString).exec {} reentrant).started = [1,2] ∧
    ((machine toString).exec {} reentrant).queue.active = false := by decide

end PumpState
end Rullama.Native.Generation
