import Rullama.Tools.Monitor
import Mathlib.Data.Int.Notation

/-! # Stopping a monitored process

The handle of the child is in a mutex. `monitor_stop` takes it out to kill the child; the pump
takes it out when both streams have ended, and keeps the mutex locked while it waits for the
child. A stream ends when it is closed or has a line that is not text, which a running child can
bring about.
-/
namespace Rullama.Monitor
open Transition (Machine)

inductive ChildState where
  | running
  | killed
  | exited (exitCode : Option ℤ)
deriving DecidableEq

structure FinalStatus where
  exitCode : Option ℤ
  killed : Bool
deriving DecidableEq

inductive StatusReport where
  | running
  | killed (exitCode : Option ℤ)
  | exitedOk (exitCode : ℤ)
  | exitedError (exitCode : ℤ)
  | exitedUnknown
deriving DecidableEq

def describeStatus : Option FinalStatus → StatusReport
  | some ⟨exitCode,true⟩ => .killed exitCode
  | some ⟨some code,false⟩ => if code = 0 then .exitedOk code else .exitedError code
  | some ⟨none,false⟩ => .exitedUnknown
  | none => .running

inductive DrainStage where
  | draining
  /-- `child.wait()`, with the handle and the lock -/
  | waiting
  | done
deriving DecidableEq

/-- How far a call of `monitor_stop` is. -/
inductive StopStage where
  | new
  | unknownId
  | found
  /-- the child is killed, the status is not set yet -/
  | holding
  | unlocked (killed : Bool)
  | done (status : StatusReport)
deriving DecidableEq

inductive LockHolder (κ : Type*) where
  | pump
  | stop (k : κ)

structure Watched (κ : Type*) where
  child : ChildState
  reader : LineStream → Bool
  handle : Bool
  lock : Option (LockHolder κ)
  pump : DrainStage
  finalStatus : Option FinalStatus
  issued : Bool
  registered : Bool
  stage : κ → StopStage

inductive WatchEvent (κ : Type*) where
  /-- `monitor_start` registers the process and returns its id -/
  | register
  | endOfFile (stream : LineStream)
  | exit (exitCode : Option ℤ)
  | lockForWait
  | reaped
  | waitFailed
  | find (k : κ)
  | obtain (k : κ)
  | setStatus (k : κ)
  | finish (k : κ)

variable {κ : Type*} [DecidableEq κ]

namespace Watched

/-- The child has been spawned. -/
def start : Watched κ where
  child := .running
  reader _ := true
  handle := true
  lock := none
  pump := .draining
  finalStatus := none
  issued := false
  registered := false
  stage _ := .new

variable (s : Watched κ) (k : κ)

def exitCode : Option ℤ :=
  match s.child with
  | .exited exitCode => exitCode
  | _ => none

def staged (stage : StopStage) : Watched κ := { s with stage := Function.update s.stage k stage }

def lockForWait : Watched κ :=
  if s.handle then { s with handle := false, lock := some .pump, pump := .waiting }
  else { s with pump := .done }

/-- The pump records the status and ends, which releases the lock. -/
def recordExit (exitCode : Option ℤ) : Watched κ :=
  { s with finalStatus := some ⟨exitCode,false⟩, lock := none, pump := .done }

def find : Watched κ := s.staged k (if s.registered then .found else .unknownId)

/-- `start_kill` does nothing to a child that has exited. -/
def startKill : ChildState := if s.child = .running then .killed else s.child

def obtain : Watched κ :=
  if s.handle then
    { s.staged k .holding with handle := false, child := s.startKill, lock := some (.stop k) }
  else s.staged k (.unlocked false)

def setStatus : Watched κ :=
  { s.staged k (.unlocked true) with finalStatus := some ⟨none,true⟩, lock := none }

def finish : Watched κ :=
  { s.staged k (.done (describeStatus s.finalStatus)) with registered := false }

end Watched

def StopStage.IsUnlocked : StopStage → Prop
  | .unlocked _ => True
  | _ => False

instance : (stage : StopStage) → Decidable stage.IsUnlocked
  | .unlocked _ => isTrue trivial
  | .new | .unknownId | .found | .holding | .done _ => isFalse id

def ChildState.IsExited : ChildState → Prop
  | .exited _ => True
  | _ => False

instance : (child : ChildState) → Decidable child.IsExited
  | .exited _ => isTrue trivial
  | .running | .killed => isFalse id

def watched : Machine (Watched κ) (WatchEvent κ) where
  enabled s
    | .register => s.issued = false
    | .endOfFile stream => s.reader stream = true
    | .exit _ => ¬ s.child.IsExited
    | .lockForWait => s.pump = .draining ∧ s.lock.isNone ∧ s.reader .stdout = false ∧
        s.reader .stderr = false
    | .reaped => s.pump = .waiting ∧ s.child.IsExited
    | .waitFailed => s.pump = .waiting
    | .find k => s.issued = true ∧ s.stage k = .new
    | .obtain k => s.lock.isNone ∧ s.stage k = .found
    | .setStatus k => s.stage k = .holding
    | .finish k => (s.stage k).IsUnlocked
  next s
    | .register => { s with issued := true, registered := true }
    | .endOfFile stream => { s with reader := Function.update s.reader stream false }
    | .exit exitCode => { s with child := .exited exitCode }
    | .lockForWait => s.lockForWait
    | .reaped => s.recordExit s.exitCode
    | .waitFailed => s.recordExit none
    | .find k => s.find k
    | .obtain k => s.obtain k
    | .setStatus k => s.setStatus k
    | .finish k => s.finish k

instance (s : Watched κ) : (e : WatchEvent κ) → Decidable (watched.enabled s e)
  | .register => inferInstanceAs (Decidable (s.issued = false))
  | .endOfFile stream => inferInstanceAs (Decidable (s.reader stream = true))
  | .exit _ => inferInstanceAs (Decidable (¬ s.child.IsExited))
  | .lockForWait => inferInstanceAs (Decidable (s.pump = .draining ∧ s.lock.isNone ∧
      s.reader .stdout = false ∧ s.reader .stderr = false))
  | .reaped => inferInstanceAs (Decidable (s.pump = .waiting ∧ s.child.IsExited))
  | .waitFailed => inferInstanceAs (Decidable (s.pump = .waiting))
  | .find k => inferInstanceAs (Decidable (s.issued = true ∧ s.stage k = .new))
  | .obtain k => inferInstanceAs (Decidable (s.lock.isNone ∧ s.stage k = .found))
  | .setStatus k => inferInstanceAs (Decidable (s.stage k = .holding))
  | .finish k => inferInstanceAs (Decidable (s.stage k).IsUnlocked)

/-- While the child is alive its id is registered, its handle can be had and nobody has the lock,
so that no call of `monitor_stop` is blocked. -/
structure Stoppable (s : Watched κ) : Prop where
  registered : s.child = .running → s.issued = true → s.registered = true
  handle : s.child = .running → s.handle = true
  unlocked : s.child = .running → s.lock = none

/-- A call of `monitor_stop` finds a child that is alive and kills it, and a call that had the
handle says so. -/
def Stops (s : Watched κ) : WatchEvent κ → Prop
  | .find k => s.child = .running → (s.find k).stage k = .found
  | .obtain k => s.child = .running → (s.obtain k).child = .killed
  | .finish k => s.stage k = .unlocked true → (s.finish k).stage k = .done (.killed none)
  | _ => True

/-- The pump only waits for a child that is not alive any more. -/
def WaitsForDead (s : Watched κ) : WatchEvent κ → Prop
  | .lockForWait => s.child ≠ .running
  | _ => True

instance (s : Watched κ) : (e : WatchEvent κ) → Decidable (WaitsForDead s e)
  | .lockForWait => inferInstanceAs (Decidable (s.child ≠ .running))
  | .register | .endOfFile _ | .exit _ | .reaped | .waitFailed | .find _ | .obtain _
  | .setStatus _ | .finish _ => isTrue trivial

/-- The call has taken the handle, and has not answered yet. -/
def StopStage.Took (stage : StopStage) : Prop := stage = .holding ∨ stage = .unlocked true

/-- The call has had the lock. -/
def StopStage.Passed : StopStage → Prop
  | .holding | .unlocked _ | .done _ => True
  | _ => False

/-- At most one has the handle, and the pump does not write over the status of a call that
killed the child. -/
structure Exclusive (s : Watched κ) : Prop where
  pump : s.pump = .waiting → s.handle = false ∧ ∀ k, ¬ (s.stage k).Took
  untaken : s.handle = true → ∀ k, ¬ (s.stage k).Took
  status : ∀ k, s.stage k = .unlocked true → s.finalStatus = some ⟨none,true⟩

structure Guarded (s : Watched κ) : Prop extends Stoppable s, Exclusive s where
  passed : ∀ k, (s.stage k).Passed → s.child ≠ .running

variable {s t : Watched κ} {e : WatchEvent κ} {k : κ}

/-! ## Steps -/

theorem Watched.stage_staged (s : Watched κ) (k j : κ) (stage : StopStage) :
    (s.staged k stage).stage j = if j = k then stage else s.stage j :=
  Function.update_apply s.stage k stage j

theorem Watched.took_staged {j : κ} {stage : StopStage} (hstage : ¬ stage.Took)
    (h : ((s.staged k stage).stage j).Took) : (s.stage j).Took := by
  rw [Watched.stage_staged] at h
  split at h
  · exact (hstage h).elim
  · exact h

theorem Exclusive.staged {stage : StopStage} (h : Exclusive s) (hstage : ¬ stage.Took) :
    Exclusive (s.staged k stage) where
  pump hpump := ⟨(h.pump hpump).1,
    fun j hj => (h.pump hpump).2 j (Watched.took_staged hstage hj)⟩
  untaken hhandle j hj := h.untaken hhandle j (Watched.took_staged hstage hj)
  status j hj := h.status j (by
    rw [Watched.stage_staged] at hj
    split at hj
    · exact (hstage (.inr hj)).elim
    · exact hj)

omit [DecidableEq κ] in
theorem Exclusive.lockForWait (h : Exclusive s) : Exclusive s.lockForWait := by
  rw [Watched.lockForWait]
  split
  case isTrue hhandle =>
    refine ⟨fun _ => ⟨rfl,h.untaken hhandle⟩,?_,h.status⟩
    intro hfalse
    cases hfalse
  case isFalse =>
    refine ⟨?_,h.untaken,h.status⟩
    intro hdone
    cases hdone

omit [DecidableEq κ] in
theorem Exclusive.recordExit (h : Exclusive s) (hpump : s.pump = .waiting)
    (exitCode : Option ℤ) : Exclusive (s.recordExit exitCode) where
  pump hdone := by cases hdone
  untaken := h.untaken
  status k hk := ((h.pump hpump).2 k (.inr hk)).elim

theorem Exclusive.obtain (h : Exclusive s) (k : κ) : Exclusive (s.obtain k) := by
  rw [Watched.obtain]
  split
  case isFalse => exact h.staged (by simp [StopStage.Took])
  case isTrue hhandle =>
    refine ⟨fun hpump => ?_,fun hfalse => ?_,fun j hj => ?_⟩
    · have hnone := (h.pump hpump).1
      rw [hhandle] at hnone
      cases hnone
    · cases hfalse
    · change (s.staged k .holding).stage j = _ at hj
      rw [Watched.stage_staged] at hj
      split at hj
      · cases hj
      · exact h.status j hj

theorem Exclusive.setStatus (h : Exclusive s) (hk : s.stage k = .holding) :
    Exclusive (s.setStatus k) where
  pump hpump := ((h.pump hpump).2 k (.inl hk)).elim
  untaken hhandle := (h.untaken hhandle k (.inl hk)).elim
  status _ _ := rfl

theorem Exclusive.finish (h : Exclusive s) (k : κ) : Exclusive (s.finish k) := by
  have hstaged : Exclusive (s.staged k (.done (describeStatus s.finalStatus))) :=
    h.staged (by simp [StopStage.Took])
  exact ⟨hstaged.pump,hstaged.untaken,hstaged.status⟩

theorem Exclusive.next (h : Exclusive s) (he : watched.enabled s e) :
    Exclusive (watched.next s e) := by
  cases e with
  | register | endOfFile | exit => exact ⟨h.pump,h.untaken,h.status⟩
  | lockForWait => exact h.lockForWait
  | reaped => exact h.recordExit he.1 s.exitCode
  | waitFailed => exact h.recordExit he none
  | find k => exact h.staged (by split <;> simp [StopStage.Took])
  | obtain k => exact h.obtain k
  | setStatus k => exact h.setStatus he
  | finish k => exact h.finish k

omit [DecidableEq κ] in
theorem guarded_start : Guarded (.start : Watched κ) where
  registered _ h := by cases h
  handle _ := rfl
  unlocked _ := rfl
  pump h := by cases h
  untaken _ k := by simp [Watched.start,StopStage.Took]
  status k h := by cases h
  passed k h := h.elim

omit [DecidableEq κ] in
/-- Nothing is asked once the child is not alive. -/
theorem Exclusive.guarded (h : Exclusive s) (hdead : s.child ≠ .running) : Guarded s where
  toExclusive := h
  registered hrunning := (hdead hrunning).elim
  handle hrunning := (hdead hrunning).elim
  unlocked hrunning := (hdead hrunning).elim
  passed _ _ := hdead

omit [DecidableEq κ] in
theorem Watched.startKill_ne (s : Watched κ) : s.startKill ≠ .running := by
  rw [Watched.startKill]
  split
  case isTrue => exact ChildState.noConfusion
  case isFalse h => exact h

omit [DecidableEq κ] in
theorem Stoppable.dead (h : Stoppable s) (hhandle : s.handle ≠ true) : s.child ≠ .running :=
  fun hrunning => hhandle (h.handle hrunning)

omit [DecidableEq κ] in
theorem Guarded.dead_of_waiting (h : Guarded s) (hpump : s.pump = .waiting) :
    s.child ≠ .running :=
  h.dead (by rw [(h.pump hpump).1]; exact Bool.false_ne_true)

theorem Watched.child_obtain (h : Stoppable s) (k : κ) : (s.obtain k).child ≠ .running := by
  rw [Watched.obtain]
  split
  case isTrue => exact s.startKill_ne
  case isFalse hhandle => exact h.dead hhandle

theorem Guarded.next (h : Guarded s) (he : watched.enabled s e) (hw : WaitsForDead s e) :
    Guarded (watched.next s e) := by
  have hx : Exclusive (watched.next s e) := h.toExclusive.next he
  cases e with
  | register => exact ⟨⟨fun _ _ => rfl,h.handle,h.unlocked⟩,hx,h.passed⟩
  | endOfFile stream => exact ⟨⟨h.registered,h.handle,h.unlocked⟩,hx,h.passed⟩
  | exit exitCode => exact hx.guarded ChildState.noConfusion
  | lockForWait =>
    refine hx.guarded ?_
    have hchild : (watched.next s .lockForWait).child = s.child := by
      change s.lockForWait.child = _
      rw [Watched.lockForWait]
      split <;> rfl
    exact hchild ▸ hw
  | reaped => exact hx.guarded (h.dead_of_waiting he.1)
  | waitFailed => exact hx.guarded (h.dead_of_waiting he)
  | find k =>
    refine ⟨⟨h.registered,h.handle,h.unlocked⟩,hx,fun j hj => h.passed j ?_⟩
    change ((s.find k).stage j).Passed at hj
    rw [Watched.find,Watched.stage_staged] at hj
    split at hj
    · split at hj <;> exact hj.elim
    · exact hj
  | obtain k => exact hx.guarded (Watched.child_obtain h.toStoppable k)
  | setStatus k => exact hx.guarded (h.passed k (by rw [he]; trivial))
  | finish k =>
    refine hx.guarded (h.passed k ?_)
    cases hk : s.stage k with
    | unlocked => trivial
    | new | unknownId | found | holding | done => simp [watched,hk,StopStage.IsUnlocked] at he

theorem Guarded.stops (h : Guarded s) (e : WatchEvent κ) (he : watched.enabled s e) :
    Stops s e := by
  cases e with
  | find k =>
    intro hrunning
    have hregistered := h.registered hrunning he.1
    rw [Watched.find,Watched.stage_staged,if_pos rfl,if_pos hregistered]
  | obtain k =>
    intro hrunning
    have hhandle := h.handle hrunning
    rw [Watched.obtain,if_pos hhandle]
    exact if_pos hrunning
  | finish k =>
    intro hk
    have hstage : (s.finish k).stage k = .done (describeStatus s.finalStatus) :=
      Function.update_self ..
    rw [hstage,h.status k hk]
    rfl
  | _ => trivial

/-- Waiting for a child that is alive takes its handle away. -/
theorem not_stoppable_lockForWait (h : Guarded s) (hrunning : s.child = .running) :
    ¬ Stoppable (watched.next s .lockForWait) := by
  intro hstop
  change Stoppable s.lockForWait at hstop
  rw [Watched.lockForWait,if_pos (h.handle hrunning)] at hstop
  have hhandle := hstop.handle hrunning
  cases hhandle

/-! ## Runs -/

/-- In every order of steps, with whatever number of calls, a child that is alive can be stopped
exactly as long as the pump only takes the handle of a child that is not. -/
theorem run_stoppable_iff {es : List (WatchEvent κ)} (hr : watched.Run .start es) :
    (∀ p ∈ watched.trail .start es, Stops p.1 p.2 ∧ Stoppable (watched.next p.1 p.2)) ↔
      ∀ p ∈ watched.trail .start es, WaitsForDead p.1 p.2 := by
  refine hr.forall_iff (G := Guarded)
    (P := fun s e => Stops s e ∧ Stoppable (watched.next s e)) ?_ ?_ guarded_start
  · intro s e h he hw
    exact h.next he hw
  · intro s e h he
    refine ⟨fun hp => ?_,fun hw => ⟨h.stops e he,(h.next he hw).toStoppable⟩⟩
    cases e with
    | lockForWait => exact fun hrunning => not_stoppable_lockForWait h hrunning hp.2
    | _ => trivial

/-- Two calls race for a child whose streams have ended in between. -/
def stoppedRun : List (WatchEvent ℕ) :=
  [.register, .endOfFile .stdout, .find 0, .find 1, .endOfFile .stderr, .obtain 1, .setStatus 1,
    .obtain 0, .finish 1, .lockForWait, .exit none, .finish 0]

theorem stoppedRun_stoppable : watched.Run .start stoppedRun ∧
    ∀ p ∈ watched.trail .start stoppedRun,
      Stops p.1 p.2 ∧ Stoppable (watched.next p.1 p.2) := by
  have hr : watched.Run .start stoppedRun := by decide +kernel
  exact ⟨hr,(run_stoppable_iff hr).mpr (by decide +kernel)⟩

/-- The child closes both streams and runs on. -/
def closedRun : List (WatchEvent ℕ) :=
  [.register, .endOfFile .stdout, .endOfFile .stderr, .lockForWait]

theorem closedRun_unstoppable : ¬ ∀ es : List (WatchEvent ℕ), watched.Run .start es →
    ∀ p ∈ watched.trail .start es, Stops p.1 p.2 ∧ Stoppable (watched.next p.1 p.2) := by
  intro h
  have hstep := h closedRun (by decide +kernel)
    (watched.exec .start [.register, .endOfFile .stdout, .endOfFile .stderr],.lockForWait)
    (.tail _ (.tail _ (.tail _ (.head _))))
  have hhandle := hstep.2.handle rfl
  cases hhandle

end Rullama.Monitor
