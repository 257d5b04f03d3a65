import Mathlib.Data.Int.Notation
import Rullama.Transition.Machine

/-! # Session arbitration

The variables `active`, `nextSid` and `queue` of the SharedWorker router and the
functions that change them. A waiter stands for the `resolve` and `reject` of one
acquire promise; the history is a ghost log of their calls and of every
`active = null`, oldest first.
-/
namespace Rullama.Router

/-- Identity of the `MessagePort` object of one tab. -/
abbrev Port := ℕ

/-- `raw.sid` as tabs send it. -/
inductive SidArg where
  | undefined
  | null
  | number (n : ℕ)
  deriving DecidableEq, Repr

/-- `Number(sid)`, with `none` for `NaN`. -/
def SidArg.toNumber : SidArg → Option ℕ
  | .undefined => none
  | .null => some 0
  | .number n => some n

structure ActiveSession where
  sid : ℕ
  port : Port
  deriving DecidableEq, Repr

/-- `promise` numbers the acquire promises in the order of their creation;
`requestId` is what the handler that awaits the promise replies under. -/
structure Waiter where
  port : Port
  abortToken : String
  requestId : ℤ
  promise : ℕ
  deriving DecidableEq, Repr

inductive Record where
  | granted (w : Waiter) (sid : ℕ)
  | rejected (w : Waiter) (error : String)
  | ended (sid : ℕ)
  deriving DecidableEq, Repr

structure Arbiter where
  active : Option ActiveSession
  nextSid : ℕ
  queue : List Waiter
  nextPromise : ℕ
  history : List Record
  deriving DecidableEq, Repr

namespace Arbiter

def initial : Arbiter := ⟨none,1,[],0,[]⟩

/-- `active = { sid: ++nextSid, port }; resolve(active.sid)`. -/
def grant (s : Arbiter) (w : Waiter) : Arbiter :=
  { s with
    active := some ⟨s.nextSid + 1,w.port⟩
    nextSid := s.nextSid + 1
    history := s.history ++ [.granted w (s.nextSid + 1)] }

/-- `active = null`, for the session `a` that was active. -/
def clear (s : Arbiter) (a : ActiveSession) : Arbiter :=
  { s with active := none, history := s.history ++ [.ended a.sid] }

def acquireSession (s : Arbiter) (abortToken : String) (port : Port) (requestId : ℤ) : Arbiter :=
  let w : Waiter := ⟨port,abortToken,requestId,s.nextPromise⟩
  let s := { s with nextPromise := s.nextPromise + 1 }
  match s.active with
  | none => s.grant w
  | some _ => { s with queue := s.queue ++ [w] }

def wakeNext (s : Arbiter) : Arbiter :=
  match s.active, s.queue with
  | some _, _ => s
  | none, [] => s
  | none, w :: rest => { s with queue := rest }.grant w

/-- The boolean is the value the function returns. -/
def releaseSession (s : Arbiter) (sid : Option ℕ) (port : Port) : Arbiter × Bool :=
  match s.active with
  | none => (s,false)
  | some a => if some a.sid ≠ sid ∨ a.port ≠ port then (s,false) else ((s.clear a).wakeNext,true)

/-- Only the first waiter with the token leaves the queue. -/
def cancelAcquire (s : Arbiter) (abortToken : String) : Arbiter × Bool :=
  match s.queue.find? (fun w => w.abortToken == abortToken) with
  | none => (s,false)
  | some w =>
    ({ s with
      queue := s.queue.eraseP (fun w => w.abortToken == abortToken)
      history := s.history ++ [.rejected w "aborted"] },true)

/-- The backward loop of `disconnectPort` over the queue: what stays, and the
rejections in the order they are made. -/
def purge (port : Port) : List Waiter → List Waiter × List Record
  | [] => ([],[])
  | w :: rest =>
    let later := purge port rest
    if w.port = port then (later.1,later.2 ++ [.rejected w "port disconnected"])
    else (w :: later.1,later.2)

/-- The part of `disconnectPort` that concerns the session: the holder's session
is handed on first, the queue is purged after. -/
def disconnect (s : Arbiter) (port : Port) : Arbiter :=
  let s := match s.active with
    | some a => if a.port = port then (s.clear a).wakeNext else s
    | none => s
  { s with
    queue := (purge port s.queue).1
    history := s.history ++ (purge port s.queue).2 }

def checkSession (s : Arbiter) (port : Port) (sid : SidArg) : Option String :=
  let n := sid.toNumber
  match s.active with
  | none => some "no active session"
  | some a =>
    if some a.sid ≠ n then
      let called := (n.map toString).getD "NaN"
      some s!"session mismatch: held={a.sid} called={called}"
    else if a.port ≠ port then some "session not owned by this port"
    else none

theorem checkSession_eq_none {s : Arbiter} {port : Port} {sid : SidArg} :
    s.checkSession port sid = none ↔ ∃ n, sid.toNumber = some n ∧ s.active = some ⟨n,port⟩ := by
  unfold checkSession
  cases ha : s.active with
  | none => simp
  | some a =>
    obtain ⟨held,owner⟩ := a
    by_cases hsid : some held = sid.toNumber
    · by_cases hport : owner = port
      · simp [← hsid,hport]
      · simp [← hsid,hport]
    · have hne : ∀ n, sid.toNumber = some n → held ≠ n := by
        rintro n hn rfl
        exact hsid hn.symm
      simp only [ne_eq,hsid,not_false_eq_true,↓reduceIte,reduceCtorEq,Option.some.injEq,
        ActiveSession.mk.injEq,false_iff,not_exists,not_and]
      intro n hn he
      exact absurd he (hne n hn)

@[simp] theorem purge_queue (port : Port) (queue : List Waiter) :
    (purge port queue).1 = queue.filter (fun w => w.port ≠ port) := by
  induction queue with
  | nil => rfl
  | cons w rest ih => by_cases h : w.port = port <;> simp [purge,h,ih]

@[simp] theorem purge_records (port : Port) (queue : List Waiter) :
    (purge port queue).2 =
      ((queue.filter (fun w => w.port = port)).map (fun w => .rejected w "port disconnected")).reverse := by
  induction queue with
  | nil => rfl
  | cons w rest ih => by_cases h : w.port = port <;> simp [purge,h,ih]

end Arbiter
end Rullama.Router
