import Mathlib.Data.List.Infix
import Rullama.Router.Tokens

/-! # WorkerClient

One tab's side of the port: the `pending` map, acquire promises, the session, the core
worker it hosts and the `coreReady` promise. Every step returns the messages it posts to
the router, in order.
-/
namespace Rullama.Client
open Router

/-- The `signal` of one `acquireSession` call; `fired` once its listener has run. -/
inductive Signal where
  | none
  | aborted
  | live
  | fired
  deriving DecidableEq, Repr

/-- One call of `acquireSession` and what its promise was settled with. -/
structure AcquireCall where
  abortToken : String
  requestId : ℤ
  signal : Signal
  outcome : Option (Except String ℕ)

/-- A message from the router, stamped with how many cores had been started when it was
posted. -/
structure Delivery where
  epoch : ℕ
  effect : Effect
  message : ToTab
  deriving DecidableEq

/-- What the entry of `pending` does with a reply. For an RPC of `rpcOnce`, `after` is
`none` while `retried` is false; a retry carries the rejection it follows. -/
inductive Pending where
  | acquire
  | rpc (request : Request) (after : Option Delivery)
  | attach
  deriving DecidableEq

/-- A message to the router; `after` as in `Pending.rpc`. -/
structure Send where
  message : Message
  after : Option Delivery
  deriving DecidableEq

/-- `ready` says whether the current `coreReady` promise is resolved; `waiting` are the
retries that wait for it, with the rejections they follow. -/
structure WorkerClient where
  nextId : ℤ
  pending : List (ℤ × Pending)
  calls : List AcquireCall
  session : Option ℕ
  coreWorker : Bool
  ready : Bool
  waiting : List (Request × Delivery)

namespace WorkerClient

def initial : WorkerClient := ⟨1,[],[],none,false,false,[]⟩

/-- `Number(v)` for the result of an acquire. -/
def toSid : Result → ℕ
  | .sid n => n
  | .bool b => b.toNat
  | _ => 0

def rpcOnce (c : WorkerClient) (request : Request) (after : Option Delivery) :
    WorkerClient × List Send :=
  ({ c with nextId := c.nextId + 1, pending := c.pending ++ [(c.nextId,.rpc request after)] },
    [⟨⟨c.nextId,request⟩,after⟩])

/-- A message under requestId -1, whose reply finds no entry in `pending`. -/
def notice (request : Request) : Send := ⟨⟨-1,request⟩,none⟩

/-- `constructs` says whether the constructor of the worker returns. -/
def spawnCore (c : WorkerClient) (constructs : Bool) : WorkerClient × List Send :=
  if c.coreWorker || !constructs then (c,[])
  else
    ({ c with
      coreWorker := true
      nextId := c.nextId + 1
      pending := c.pending ++ [(c.nextId,.attach)] },
      [⟨⟨c.nextId,.attachCore true⟩,none⟩])

def acquireSession (c : WorkerClient) (abortToken : String) (signal : Signal) :
    WorkerClient × List Send :=
  let requestId := c.nextId
  let outcome := if signal = .aborted then some (.error "aborted") else none
  ({ c with
    nextId := requestId + 1
    pending := c.pending ++ [(requestId,.acquire)]
    calls := c.calls ++ [⟨abortToken,requestId,signal,outcome⟩] },
    ⟨⟨requestId,.acquireSession (some abortToken)⟩,none⟩ ::
      if signal = .aborted then [notice (.cancelAcquire (some abortToken))] else [])

/-- The abort listener of one acquire call, which runs once. -/
def onAbort (c : WorkerClient) (requestId : ℤ) : WorkerClient × List Send :=
  let listens := fun k : AcquireCall => decide (k.requestId = requestId ∧ k.signal = .live)
  match c.calls.find? listens with
  | none => (c,[])
  | some k =>
    ({ c with calls := c.calls.map (fun k => if listens k then { k with signal := .fired } else k) },
      [notice (.cancelAcquire (some k.abortToken))])

def releaseSession (c : WorkerClient) : WorkerClient × List Send :=
  match c.session with
  | none => (c,[])
  | some sid => { c with session := none }.rpcOnce (.releaseSession (.number sid)) none

def teardownCore (c : WorkerClient) : WorkerClient × List Send :=
  ({ c with coreWorker := false },[notice .teardownCore])

def onLeave (c : WorkerClient) : WorkerClient × List Send :=
  ({ c with coreWorker := false },[notice .disconnect])

/-- Settling an acquire promise does nothing the second time; the continuation of a
resolved one records the session. -/
def settleAcquire (c : WorkerClient) (requestId : ℤ) (outcome : Except String ℕ) : WorkerClient :=
  let isOpen := fun k : AcquireCall => decide (k.requestId = requestId) && k.outcome.isNone
  { c with
    calls := c.calls.map (fun k => if isOpen k then { k with outcome := some outcome } else k)
    session := match outcome with
      | .ok sid => if c.calls.any isOpen then some sid else c.session
      | .error _ => c.session }

/-- `/core disconnected/.test(message)`. -/
def mentionsLoss (error : String) : Bool :=
  decide ("core disconnected".toList <:+: error.toList)

/-- `rpcOnce(type, args, true)` for every retry of the list, in order. -/
def retryAll (c : WorkerClient) : List (Request × Delivery) → WorkerClient × List Send
  | [] => (c,[])
  | (request,rejection) :: rest =>
    let first := c.rpcOnce request (some rejection)
    let later := first.1.retryAll rest
    (later.1,first.2 ++ later.2)

/-- `this.coreReady.then(retry)`. -/
def whenReady (c : WorkerClient) (request : Request) (rejection : Delivery) :
    WorkerClient × List Send :=
  if c.ready then c.retryAll [(request,rejection)]
  else ({ c with waiting := c.waiting ++ [(request,rejection)] },[])

/-- The reply branch of the message listener, for the reply `d`. -/
def onReply (c : WorkerClient) (d : Delivery) (requestId : ℤ) (outcome : Except String Result) :
    WorkerClient × List Send :=
  match c.pending.lookup requestId with
  | none => (c,[])
  | some p =>
    let c := { c with pending := c.pending.filter (fun entry => entry.1 ≠ requestId) }
    match p,outcome with
    | .acquire,outcome => (c.settleAcquire requestId (outcome.map toSid),[])
    | .rpc request none,.error error =>
      if mentionsLoss error then c.whenReady request d else (c,[])
    | .rpc _ _,_ => (c,[])
    | .attach,_ => (c,[])

/-- The message listener. A new `coreReady` promise takes the resolver from the old one,
whose waiters never run. -/
def onMessage (c : WorkerClient) (d : Delivery) (constructs : Bool) : WorkerClient × List Send :=
  match d.message with
  | .log _ => (c,[])
  | .notify .pleaseSpawnCore => c.spawnCore constructs
  | .notify .coreReady => { c with ready := true, waiting := [] }.retryAll c.waiting
  | .notify .modelFreed => ({ c with ready := false, waiting := [] },[])
  | .notify _ => (c,[])
  | .reply requestId outcome => c.onReply d requestId outcome

end WorkerClient
end Rullama.Client
