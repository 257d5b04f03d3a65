import Rullama.Router.Dispatch

/-! # The docket: port table and session arbitration

The docket is what the session rules depend on: `PORTS` and the arbiter. Every task
of the router acts on it as a short list of docket events.
-/
namespace Rullama.Router
open Transition

structure Docket where
  ports : List Port
  arbiter : Arbiter
  deriving DecidableEq, Repr

inductive DocketEvent where
  | connect (port : Port)
  | acquire (abortToken : String) (port : Port) (requestId : ℤ)
  | release (sid : Option ℕ) (port : Port)
  | cancel (abortToken : String)
  | disconnect (port : Port)
  deriving DecidableEq, Repr

namespace Docket

def Enabled (d : Docket) : DocketEvent → Prop
  | .connect port => port ∉ d.ports
  | .acquire _ port _ => port ∈ d.ports
  | .release _ port => port ∈ d.ports
  | .cancel _ => True
  | .disconnect port => port ∈ d.ports

instance (d : Docket) (e : DocketEvent) : Decidable (d.Enabled e) := by
  cases e <;> unfold Enabled <;> infer_instance

def next (d : Docket) : DocketEvent → Docket
  | .connect port => { d with ports := d.ports ++ [port] }
  | .acquire abortToken port requestId =>
    { d with arbiter := d.arbiter.acquireSession abortToken port requestId }
  | .release sid port => { d with arbiter := (d.arbiter.releaseSession sid port).1 }
  | .cancel abortToken => { d with arbiter := (d.arbiter.cancelAcquire abortToken).1 }
  | .disconnect port => ⟨d.ports.erase port,d.arbiter.disconnect port⟩

def machine : Machine Docket DocketEvent where
  enabled := Enabled
  next := next

@[simp] theorem machine_enabled (d : Docket) (e : DocketEvent) :
    machine.enabled d e = d.Enabled e := rfl
@[simp] theorem machine_next (d : Docket) (e : DocketEvent) : machine.next d e = d.next e := rfl

end Docket

namespace State
def docket (s : State) : Docket := ⟨s.ports,s.arbiter⟩

/-- What a task does to the docket. -/
def docketEvents (s : State) : Event → List DocketEvent
  | .connect _ _ => [.connect s.nextPort]
  | .message port msg _ _ =>
    match msg.request with
    | .disconnect => [.disconnect port]
    | .acquireSession abortToken => [.acquire (abortToken.getD "") port msg.requestId]
    | .releaseSession sid => [.release sid.toNumber port]
    | .cancelAcquire abortToken => [.cancel (abortToken.getD "undefined")]
    | _ => []
  | .heartbeat now _ => (s.ports.filter (s.isStale now)).map .disconnect
  | _ => []

end State
end Rullama.Router
