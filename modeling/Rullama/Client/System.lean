import Rullama.Client.WorkerClient

/-! # Tabs and router together

Messages in both directions are delivered one at a time and in order. What is under way
to a tab is the part of the router's trace the tab has not handled yet.
-/
namespace Rullama.Client
open Router Transition

/-- The effect starts a core. -/
def starts : Effect → Bool
  | .startCore _ _ => true
  | _ => false

/-- What an effect brings to a port. -/
def deliveryOf (port : Port) (epoch : ℕ) (fx : Effect) : List Delivery :=
  match fx.toTab? with
  | some (p,msg) => if p = port then [⟨epoch,fx,msg⟩] else []
  | none => []

/-- What the trace posts to a port, from the given stamp on. -/
def deliveriesFrom (port : Port) : ℕ → List Effect → List Delivery
  | _, [] => []
  | epoch, fx :: rest =>
    deliveryOf port epoch fx ++ deliveriesFrom port (if starts fx then epoch + 1 else epoch) rest

def deliveries (s : State) (port : Port) : List Delivery := deliveriesFrom port 0 s.trace

/-- How many cores have been started. -/
def epoch (s : State) : ℕ := s.trace.countP starts

structure Tab where
  client : WorkerClient
  outbox : List Message
  received : ℕ

/-- `tabs` is meaningful for the ports the router has seen. -/
structure System where
  router : State
  tabs : Port → Tab

/-- What the page or the browser makes a tab do, and what it posts. -/
inductive Deed where
  | acquireSession (abortToken : String) (signal : Signal)
  | onAbort (requestId : ℤ)
  | releaseSession
  | rpc (request : Request)
  | ping
  | teardownCore
  | onLeave

/-- The RPCs of the client, besides those of its session methods. -/
def Callable : Request → Bool
  | .currentMeta | .updateAvailable _ | .applyUpdate _ | .core _ => true
  | _ => false

def WorkerClient.perform (c : WorkerClient) : Deed → WorkerClient × List Send
  | .acquireSession abortToken signal => c.acquireSession abortToken signal
  | .onAbort requestId => c.onAbort requestId
  | .releaseSession => c.releaseSession
  | .rpc request => c.rpcOnce request none
  | .ping => (c,[WorkerClient.notice .ping])
  | .teardownCore => c.teardownCore
  | .onLeave => c.onLeave

/-- `router` is an event that no tab's message causes. -/
inductive Event where
  | router (e : Router.Event)
  | deliver (port : Port) (now : ℕ) (throws : Bool)
  | receive (port : Port) (constructs : Bool)
  | tab (port : Port) (deed : Deed)

def isMessage : Router.Event → Bool
  | .message _ _ _ _ => true
  | _ => false

namespace System

def initial : System := ⟨.initial,fun _ => ⟨.initial,[],0⟩⟩

/-- What is under way to the tab. -/
def underway (s : System) (port : Port) : List Delivery :=
  (deliveries s.router port).drop (s.tabs port).received

def Enabled (s : System) : Event → Prop
  | .router e => isMessage e = false ∧ Router.Enabled s.router e
  | .deliver port _ _ => port ∈ s.router.ports ∧ (s.tabs port).outbox ≠ []
  | .receive port _ => s.underway port ≠ []
  | .tab port (.rpc request) => port < s.router.nextPort ∧ Callable request
  | .tab port (.acquireSession _ signal) => port < s.router.nextPort ∧ signal ≠ .fired
  | .tab port _ => port < s.router.nextPort

instance (s : System) (e : Event) : Decidable (s.Enabled e) := by
  unfold Enabled
  split <;> infer_instance

/-- The router's event that an event of the system is, if any. -/
def routerEvent (s : System) : Event → Option Router.Event
  | .router e => some e
  | .deliver port now throws => (s.tabs port).outbox.head?.map (fun msg => .message port msg now throws)
  | _ => none

/-- A tab's step: its new client and what it posts. -/
def update (s : System) (port : Port) (received : ℕ) (r : WorkerClient × List Send) : System :=
  { s with
    tabs := Function.update s.tabs port
      ⟨r.1,(s.tabs port).outbox ++ r.2.map Send.message,received⟩ }

def next (s : System) : Event → System
  | .router e => { s with router := s.router.next e }
  | .deliver port now throws =>
    match (s.tabs port).outbox with
    | [] => s
    | msg :: rest =>
      { router := s.router.next (.message port msg now throws)
        tabs := Function.update s.tabs port { s.tabs port with outbox := rest } }
  | .receive port constructs =>
    match s.underway port with
    | [] => s
    | d :: _ =>
      s.update port ((s.tabs port).received + 1) ((s.tabs port).client.onMessage d constructs)
  | .tab port deed => s.update port (s.tabs port).received ((s.tabs port).client.perform deed)

def machine : Machine System Event where
  enabled := Enabled
  next := next

instance (s : System) (e : Event) : Decidable (machine.enabled s e) :=
  inferInstanceAs (Decidable (s.Enabled e))

end System
end Rullama.Client
