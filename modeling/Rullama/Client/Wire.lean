import Rullama.Client.System
import Rullama.Router.Grants
import Rullama.Router.Timeline

/-! # The wire between a tab and the router

A requestId above zero names one message of its tab for good: it is in the outbox, or the
router owes or gave its reply. What the tab has received is an initial part of what the
router's trace posts to it.
-/
namespace Rullama.Client
open Router Transition

/-- The delivery is a reply to this request. -/
def Delivery.repliesTo (requestId : ℤ) (d : Delivery) : Bool :=
  match d.message with
  | .reply r _ => r == requestId
  | _ => false

section Deliveries
variable (port : Port)

theorem deliveryOf_cases (k : ℕ) (fx : Effect) : deliveryOf port k fx = [] ∨
    ∃ msg, fx.toTab? = some (port,msg) ∧ deliveryOf port k fx = [⟨k,fx,msg⟩] := by
  unfold deliveryOf
  split
  · next p msg hfx =>
    split
    · next hp => exact .inr ⟨msg,hp ▸ hfx,rfl⟩
    · exact .inl rfl
  · exact .inl rfl

theorem deliveriesFrom_append (k : ℕ) (trace more : List Effect) :
    deliveriesFrom port k (trace ++ more) =
      deliveriesFrom port k trace ++ deliveriesFrom port (k + trace.countP starts) more := by
  induction trace generalizing k with
  | nil => rfl
  | cons fx trace ih =>
    have hepoch : (if starts fx then k + 1 else k) + trace.countP starts =
        k + (fx :: trace).countP starts := by
      rw [List.countP_cons]
      split <;> omega
    simp only [List.cons_append,deliveriesFrom,ih,hepoch,List.append_assoc]

/-- A delivery comes from one place of the trace, with the stamp of that place. -/
theorem deliveriesFrom_split {k : ℕ} {trace : List Effect} {before after : List Delivery}
    {d : Delivery} (h : deliveriesFrom port k trace = before ++ d :: after) :
    ∃ pre post, trace = pre ++ d.effect :: post ∧ deliveriesFrom port k pre = before ∧
      d.epoch = k + pre.countP starts ∧ d.effect.toTab? = some (port,d.message) := by
  induction trace generalizing k before with
  | nil => simp [deliveriesFrom] at h
  | cons fx trace ih =>
    have hepoch : ∀ pre : List Effect, (if starts fx then k + 1 else k) + pre.countP starts =
        k + (fx :: pre).countP starts := by
      intro pre
      rw [List.countP_cons]
      split <;> omega
    rw [deliveriesFrom] at h
    rcases deliveryOf_cases port k fx with hnone | ⟨msg,hfx,hone⟩
    · rw [hnone,List.nil_append] at h
      obtain ⟨pre,post,rfl,hpre,hstamp,htab⟩ := ih h
      refine ⟨fx :: pre,post,rfl,?_,hstamp.trans (hepoch pre),htab⟩
      rw [deliveriesFrom,hnone,List.nil_append,hpre]
    · rw [hone,List.singleton_append] at h
      cases before with
      | nil =>
        obtain ⟨rfl,_⟩ := List.cons.inj h
        exact ⟨[],trace,rfl,rfl,rfl,hfx⟩
      | cons first before =>
        obtain ⟨rfl,hrest⟩ := List.cons.inj h
        obtain ⟨pre,post,rfl,hpre,hstamp,htab⟩ := ih hrest
        refine ⟨fx :: pre,post,rfl,?_,hstamp.trans (hepoch pre),htab⟩
        rw [deliveriesFrom,hone,List.singleton_append,hpre]

theorem mem_deliveriesFrom {k : ℕ} {trace : List Effect} {fx : Effect} {msg : ToTab}
    (hfx : fx ∈ trace) (h : fx.toTab? = some (port,msg)) :
    ∃ d ∈ deliveriesFrom port k trace, d.effect = fx ∧ d.message = msg := by
  obtain ⟨pre,post,rfl⟩ := List.append_of_mem hfx
  rw [deliveriesFrom_append]
  refine ⟨⟨k + pre.countP starts,fx,msg⟩,List.mem_append_right _ ?_,rfl,rfl⟩
  simp [deliveriesFrom,deliveryOf,h]

theorem deliveriesFrom_mem {k : ℕ} {trace : List Effect} {d : Delivery}
    (h : d ∈ deliveriesFrom port k trace) :
    d.effect ∈ trace ∧ d.effect.toTab? = some (port,d.message) := by
  obtain ⟨before,after,h⟩ := List.append_of_mem h
  obtain ⟨pre,post,rfl,_,_,htab⟩ := deliveriesFrom_split port h
  exact ⟨by simp,htab⟩

theorem deliveriesFrom_countP (requestId : ℤ) (k : ℕ) (trace : List Effect) :
    (deliveriesFrom port k trace).countP (Delivery.repliesTo requestId) =
      trace.countP (Effect.repliesTo port requestId) := by
  induction trace generalizing k with
  | nil => rfl
  | cons fx trace ih =>
    have hone : (deliveryOf port k fx).countP (Delivery.repliesTo requestId) =
        if Effect.repliesTo port requestId fx then 1 else 0 := by
      unfold deliveryOf Effect.repliesTo
      cases fx.toTab? with
      | none => rfl
      | some target =>
        obtain ⟨p,msg⟩ := target
        by_cases hp : p = port <;> cases msg <;> simp [hp,Delivery.repliesTo,List.countP_singleton]
    rw [deliveriesFrom,List.countP_append,hone,ih,List.countP_cons,Nat.add_comm]

end Deliveries

theorem WorkerClient.mem_of_lookup {pending : List (ℤ × Pending)} {requestId : ℤ} {p : Pending}
    (h : pending.lookup requestId = some p) : (requestId,p) ∈ pending := by
  obtain ⟨pre,post,rfl,_⟩ := List.lookup_eq_some_iff.mp h
  simp

/-- What a step makes the tab post names only new requests, each at most once. -/
structure WorkerClient.Fresh (c : WorkerClient) (r : WorkerClient × List Send) : Prop where
  nextId : c.nextId ≤ r.1.nextId
  once : ∀ requestId, 0 < requestId →
    r.2.countP (fun m => m.message.requestId = requestId) ≤
      if c.nextId ≤ requestId ∧ requestId < r.1.nextId then 1 else 0

namespace WorkerClient
variable (c : WorkerClient)

theorem fresh_nil {d : WorkerClient} (h : d.nextId = c.nextId) : c.Fresh (d,[]) :=
  ⟨Int.le_of_eq h.symm,fun _ _ => Nat.zero_le _⟩

theorem fresh_notice {d : WorkerClient} (h : d.nextId = c.nextId) (request : Request) :
    c.Fresh (d,[notice request]) := by
  refine ⟨Int.le_of_eq h.symm,fun requestId hpos => ?_⟩
  have hne : (-1 : ℤ) ≠ requestId := by omega
  simp [notice,hne]

/-- One message under the next id, and then new ones only. -/
theorem fresh_cons {d : WorkerClient} {sends : List Send} {m : Send}
    (hm : m.message.requestId = c.nextId) {mid : WorkerClient} (hmid : mid.nextId = c.nextId + 1)
    (h : mid.Fresh (d,sends)) : c.Fresh (d,m :: sends) := by
  have hle := h.nextId
  simp only [hmid] at hle
  refine ⟨by simp only; omega,fun requestId hpos => ?_⟩
  have hrest := h.once requestId hpos
  simp only [hmid] at hrest
  rw [List.countP_cons]
  by_cases hid : c.nextId = requestId
  · have hout : ¬ (c.nextId + 1 ≤ requestId ∧ requestId < d.nextId) := by omega
    rw [if_neg hout] at hrest
    have hin : c.nextId ≤ requestId ∧ requestId < d.nextId := by omega
    simp only [hm,hid,decide_true,if_true]
    rw [if_pos (by simpa [hid] using hin)]
    omega
  · simp only [hm,hid,decide_false,Bool.false_eq_true,if_false,Nat.add_zero]
    apply Nat.le_trans hrest
    split
    · next hin =>
      have hin : c.nextId ≤ requestId ∧ requestId < d.nextId := by omega
      simp [hin]
    · exact Nat.zero_le _

theorem rpcOnce_fresh (request : Request) (after : Option Delivery) :
    c.Fresh (c.rpcOnce request after) :=
  c.fresh_cons rfl rfl (fresh_nil _ rfl)

theorem spawnCore_fresh (constructs : Bool) : c.Fresh (c.spawnCore constructs) := by
  unfold spawnCore
  split
  · exact c.fresh_nil rfl
  · exact c.fresh_cons rfl rfl (fresh_nil _ rfl)

theorem acquireSession_fresh (abortToken : String) (signal : Signal) :
    c.Fresh (c.acquireSession abortToken signal) := by
  unfold acquireSession
  simp only
  split
  · exact c.fresh_cons rfl rfl (fresh_notice _ rfl _)
  · exact c.fresh_cons rfl rfl (fresh_nil _ rfl)

theorem onAbort_fresh (requestId : ℤ) : c.Fresh (c.onAbort requestId) := by
  unfold onAbort
  simp only
  split
  · exact c.fresh_nil rfl
  · exact c.fresh_notice (by rfl) _

theorem releaseSession_fresh : c.Fresh c.releaseSession := by
  unfold releaseSession
  split
  · exact c.fresh_nil rfl
  · exact c.fresh_cons rfl rfl (fresh_nil _ rfl)

theorem retryAll_fresh (retries : List (Request × Delivery)) : c.Fresh (c.retryAll retries) := by
  induction retries generalizing c with
  | nil => exact c.fresh_nil rfl
  | cons retry rest ih => exact c.fresh_cons rfl rfl (ih _)

theorem Fresh.of_nextId {c' : WorkerClient} {r : WorkerClient × List Send} (h : c'.Fresh r)
    (heq : c'.nextId = c.nextId) : c.Fresh r := ⟨heq ▸ h.nextId,heq ▸ h.once⟩

theorem whenReady_fresh (request : Request) (rejection : Delivery) :
    c.Fresh (c.whenReady request rejection) := by
  unfold whenReady
  split
  · exact c.retryAll_fresh _
  · exact c.fresh_nil rfl

theorem onReply_fresh (d : Delivery) (requestId : ℤ) (outcome : Except String Result) :
    c.Fresh (c.onReply d requestId outcome) := by
  unfold onReply
  split
  · exact c.fresh_nil rfl
  · simp only
    split
    · exact c.fresh_nil rfl
    · split
      · exact (whenReady_fresh _ _ d).of_nextId c rfl
      · exact c.fresh_nil rfl
    · exact c.fresh_nil rfl
    · exact c.fresh_nil rfl

theorem onMessage_fresh (d : Delivery) (constructs : Bool) : c.Fresh (c.onMessage d constructs) := by
  unfold onMessage
  split
  · exact c.fresh_nil rfl
  · exact c.spawnCore_fresh constructs
  · exact (retryAll_fresh { c with ready := true, waiting := [] } _).of_nextId c rfl
  · exact c.fresh_nil rfl
  · exact c.fresh_nil rfl
  · exact c.onReply_fresh d _ _

theorem perform_fresh (deed : Deed) : c.Fresh (c.perform deed) := by
  cases deed with
  | acquireSession abortToken signal => exact c.acquireSession_fresh abortToken signal
  | onAbort requestId => exact c.onAbort_fresh requestId
  | releaseSession => exact c.releaseSession_fresh
  | rpc request => exact c.rpcOnce_fresh request none
  | ping => exact c.fresh_notice (by rfl) _
  | teardownCore => exact c.fresh_notice (by rfl) _
  | onLeave => exact c.fresh_notice (by rfl) _

end WorkerClient

/-- The message that a router's event takes from the tab's outbox. -/
def taken (e : Router.Event) (port : Port) : List Message :=
  match e with
  | .message p msg _ _ => if p = port then [msg] else []
  | _ => []

/-- What the tab has handled of what the router posted to it. -/
def handled (s : State) (port : Port) (tab : Tab) : List Delivery :=
  (deliveries s port).take tab.received

theorem handled_succ {s : State} {port : Port} {tab : Tab} {d : Delivery} {rest : List Delivery}
    (hrest : (deliveries s port).drop tab.received = d :: rest) :
    (deliveries s port).take (tab.received + 1) = handled s port tab ++ [d] := by
  have hget : (deliveries s port)[tab.received]? = some d := by
    rw [← List.head?_drop,hrest,List.head?_cons]
  rw [List.take_add_one,hget]
  rfl

namespace System

/-- What an event does: the router takes a step and with it a message of some outbox, or
one tab handles what is under way to it or acts of its own accord. -/
inductive Step (s : System) (e : Event) : System → Prop
  | route (re : Router.Event) (t : System) (hre : s.routerEvent e = some re)
      (he : Router.Enabled s.router re) (hrouter : t.router = s.router.next re)
      (hclient : ∀ port, (t.tabs port).client = (s.tabs port).client)
      (hreceived : ∀ port, (t.tabs port).received = (s.tabs port).received)
      (houtbox : ∀ port, (s.tabs port).outbox = taken re port ++ (t.tabs port).outbox) : Step s e t
  | handle (port : Port) (constructs : Bool) (d : Delivery) (rest : List Delivery)
      (he : e = .receive port constructs) (hd : s.underway port = d :: rest) :
      Step s e (s.update port ((s.tabs port).received + 1)
        ((s.tabs port).client.onMessage d constructs))
  | perform (port : Port) (deed : Deed) (he : e = .tab port deed) (hen : s.Enabled e) :
      Step s e (s.update port (s.tabs port).received ((s.tabs port).client.perform deed))

theorem next_step {s : System} {e : Event} (he : s.Enabled e) : Step s e (s.next e) := by
  cases e with
  | router re =>
    obtain ⟨hmsg,he⟩ := he
    refine .route re _ rfl he rfl (fun _ => rfl) (fun _ => rfl) (fun port => ?_)
    cases re <;> first | rfl | simp [isMessage] at hmsg
  | deliver port now throws =>
    obtain ⟨hport,hne⟩ := he
    obtain ⟨msg,rest,hbox⟩ := List.exists_cons_of_ne_nil hne
    simp only [next,hbox]
    refine .route (.message port msg now throws) _ (by simp [routerEvent,hbox]) hport rfl ?_ ?_ ?_
    · intro p
      by_cases hp : p = port <;> simp [hp,Function.update_of_ne]
    · intro p
      by_cases hp : p = port <;> simp [hp,Function.update_of_ne]
    · intro p
      by_cases hp : p = port
      · simp [hp,taken,hbox]
      · have hp' : ¬ port = p := fun h => hp h.symm
        simp [taken,hp,hp']
  | receive port constructs =>
    obtain ⟨d,rest,hd⟩ := List.exists_cons_of_ne_nil (show s.underway port ≠ [] from he)
    simp only [next,hd]
    exact .handle port constructs d rest rfl hd
  | tab port deed => exact .perform port deed rfl he

@[simp] theorem update_tabs_self (s : System) (port : Port) (received : ℕ)
    (r : WorkerClient × List Send) : (s.update port received r).tabs port =
      ⟨r.1,(s.tabs port).outbox ++ r.2.map Send.message,received⟩ := Function.update_self _ _ _

theorem update_tabs_of_ne (s : System) {port p : Port} (h : p ≠ port) (received : ℕ)
    (r : WorkerClient × List Send) : (s.update port received r).tabs p = s.tabs p :=
  Function.update_of_ne h _ _

/-- How often a request of a tab is named: waiting in its outbox, owed or answered. -/
def named (s : State) (port : Port) (outbox : List Message) (requestId : ℤ) : ℕ :=
  outbox.countP (fun m => m.requestId = requestId) + s.owed port requestId

/-- What one tab and the router agree on. -/
structure TabWired (s : State) (port : Port) (tab : Tab) : Prop where
  positive : 0 < tab.client.nextId
  once : ∀ requestId, 0 < requestId → named s port tab.outbox requestId ≤ 1
  unused : ∀ requestId, tab.client.nextId ≤ requestId → named s port tab.outbox requestId = 0
  received : tab.received ≤ (deliveries s port).length

structure Wired (s : System) : Prop where
  sound : s.router.Sound
  ledger : s.router.Ledger
  timeline : s.router.Timeline
  told : s.router.Told
  tab : ∀ port, TabWired s.router port (s.tabs port)

theorem wired_initial : Wired initial where
  sound := State.sound_initial
  ledger := State.ledger_initial
  timeline := State.timeline_initial
  told := State.told_initial
  tab _ := ⟨Int.one_pos,fun _ _ => Nat.zero_le _,fun _ _ => rfl,Nat.le.refl⟩

section Router
variable {s : State} {e : Router.Event}

theorem taken_spent (port : Port) (requestId : ℤ) :
    (taken e port).countP (fun m => m.requestId = requestId) =
      State.eventSpent port requestId e := by
  cases e with
  | message p msg now throws =>
    by_cases hp : p = port <;>
      simp [taken,State.eventSpent,hp,List.countP_singleton]
  | _ => rfl

theorem next_deliveries (hs : s.Sound) (he : Router.Enabled s e) (port : Port) :
    deliveries (s.next e) port =
      deliveries s port ++ deliveriesFrom port (epoch s) (s.effects e) := by
  unfold deliveries
  rw [State.next_trace hs he,deliveriesFrom_append,Nat.zero_add]
  rfl

theorem next_named (hs : s.Sound) (hl : s.Ledger) (he : Router.Enabled s e) (port : Port)
    (outbox : List Message) (requestId : ℤ) :
    named (s.next e) port outbox requestId ≤ named s port (taken e port ++ outbox) requestId := by
  have howed := State.next_owed port requestId hs hl he
  unfold named
  rw [List.countP_append,taken_spent]
  omega

end Router

/-- A request that was never made has no reply. -/
theorem unused_replies {s : State} {port : Port} {outbox : List Message} {requestId : ℤ}
    (h : named s port outbox requestId = 0) :
    ∀ d ∈ deliveries s port, ∀ o, d.message ≠ .reply requestId o := by
  intro d hd o hmsg
  unfold named State.owed at h
  have hcount := deliveriesFrom_countP port requestId 0 s.trace
  rw [show s.trace.countP (Effect.repliesTo port requestId) = 0 by omega] at hcount
  have hno := List.countP_eq_zero.mp hcount d hd
  simp [Delivery.repliesTo,hmsg] at hno

theorem named_append (s : State) (port : Port) {outbox : List Message} {sends : List Send}
    (requestId : ℤ) : named s port (outbox ++ sends.map Send.message) requestId =
      named s port outbox requestId + sends.countP (fun m => m.message.requestId = requestId) := by
  have hsends : (sends.map Send.message).countP (fun m => decide (m.requestId = requestId)) =
      sends.countP (fun m => decide (m.message.requestId = requestId)) := List.countP_map
  unfold named
  rw [List.countP_append,hsends]
  omega

/-- A tab's step keeps its requests apart. -/
theorem tabWired_posts {s : State} {port : Port} {tab : Tab} (h : TabWired s port tab)
    {r : WorkerClient × List Send} (hr : tab.client.Fresh r) {received : ℕ}
    (hreceived : received ≤ (deliveries s port).length) :
    TabWired s port ⟨r.1,tab.outbox ++ r.2.map Send.message,received⟩ := by
  have hpos := h.positive
  have hle := hr.nextId
  refine ⟨by simp only; omega,fun requestId hid => ?_,fun requestId hid => ?_,hreceived⟩
  · have hsends := hr.once requestId hid
    rw [named_append]
    split at hsends
    · next hnew =>
      have hnone := h.unused requestId hnew.1
      omega
    · have hone := h.once requestId hid
      omega
  · have hsends := hr.once requestId (by simp only at hid; omega)
    have hnone := h.unused requestId (by simp only at hid; omega)
    have hout : ¬ (tab.client.nextId ≤ requestId ∧ requestId < r.1.nextId) := by
      simp only at hid
      omega
    rw [if_neg hout] at hsends
    rw [named_append]
    omega

theorem underway_lt {s : System} {port : Port} {d : Delivery} {rest : List Delivery}
    (h : s.underway port = d :: rest) :
    (s.tabs port).received < (deliveries s.router port).length := by
  by_contra hge
  have hnil : s.underway port = [] := List.drop_eq_nil_of_le (by omega)
  rw [h] at hnil
  exact absurd hnil (List.cons_ne_nil _ _)

theorem Step.wired {s t : System} {e : Event} (hst : Step s e t) (h : Wired s) : Wired t := by
  obtain ⟨hsound,hledger,htimeline,htold,htab⟩ := h
  cases hst with
  | route re _ hre he hrouter hclient hreceived houtbox =>
    refine ⟨?_,?_,?_,?_,fun port => ?_⟩
    · rw [hrouter]; exact State.next_sound hsound he
    · rw [hrouter]; exact State.next_ledger hsound hledger he
    · rw [hrouter]; exact State.next_timeline hsound htimeline he
    · rw [hrouter]; exact State.next_told hsound he htold
    · obtain ⟨hpos,honce,hunused,hlen⟩ := htab port
      have hnamed := fun requestId => houtbox port ▸
        next_named hsound hledger he port (t.tabs port).outbox requestId
      rw [hrouter]
      refine ⟨by rwa [hclient],fun requestId hid => ?_,fun requestId hid => ?_,?_⟩
      · exact Nat.le_trans (hnamed requestId) (honce requestId hid)
      · rw [hclient] at hid
        exact Nat.le_zero.mp (hunused requestId hid ▸ hnamed requestId)
      · rw [hreceived,next_deliveries hsound he,List.length_append]
        omega
  | handle port constructs d rest _ hd =>
    refine ⟨hsound,hledger,htimeline,htold,fun p => ?_⟩
    by_cases hp : p = port
    · rw [hp,update_tabs_self]
      exact tabWired_posts (htab port) (WorkerClient.onMessage_fresh _ d constructs) (underway_lt hd)
    · rw [update_tabs_of_ne s hp]
      exact htab p
  | perform port deed =>
    refine ⟨hsound,hledger,htimeline,htold,fun p => ?_⟩
    by_cases hp : p = port
    · rw [hp,update_tabs_self]
      exact tabWired_posts (htab port) (WorkerClient.perform_fresh _ deed) (htab port).received
    · rw [update_tabs_of_ne s hp]
      exact htab p

end System
end Rullama.Client
