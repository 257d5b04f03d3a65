import Rullama.Client.Wire

/-! # Retries across host migration

A first attempt that the router rejects with `core disconnected` is re-sent when `coreReady`
resolves. Where that promise is pending, the next `coreReady` was posted with a core attached
after the rejection. Where it is resolved still, the retry goes out at once, to the same
loss.
-/
namespace Rullama.Client
open Router Transition

/-- The router itself rejects: no core is attached, or the attached one is lost. -/
def isLoss : Effect → Bool
  | .reject _ _ _ => true
  | .post _ (.reply _ (.error error)) => error == "core disconnected"
  | _ => false

theorem loss_message {fx : Effect} (h : isLoss fx) {port : Port} {msg : ToTab}
    (hfx : fx.toTab? = some (port,msg)) :
    ∃ requestId, msg = .reply requestId (.error "core disconnected") := by
  cases fx with
  | reject id p requestId =>
    simp only [Effect.toTab?,Option.some.injEq,Prod.mk.injEq] at hfx
    exact ⟨requestId,hfx.2.symm⟩
  | post p m =>
    simp only [Effect.toTab?,Option.some.injEq,Prod.mk.injEq] at hfx
    obtain ⟨_,rfl⟩ := hfx
    unfold isLoss at h
    split at h
    · next heq => simp at heq
    · next requestId error heq =>
      obtain ⟨_,rfl⟩ := Effect.post.inj heq
      exact ⟨requestId,by rw [eq_of_beq h]⟩
    · simp at h
  | _ => simp [isLoss] at h

/-- A loss is told only while no core is attached, and attaches none. -/
theorem loss_coreline {core : Option Core} {fx : Effect} (h : isLoss fx)
    (he : Coreline.Enabled core fx) : core = none ∧ Coreline.machine.next core fx = none := by
  have hnone : core = none := by
    unfold isLoss at h
    split at h
    · exact he
    · exact he (by rw [eq_of_beq h])
    · simp at h
  refine ⟨hnone,?_⟩
  unfold isLoss at h
  split at h
  · exact hnone
  · exact hnone
  · simp at h

theorem loss_not_starts {fx : Effect} (h : isLoss fx) : starts fx = false := by
  cases fx <;> first | rfl | simp [isLoss] at h

/-- Between the two posts a core was started and closed again. -/
def LostTwice (s : State) (first d : Delivery) : Prop :=
  ∃ pre mid post, s.trace = pre ++ first.effect :: (mid ++ d.effect :: post) ∧
    ∃ before core host after, mid = before ++ .startCore core host :: after ∧
      .closeCore core ∈ after

section Between
variable {s : State} {port : Port} {tab : Tab} {first d : Delivery} {rest : List Delivery}

/-- The part of the trace between a delivery that was handled and the next one. -/
theorem handled_between (hrest : (deliveries s port).drop tab.received = d :: rest)
    (hfirst : first ∈ handled s port tab) :
    ∃ pre mid post, s.trace = pre ++ first.effect :: (mid ++ d.effect :: post) ∧
      first.epoch = pre.countP starts ∧
      d.epoch = (pre ++ first.effect :: mid).countP starts := by
  have hsplit : deliveriesFrom port 0 s.trace = handled s port tab ++ d :: rest := by
    rw [handled,← hrest,List.take_append_drop]
    rfl
  obtain ⟨upto,post,htrace,hupto,hepoch,_⟩ := deliveriesFrom_split port hsplit
  obtain ⟨before,after,hmem⟩ := List.append_of_mem hfirst
  obtain ⟨pre,mid,rfl,_,hstamp,_⟩ := deliveriesFrom_split port (hupto.trans hmem)
  refine ⟨pre,mid,post,?_,by omega,by omega⟩
  rw [htrace,List.append_assoc,List.cons_append]

/-- A `coreReady` that comes after a loss was posted with a later core attached. -/
theorem loss_before_ready (ht : s.Timeline)
    (hrest : (deliveries s port).drop tab.received = d :: rest)
    (hfirst : first ∈ handled s port tab) (hloss : isLoss first.effect)
    (hready : d.message = .notify .coreReady) (hd : d.effect.toTab? = some (port,d.message)) :
    first.epoch < d.epoch := by
  obtain ⟨pre,mid,post,htrace,hfirst,hepoch⟩ := handled_between hrest hfirst
  have hrun := ht.run
  rw [htrace,Machine.run_append] at hrun
  obtain ⟨_,hfx,hrun⟩ := hrun
  obtain ⟨hnone,hnext⟩ := loss_coreline hloss hfx
  rw [hnext,Machine.run_append] at hrun
  have heffect : d.effect = .post port (.notify .coreReady) := by
    rw [hready] at hd
    cases hfx : d.effect <;> simp_all [Effect.toTab?]
  have hattached := hrun.2.1
  rw [heffect] at hattached
  obtain ⟨before,core,host,after,rfl⟩ := Coreline.started_of_exec hattached
  rw [hfirst,hepoch,List.countP_append,List.countP_cons,List.countP_append,List.countP_cons]
  simp only [starts,if_true]
  omega

/-- Where a core was started between two losses, it was lost between them. -/
theorem lost_between (ht : s.Timeline)
    (hrest : (deliveries s port).drop tab.received = d :: rest)
    (hmem : first ∈ handled s port tab) (hfirst : isLoss first.effect) (hd : isLoss d.effect)
    (hlt : first.epoch < d.epoch) : LostTwice s first d := by
  obtain ⟨pre,mid,post,htrace,hstamp,hepoch⟩ := handled_between hrest hmem
  refine ⟨pre,mid,post,htrace,?_⟩
  have hrun := ht.run
  rw [htrace,Machine.run_append] at hrun
  obtain ⟨_,hfx,hrun⟩ := hrun
  obtain ⟨_,hnext⟩ := loss_coreline hfirst hfx
  rw [hnext,Machine.run_append] at hrun
  obtain ⟨hmid,hfx',_⟩ := hrun
  obtain ⟨hend,_⟩ := loss_coreline hd hfx'
  rw [hstamp,hepoch,List.countP_append,List.countP_cons,loss_not_starts hfirst] at hlt
  have hpos : 0 < mid.countP starts := by
    simp only [Bool.false_eq_true,if_false] at hlt
    omega
  obtain ⟨fx,hfx,hstarts⟩ := List.countP_pos_iff.mp hpos
  obtain ⟨before,after,rfl⟩ := List.append_of_mem hfx
  cases fx with
  | startCore core host =>
    refine ⟨before,core,host,after,rfl,?_⟩
    rw [Machine.run_append] at hmid
    rw [Machine.exec_append,Machine.exec_cons] at hend
    exact Coreline.closed_of_exec hmid.2.2 (fun heq => by
      rw [show Coreline.machine.next _ (.startCore core host) = some core from rfl,heq] at hend
      simp at hend)
  | _ => simp [starts] at hstarts

end Between

namespace WorkerClient

/-- Every retry that a step sends or leaves open follows a rejection of the list; retries
that begin to wait follow the last delivery. -/
structure Follows (c : WorkerClient) (rejections : List Delivery) (last : Option Delivery)
    (r : WorkerClient × List Send) : Prop where
  sends : ∀ m ∈ r.2, ∀ d, m.after = some d → d ∈ rejections
  pending : ∀ entry ∈ r.1.pending, ∀ request d, entry.2 = .rpc request (some d) →
    entry ∈ c.pending ∨ c.nextId ≤ entry.1 ∧ d ∈ rejections
  waiting : ∀ entry ∈ r.1.waiting, entry ∈ c.waiting ∨ last = some entry.2

section Follows
variable {c d : WorkerClient} {rejections : List Delivery} {last : Option Delivery}

theorem follows_of_mem (hpending : ∀ entry ∈ d.pending, entry ∈ c.pending ∨
      ∀ request first, entry.2 ≠ .rpc request (some first))
    (hwaiting : ∀ entry ∈ d.waiting, entry ∈ c.waiting ∨ last = some entry.2)
    {sends : List Send} (hsends : ∀ m ∈ sends, m.after = none) :
    c.Follows rejections last (d,sends) := by
  refine ⟨fun m hm first hfirst => ?_,fun entry he request first heq => ?_,hwaiting⟩
  · rw [hsends m hm] at hfirst
    simp at hfirst
  · exact .inl ((hpending entry he).resolve_right (fun hne => hne request first heq))

theorem follows_same (hpending : d.pending = c.pending) (hwaiting : d.waiting = c.waiting)
    {sends : List Send} (hsends : ∀ m ∈ sends, m.after = none) :
    c.Follows rejections last (d,sends) :=
  follows_of_mem (fun _ he => .inl (hpending ▸ he)) (fun _ he => .inl (hwaiting ▸ he)) hsends

theorem follows_snoc {id : ℤ} {p : Pending} (hp : ∀ request first, p ≠ .rpc request (some first))
    (hpending : d.pending = c.pending ++ [(id,p)]) (hwaiting : d.waiting = c.waiting)
    {sends : List Send} (hsends : ∀ m ∈ sends, m.after = none) :
    c.Follows rejections last (d,sends) := by
  refine follows_of_mem ?_ (fun _ he => .inl (hwaiting ▸ he)) hsends
  rw [hpending]
  exact List.forall_mem_append.mpr
    ⟨fun _ he => .inl he,List.forall_mem_singleton.mpr (.inr hp)⟩

theorem retryAll_follows (last : Option Delivery) (c : WorkerClient) (retries : List (Request × Delivery)) :
    c.Follows (retries.map Prod.snd) last (c.retryAll retries) := by
  induction retries generalizing c with
  | nil => exact follows_same (d := c) rfl rfl (fun _ hm => absurd hm List.not_mem_nil)
  | cons retry rest ih =>
    obtain ⟨hsends,hpending,hwaiting⟩ := ih (c.rpcOnce retry.1 (some retry.2)).1
    refine ⟨?_,fun entry he request first heq => ?_,hwaiting⟩
    · refine List.forall_mem_cons.mpr ⟨fun first hfirst => ?_,fun m hm first hfirst => ?_⟩
      · obtain rfl := Option.some.inj hfirst
        exact List.mem_cons_self
      · exact List.mem_cons_of_mem _ (hsends m hm first hfirst)
    · rcases hpending entry he request first heq with hold | ⟨hid,hmem⟩
      · rcases List.mem_append.mp hold with hold | hnew
        · exact .inl hold
        · obtain rfl := List.mem_singleton.mp hnew
          obtain ⟨_,hsome⟩ := Pending.rpc.inj heq
          obtain rfl := Option.some.inj hsome
          exact .inr ⟨Int.le_refl _,List.mem_cons_self⟩
      · refine .inr ⟨?_,List.mem_cons_of_mem _ hmem⟩
        simp only [rpcOnce] at hid
        omega

/-- The retries that a message from the router sets off at once. -/
def retriesOn (c : WorkerClient) (d : Delivery) : List Delivery :=
  match d.message with
  | .notify .coreReady => c.waiting.map Prod.snd
  | .reply requestId (.error error) =>
    match c.pending.lookup requestId with
    | some (.rpc _ none) => if mentionsLoss error && c.ready then [d] else []
    | _ => []
  | _ => []

theorem onMessage_follows (c : WorkerClient) (d : Delivery) (constructs : Bool) :
    c.Follows (c.retriesOn d) (some d) (c.onMessage d constructs) := by
  have hnone : ∀ m ∈ ([] : List Send), m.after = none := fun _ hm => absurd hm List.not_mem_nil
  have hsame : c.Follows (c.retriesOn d) (some d) (c,[]) :=
    follows_same rfl rfl hnone
  obtain ⟨epoch,fx,message⟩ := d
  cases message with
  | log args => exact hsame
  | notify n =>
    cases n with
    | pleaseSpawnCore =>
      simp only [onMessage,spawnCore]
      split
      · exact hsame
      · apply follows_snoc (p := .attach) (by simp) (by rfl) (by rfl)
        exact List.forall_mem_singleton.mpr (by rfl)
    | coreReady =>
      obtain ⟨hsends,hpending,hwaiting⟩ :=
        retryAll_follows none { c with ready := true, waiting := [] } c.waiting
      exact ⟨hsends,hpending,fun entry he => by simpa using hwaiting entry he⟩
    | modelFreed =>
      refine follows_of_mem (c := c) (d := { c with ready := false, waiting := [] }) (fun _ he => .inl he)
        (fun entry he => ?_) hnone
      exact absurd he List.not_mem_nil
    | metaInfo | modelLoaded | updateAvailable | applyingUpdate | other => exact hsame
  | reply requestId outcome =>
    simp only [onMessage,onReply]
    cases hp : c.pending.lookup requestId with
    | none => exact hsame
    | some p =>
      have hmem : ∀ entry ∈ c.pending.filter (fun entry => entry.1 ≠ requestId),
          entry ∈ c.pending := fun _ he => (List.mem_filter.mp he).1
      have hrest : ∀ e : WorkerClient, e.waiting = c.waiting →
          e.pending = c.pending.filter (fun entry => entry.1 ≠ requestId) →
          c.Follows (c.retriesOn ⟨epoch,fx,.reply requestId outcome⟩)
            (some ⟨epoch,fx,.reply requestId outcome⟩) (e,[]) :=
        fun e hwaiting hpending => follows_of_mem (fun _ he => .inl (hmem _ (hpending ▸ he)))
          (fun _ he => .inl (hwaiting ▸ he)) hnone
      cases p with
      | acquire => exact hrest _ rfl rfl
      | attach => exact hrest _ rfl rfl
      | rpc request after =>
        cases after with
        | some first => cases outcome <;> exact hrest _ rfl rfl
        | none =>
          cases outcome with
          | ok result => exact hrest _ rfl rfl
          | error error =>
            simp only
            split
            · next hloss =>
              unfold whenReady
              simp only
              split
              · next hready =>
                have hlist : c.retriesOn ⟨epoch,fx,.reply requestId (.error error)⟩ =
                    [⟨epoch,fx,.reply requestId (.error error)⟩] := by
                  simp only [retriesOn,hp,hloss,hready,Bool.and_self,if_true]
                rw [hlist]
                obtain ⟨hsends,hpending,hwaiting⟩ := retryAll_follows none
                  { c with pending := c.pending.filter (fun entry => entry.1 ≠ requestId) }
                  [(request,⟨epoch,fx,.reply requestId (.error error)⟩)]
                refine ⟨hsends,fun entry he r first heq => ?_,
                  fun entry he => .inl ((hwaiting entry he).resolve_right (by simp))⟩
                exact (hpending entry he r first heq).imp_left (hmem entry)
              · refine follows_of_mem (fun _ he => .inl (hmem _ he))
                  (List.forall_mem_append.mpr ⟨fun _ he => .inl he,?_⟩) hnone
                exact List.forall_mem_singleton.mpr (.inr rfl)
            · exact hrest _ rfl rfl

theorem perform_follows (c : WorkerClient) (deed : Deed) :
    c.Follows [] none (c.perform deed) := by
  have hnone : ∀ m ∈ ([] : List Send), m.after = none := fun _ hm => absurd hm List.not_mem_nil
  cases deed with
  | acquireSession abortToken signal =>
    apply follows_snoc (p := .acquire) (by simp) (by rfl) (by rfl)
    refine List.forall_mem_cons.mpr ⟨rfl,fun m hm => ?_⟩
    split at hm
    · obtain rfl := List.mem_singleton.mp hm
      rfl
    · simp at hm
  | onAbort requestId =>
    unfold perform onAbort
    simp only
    split
    · exact follows_same rfl rfl hnone
    · exact follows_same (by rfl) (by rfl) (List.forall_mem_singleton.mpr (by rfl))
  | releaseSession =>
    unfold perform releaseSession
    simp only
    split
    · exact follows_same rfl rfl hnone
    · exact follows_snoc (p := .rpc _ none) (by simp) (by rfl) (by rfl)
        (List.forall_mem_singleton.mpr (by rfl))
  | rpc request =>
    exact follows_snoc (p := .rpc request none) (by simp) (by rfl) (by rfl)
      (List.forall_mem_singleton.mpr (by rfl))
  | ping | teardownCore | onLeave =>
    exact follows_same (by rfl) (by rfl) (List.forall_mem_singleton.mpr (by rfl))

end Follows
end WorkerClient

/-- Every open retry follows a rejection that the tab has handled; a core was started between
the two, and before any reply to the retry. Every waiting one follows a handled rejection. -/
structure TabRetries (s : State) (port : Port) (tab : Tab) : Prop where
  pending : ∀ entry ∈ tab.client.pending, ∀ request d, entry.2 = .rpc request (some d) →
    d ∈ handled s port tab ∧ (isLoss d.effect → d.epoch < epoch s ∧
      ∀ d' ∈ deliveries s port, ∀ o, d'.message = .reply entry.1 o → d.epoch < d'.epoch)
  waiting : ∀ entry ∈ tab.client.waiting, entry.2 ∈ handled s port tab

/-- No stamp is above the count of cores started. -/
theorem epoch_le {s : State} {port : Port} {d : Delivery} (h : d ∈ deliveries s port) :
    d.epoch ≤ epoch s := by
  obtain ⟨before,after,hsplit⟩ := List.append_of_mem h
  obtain ⟨pre,post,htrace,_,hepoch,_⟩ := deliveriesFrom_split port hsplit
  rw [epoch,htrace,List.countP_append,hepoch]
  omega

theorem le_epoch {port : Port} {k : ℕ} {trace : List Effect} {d : Delivery}
    (h : d ∈ deliveriesFrom port k trace) : k ≤ d.epoch := by
  obtain ⟨before,after,hsplit⟩ := List.append_of_mem h
  obtain ⟨_,_,_,_,hepoch,_⟩ := deliveriesFrom_split port hsplit
  omega

section Steps
variable {s : State} {port : Port} {tab : Tab}

/-- The router's steps only bring replies with later stamps. -/
theorem TabRetries.route (h : TabRetries s port tab) (hw : System.TabWired s port tab)
    (hs : s.Sound) {re : Router.Event} (he : Router.Enabled s re) {tab' : Tab}
    (hclient : tab'.client = tab.client) (hreceived : tab'.received = tab.received) :
    TabRetries (s.next re) port tab' := by
  have hhandled : handled (s.next re) port tab' = handled s port tab := by
    rw [handled,handled,System.next_deliveries hs he,hreceived,
      List.take_append_of_le_length hw.received]
  have hepoch : epoch s ≤ epoch (s.next re) := by
    rw [epoch,epoch,State.next_trace hs he,List.countP_append]
    exact Nat.le_add_right _ _
  refine ⟨fun entry he' request d heq => ?_,fun entry he' => ?_⟩
  · rw [hclient] at he'
    obtain ⟨hmem,hloss⟩ := h.pending entry he' request d heq
    refine ⟨hhandled ▸ hmem,fun hd => ?_⟩
    obtain ⟨hlt,hall⟩ := hloss hd
    refine ⟨Nat.lt_of_lt_of_le hlt hepoch,fun d' hd' o hmsg => ?_⟩
    rw [System.next_deliveries hs he,List.mem_append] at hd'
    rcases hd' with hold | hnew
    · exact hall d' hold o hmsg
    · exact Nat.lt_of_lt_of_le hlt (le_epoch hnew)
  · rw [hclient] at he'
    exact hhandled ▸ h.waiting entry he'

/-- A step of the tab that re-sends only what was rejected before some core. -/
theorem TabRetries.posts (h : TabRetries s port tab) (hw : System.TabWired s port tab)
    {r : WorkerClient × List Send} {rejections : List Delivery} {last : Option Delivery}
    (hr : tab.client.Follows rejections last r) {received : ℕ} (hle : tab.received ≤ received)
    (hold : ∀ d ∈ rejections, d ∈ (deliveries s port).take received ∧
      (isLoss d.effect → d.epoch < epoch s))
    (hlast : ∀ d, last = some d → d ∈ (deliveries s port).take received) :
    TabRetries s port ⟨r.1,tab.outbox ++ r.2.map Send.message,received⟩ := by
  have hgrow : ∀ d ∈ handled s port tab, d ∈ (deliveries s port).take received :=
    fun d hd => List.take_subset_take_left _ hle hd
  refine ⟨fun entry he request d heq => ?_,fun entry he => ?_⟩
  · rcases hr.pending entry he request d heq with hwas | ⟨hid,hmem⟩
    · obtain ⟨hmem,hloss⟩ := h.pending entry hwas request d heq
      exact ⟨hgrow d hmem,hloss⟩
    · obtain ⟨htake,hlt⟩ := hold d hmem
      refine ⟨htake,fun hloss => ⟨hlt hloss,fun d' hd' o hmsg => ?_⟩⟩
      exact absurd hmsg (System.unused_replies (hw.unused entry.1 hid) d' hd' o)
  · rcases hr.waiting entry he with hwas | hnow
    · exact hgrow _ (h.waiting entry hwas)
    · exact hlast _ hnow

end Steps

namespace System

def sends (s : System) : Event → List Send
  | .receive port constructs =>
    match s.underway port with
    | [] => []
    | d :: _ => ((s.tabs port).client.onMessage d constructs).2
  | .tab port deed => ((s.tabs port).client.perform deed).2
  | _ => []

/-- The tab handles `d`, the rejection of a retry that followed the rejection `first`: the
caller sees `core disconnected`. -/
def Surfaces (s : System) (port : Port) (first d : Delivery) : Prop :=
  ∃ rest requestId request error, s.underway port = d :: rest ∧
    d.message = .reply requestId (.error error) ∧
    (s.tabs port).client.pending.lookup requestId = some (.rpc request (some first))

/-- What a step re-sends after a rejection by the router, it re-sends after a core was
attached since; a rejection surfaces only where a second core was lost. -/
structure Retried (s : System) (e : Event) : Prop where
  attached : ∀ m ∈ s.sends e, ∀ d, m.after = some d → isLoss d.effect → d.epoch < epoch s.router
  surfaced : ∀ port constructs first d, e = .receive port constructs → s.Surfaces port first d →
    isLoss first.effect → isLoss d.effect → LostTwice s.router first d

/-- A first attempt's rejection by the router, which the tab handles in this event. -/
def rejected (s : System) : Event → Option (Port × Delivery)
  | .receive port _ =>
    match s.underway port with
    | [] => none
    | d :: _ =>
      match d.message with
      | .reply requestId _ =>
        match (s.tabs port).client.pending.lookup requestId with
        | some (.rpc _ none) => if isLoss d.effect then some (port,d) else none
        | _ => none
      | _ => none
  | _ => none

/-- The tab's `coreReady` promise is pending when it handles the router's rejection of a first
attempt, or a core was attached while the rejection was under way. -/
def AwaitsCore (s : System) (e : Event) : Prop :=
  match s.rejected e with
  | none => True
  | some (port,d) => (s.tabs port).client.ready = false ∨ d.epoch < epoch s.router

instance (s : System) (e : Event) : Decidable (s.AwaitsCore e) := by
  unfold AwaitsCore
  split <;> infer_instance

structure Retrying (s : System) : Prop where
  wired : s.Wired
  tab : ∀ port, TabRetries s.router port (s.tabs port)

theorem retrying_initial : Retrying initial :=
  ⟨wired_initial,fun _ => ⟨fun _ h => absurd h List.not_mem_nil,fun _ h => absurd h List.not_mem_nil⟩⟩

/-- Under the condition, what is re-sent at once follows a rejection older than some core. -/
theorem retriesOn_older {s : System} (h : Retrying s) {port : Port} {constructs : Bool}
    {d : Delivery} {rest : List Delivery} (hd : s.underway port = d :: rest)
    (hC : s.AwaitsCore (.receive port constructs)) :
    ∀ first ∈ (s.tabs port).client.retriesOn d,
      first ∈ handled s.router port (s.tabs port) ++ [d] ∧
        (isLoss first.effect → first.epoch < epoch s.router) := by
  intro first hfirst
  unfold WorkerClient.retriesOn at hfirst
  split at hfirst
  · next hready =>
    obtain ⟨entry,he,rfl⟩ := List.mem_map.mp hfirst
    have hmem := (h.tab port).waiting entry he
    refine ⟨List.mem_append_left _ hmem,fun hloss => ?_⟩
    have hrest : (deliveries s.router port).drop (s.tabs port).received = d :: rest := hd
    have hin : d ∈ deliveries s.router port := List.mem_of_mem_drop (hrest ▸ List.mem_cons_self)
    have hlt := loss_before_ready h.wired.timeline hrest hmem hloss hready
      (deliveriesFrom_mem port hin).2
    exact Nat.lt_of_lt_of_le hlt (epoch_le hin)
  · next requestId error hmsg =>
    split at hfirst
    · next request hlookup =>
      split at hfirst
      · next hnow =>
        obtain rfl := List.mem_singleton.mp hfirst
        refine ⟨List.mem_append_right _ (List.mem_singleton.mpr rfl),fun hloss => ?_⟩
        simp only [AwaitsCore,rejected,hd,hmsg,hlookup,hloss,if_true] at hC
        simp only [Bool.and_eq_true] at hnow
        exact hC.resolve_left (by simp [hnow.2])
      · simp at hfirst
    · simp at hfirst
  · simp at hfirst

theorem Step.retrying {s t : System} {e : Event} (hst : Step s e t) (h : Retrying s)
    (hC : s.AwaitsCore e) : Retrying t := by
  refine ⟨hst.wired h.wired,fun p => ?_⟩
  have hw := h.wired.tab p
  have htab := h.tab p
  cases hst with
  | route re _ hre he hrouter hclient hreceived houtbox =>
    rw [hrouter]
    exact htab.route hw h.wired.sound he (hclient p) (hreceived p)
  | handle port constructs d rest hevent hd =>
    subst hevent
    by_cases hp : p = port
    · subst hp
      have hrest : (deliveries s.router p).drop (s.tabs p).received = d :: rest := hd
      rw [update_tabs_self]
      refine htab.posts hw (WorkerClient.onMessage_follows _ d constructs) (Nat.le_succ _) ?_ ?_
      · rw [handled_succ hrest]
        exact retriesOn_older h hd hC
      · rintro d' heq
        obtain rfl := Option.some.inj heq
        rw [handled_succ hrest]
        exact List.mem_append_right _ (List.mem_singleton.mpr rfl)
    · rw [update_tabs_of_ne s hp]
      exact htab
  | perform port deed _ _ =>
    by_cases hp : p = port
    · subst hp
      rw [update_tabs_self]
      exact htab.posts hw (WorkerClient.perform_follows _ deed) Nat.le.refl
        (fun _ hd => absurd hd List.not_mem_nil) (fun _ heq => by simp at heq)
    · rw [update_tabs_of_ne s hp]
      exact htab

theorem Retrying.retried {s : System} (h : Retrying s) {e : Event} (hC : s.AwaitsCore e) :
    s.Retried e := by
  refine ⟨fun m hm d hd hloss => ?_,fun port constructs first d _ hsurf hfirst hloss => ?_⟩
  · cases e with
    | receive port constructs =>
      simp only [sends] at hm
      split at hm
      · simp at hm
      · next d' rest hunder =>
        have hmem := (WorkerClient.onMessage_follows _ d' constructs).sends m hm d hd
        exact (retriesOn_older h hunder hC d hmem).2 hloss
    | tab port deed =>
      have hmem := ((s.tabs port).client.perform_follows deed).sends m hm d hd
      simp at hmem
    | router | deliver => simp [sends] at hm
  · obtain ⟨rest,requestId,request,error,hd,hmsg,hlookup⟩ := hsurf
    have hrest : (deliveries s.router port).drop (s.tabs port).received = d :: rest := hd
    have hin : d ∈ deliveries s.router port := List.mem_of_mem_drop (hrest ▸ List.mem_cons_self)
    obtain ⟨hmem,hold⟩ := (h.tab port).pending _ (WorkerClient.mem_of_lookup hlookup) request first rfl
    exact lost_between h.wired.timeline hrest hmem hfirst hloss
      ((hold hfirst).2 d hin _ hmsg)

/-- A step that re-sends only after a core was attached meets the condition. -/
theorem Retried.awaitsCore {s : System} {e : Event} (h : s.Retried e) : s.AwaitsCore e := by
  unfold AwaitsCore
  split
  · trivial
  · next port d hrej =>
    cases e with
    | receive p constructs =>
      simp only [rejected] at hrej
      split at hrej
      · simp at hrej
      · next d' rest hunder =>
        split at hrej
        · next requestId outcome hmsg =>
          split at hrej
          · next request hlookup =>
            split at hrej
            · next hloss =>
              simp only [Option.some.injEq,Prod.mk.injEq] at hrej
              obtain ⟨rfl,rfl⟩ := hrej
              cases hready : (s.tabs p).client.ready with
              | false => exact .inl rfl
              | true =>
                have hrest : (deliveries s.router p).drop (s.tabs p).received = d' :: rest := hunder
                have hin : d' ∈ deliveries s.router p :=
                  List.mem_of_mem_drop (hrest ▸ List.mem_cons_self)
                obtain ⟨_,herror⟩ := loss_message hloss (deliveriesFrom_mem p hin).2
                obtain ⟨rfl,rfl⟩ := ToTab.reply.inj (hmsg.symm.trans herror)
                refine .inr (h.attached ⟨⟨(s.tabs p).client.nextId,request⟩,some d'⟩ ?_ d' rfl hloss)
                have hmentions : WorkerClient.mentionsLoss "core disconnected" = true := by decide
                simp [sends,hunder,WorkerClient.onMessage,WorkerClient.onReply,hmsg,hlookup,
                  hmentions,WorkerClient.whenReady,hready,WorkerClient.retryAll,
                  WorkerClient.rpcOnce]
            · simp at hrej
          · simp at hrej
        · simp at hrej
    | router | deliver | tab => simp [rejected] at hrej

/-- Over a run every retry follows a core attached since the rejection, and a rejection
surfaces only after two lost cores, exactly when no tab handles the router's rejection of a
first attempt with `coreReady` still resolved from before. -/
theorem run_retried_iff {es : List Event} (hr : machine.Run initial es) :
    (∀ p ∈ machine.trail initial es, p.1.Retried p.2) ↔
      ∀ p ∈ machine.trail initial es, p.1.AwaitsCore p.2 := by
  refine ⟨fun h p hp => (h p hp).awaitsCore,fun h p hp => ?_⟩
  have hstep : ∀ s e, Retrying s → machine.enabled s e → s.AwaitsCore e →
      Retrying (machine.next s e) := fun s e hs he hC => (next_step he).retrying hs hC
  exact (hr.mem_trail_of hstep retrying_initial h hp).1.retried (h p hp)

/-- An RPC that is called before any core is attached. -/
def earlyCallRun : List Event :=
  [.router (.connect 0 false),.tab 0 (.rpc (.core ⟨.stateless "position",.undefined,"{}"⟩)),
    .deliver 0 1 false,.receive 0 true,.receive 0 true,.receive 0 true,.deliver 0 2 false,
    .receive 0 true,.receive 0 true,.deliver 0 3 false]

theorem earlyCallRun_retried : machine.Run initial earlyCallRun ∧
    ∀ p ∈ machine.trail initial earlyCallRun, p.1.Retried p.2 :=
  ⟨by decide,(run_retried_iff (by decide)).mpr (by decide)⟩

/-- The tab that hosts the core leaves while another one's RPC is in flight; no model is
loaded. -/
def hostLeavesRun : List Event :=
  [.router (.connect 0 false),.receive 0 true,.receive 0 true,.deliver 0 1 false,
    .router (.connect 2 false),.router (.coreMessage 0 (.reply 1000000000 (.ok "true")) 3),
    .receive 1 true,.receive 1 true,
    .tab 1 (.rpc (.core ⟨.stateless "position",.undefined,"{}"⟩)),.deliver 1 4 false,
    .tab 0 .onLeave,.deliver 0 5 false,.receive 1 true,.receive 1 true]

/-- The RPC is re-sent at once, with no core attached since. -/
theorem hostLeavesRun_early :
    ¬ ∀ es, machine.Run initial es → ∀ p ∈ machine.trail initial es, p.1.Retried p.2 := by
  intro h
  have hlast : (machine.exec initial (hostLeavesRun.take 13),.receive 1 true) ∈
      machine.trail initial hostLeavesRun :=
    .tail _ (.tail _ (.tail _ (.tail _ (.tail _ (.tail _ (.tail _ (.tail _ (.tail _ (.tail _
      (.tail _ (.tail _ (.tail _ (.head _)))))))))))))
  exact absurd (h hostLeavesRun (by decide) _ hlast).awaitsCore (by decide)

end System
end Rullama.Client
