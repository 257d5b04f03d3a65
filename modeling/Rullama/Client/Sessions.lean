import Rullama.Client.Wire

/-! # No session is lost between the router and its tab

The session that the router holds open for a connected tab is on its way to the call it
was granted to, or recorded by the client, or on its way back. The exception is a call made
with a signal that is aborted already: its promise is rejected at once, and where the
router grants it nevertheless, nobody returns the session.
-/
namespace Rullama.Client
open Router Transition

def isAcquire : Request → Bool
  | .acquireSession _ => true
  | _ => false

theorem callable_not_acquire {request : Request} (h : Callable request) :
    isAcquire request = false := by
  cases request <;> first | rfl | simp [Callable] at h

namespace WorkerClient

/-- The keys of `pending` were given out, and no acquire is ever retried. -/
structure Tidy (c : WorkerClient) : Prop where
  keys : ∀ entry ∈ c.pending, entry.1 < c.nextId
  requests : ∀ entry ∈ c.pending, ∀ request after, entry.2 = .rpc request after →
    isAcquire request = false
  waiting : ∀ entry ∈ c.waiting, isAcquire entry.1 = false

/-- A step that neither makes nor settles an acquire call. The session stays, or it is
posted back. -/
structure Keeps (c : WorkerClient) (r : WorkerClient × List Send) : Prop where
  calls : ∀ k ∈ r.1.calls, ∃ k' ∈ c.calls, k.requestId = k'.requestId ∧ k.outcome = k'.outcome ∧
    (k.signal = .aborted ↔ k'.signal = .aborted)
  ids : ∀ k ∈ c.calls, ∃ k' ∈ r.1.calls, k'.requestId = k.requestId
  session : ∀ sid, c.session = some sid → r.1.session = some sid ∨
    ∃ m ∈ r.2, m.message.request = .releaseSession (.number sid)
  pending : ∀ requestId, c.pending.lookup requestId = some .acquire →
    r.1.pending.lookup requestId = some .acquire
  sends : ∀ m ∈ r.2, isAcquire m.message.request = false

section Keeps
variable {c d : WorkerClient}

theorem keeps_of_eq {sends : List Send} (hcalls : d.calls = c.calls)
    (hsession : d.session = c.session)
    (hpending : ∀ requestId, c.pending.lookup requestId = some .acquire →
      d.pending.lookup requestId = some .acquire)
    (hsends : ∀ m ∈ sends, isAcquire m.message.request = false) : c.Keeps (d,sends) := by
  refine ⟨fun k hk => ⟨k,hcalls ▸ hk,rfl,rfl,Iff.rfl⟩,fun k hk => ⟨k,hcalls ▸ hk,rfl⟩,
    fun sid hsid => .inl (hsession.trans hsid),hpending,hsends⟩

theorem Keeps.trans {e : WorkerClient} {first rest : List Send} (h : c.Keeps (d,first))
    (h' : d.Keeps (e,rest)) : c.Keeps (e,first ++ rest) := by
  refine ⟨fun k hk => ?_,fun k hk => ?_,fun sid hsid => ?_,fun requestId hid => ?_,?_⟩
  · obtain ⟨k',hk',hid,hout,hsig⟩ := h'.calls k hk
    obtain ⟨k'',hk'',hid',hout',hsig'⟩ := h.calls k' hk'
    exact ⟨k'',hk'',hid.trans hid',hout.trans hout',hsig.trans hsig'⟩
  · obtain ⟨k',hk',hid⟩ := h.ids k hk
    obtain ⟨k'',hk'',hid'⟩ := h'.ids k' hk'
    exact ⟨k'',hk'',hid'.trans hid⟩
  · rcases h.session sid hsid with hd | ⟨m,hm,hreq⟩
    · rcases h'.session sid hd with he | ⟨m,hm,hreq⟩
      · exact .inl he
      · exact .inr ⟨m,List.mem_append_right _ hm,hreq⟩
    · exact .inr ⟨m,List.mem_append_left _ hm,hreq⟩
  · exact h'.pending requestId (h.pending requestId hid)
  · exact List.forall_mem_append.mpr ⟨h.sends,h'.sends⟩

theorem lookup_snoc {pending : List (ℤ × Pending)} {requestId : ℤ} {p : Pending}
    (h : pending.lookup requestId = some p) (entry : ℤ × Pending) :
    (pending ++ [entry]).lookup requestId = some p := by
  rw [List.lookup_append,h]
  rfl

theorem lookup_filter_ne {pending : List (ℤ × Pending)} {requestId gone : ℤ}
    (h : requestId ≠ gone) : (pending.filter (fun entry => entry.1 ≠ gone)).lookup requestId =
      pending.lookup requestId := by
  induction pending with
  | nil => rfl
  | cons entry pending ih =>
    obtain ⟨key,p⟩ := entry
    by_cases hkey : key = gone
    · have hne : (requestId == key) = false := by simp [hkey,h]
      rw [List.filter_cons_of_neg (by simp [hkey]),List.lookup_cons,hne,ih]
    · rw [List.filter_cons_of_pos (by simp [hkey]),List.lookup_cons,List.lookup_cons,ih]

theorem rpcOnce_keeps (c : WorkerClient) {request : Request} (h : isAcquire request = false)
    (after : Option Delivery) : c.Keeps (c.rpcOnce request after) :=
  keeps_of_eq rfl rfl (fun _ hid => lookup_snoc hid _) (List.forall_mem_singleton.mpr h)

theorem notice_keeps (hcalls : d.calls = c.calls) (hsession : d.session = c.session)
    (hpending : d.pending = c.pending) {request : Request} (h : isAcquire request = false) :
    c.Keeps (d,[notice request]) :=
  keeps_of_eq hcalls hsession (fun _ hid => hpending ▸ hid) (List.forall_mem_singleton.mpr h)

theorem nil_keeps (hcalls : d.calls = c.calls) (hsession : d.session = c.session)
    (hpending : d.pending = c.pending) : c.Keeps (d,[]) :=
  keeps_of_eq hcalls hsession (fun _ hid => hpending ▸ hid) (fun _ h => absurd h List.not_mem_nil)

theorem spawnCore_keeps (c : WorkerClient) (constructs : Bool) : c.Keeps (c.spawnCore constructs) := by
  unfold spawnCore
  split
  · exact nil_keeps rfl rfl rfl
  · exact keeps_of_eq rfl rfl (fun _ hid => lookup_snoc hid _) (List.forall_mem_singleton.mpr rfl)

theorem onAbort_keeps (c : WorkerClient) (requestId : ℤ) : c.Keeps (c.onAbort requestId) := by
  unfold onAbort
  simp only
  split
  · exact nil_keeps rfl rfl rfl
  · refine ⟨fun k hk => ?_,fun k hk => ?_,fun sid hsid => .inl hsid,fun _ hid => hid,
      List.forall_mem_singleton.mpr rfl⟩
    · obtain ⟨k',hk',rfl⟩ := List.mem_map.mp hk
      refine ⟨k',hk',?_⟩
      split
      · next hlistens =>
        have hlive := (of_decide_eq_true hlistens).2
        exact ⟨rfl,rfl,by simp [hlive]⟩
      · exact ⟨rfl,rfl,Iff.rfl⟩
    · refine ⟨_,List.mem_map_of_mem hk,?_⟩
      split <;> rfl

theorem releaseSession_keeps (c : WorkerClient) : c.Keeps c.releaseSession := by
  unfold releaseSession
  cases hs : c.session with
  | none => exact nil_keeps rfl rfl rfl
  | some sid =>
    refine ⟨fun k hk => ⟨k,hk,rfl,rfl,Iff.rfl⟩,fun k hk => ⟨k,hk,rfl⟩,fun n hn => .inr ?_,
      fun _ hid => lookup_snoc hid _,List.forall_mem_singleton.mpr rfl⟩
    obtain rfl := Option.some.inj (hs.symm.trans hn)
    exact ⟨_,List.mem_singleton.mpr rfl,rfl⟩

theorem retryAll_keeps (c : WorkerClient) {retries : List (Request × Delivery)}
    (h : ∀ entry ∈ retries, isAcquire entry.1 = false) : c.Keeps (c.retryAll retries) := by
  induction retries generalizing c with
  | nil => exact nil_keeps rfl rfl rfl
  | cons entry rest ih =>
    rw [List.forall_mem_cons] at h
    exact (c.rpcOnce_keeps h.1 _).trans (ih _ h.2)

theorem whenReady_keeps (c : WorkerClient) {request : Request} (h : isAcquire request = false)
    (rejection : Delivery) : c.Keeps (c.whenReady request rejection) := by
  unfold whenReady
  split
  · exact c.retryAll_keeps (List.forall_mem_singleton.mpr h)
  · exact nil_keeps rfl rfl rfl

/-- All that a tab does of its own accord, but for acquiring. -/
theorem perform_keeps (c : WorkerClient) {deed : Deed}
    (hcall : ∀ request, deed = .rpc request → isAcquire request = false)
    (hne : ∀ abortToken signal, deed ≠ .acquireSession abortToken signal) :
    c.Keeps (c.perform deed) := by
  cases deed with
  | acquireSession abortToken signal => exact absurd rfl (hne abortToken signal)
  | onAbort requestId => exact c.onAbort_keeps requestId
  | releaseSession => exact c.releaseSession_keeps
  | rpc request => exact c.rpcOnce_keeps (hcall request rfl) none
  | ping | teardownCore | onLeave => exact notice_keeps (by rfl) (by rfl) (by rfl) (by rfl)

end Keeps

section Tidy
variable {c : WorkerClient}

theorem Tidy.same (h : c.Tidy) {d : WorkerClient} (hid : d.nextId = c.nextId)
    (hpending : ∀ entry ∈ d.pending, entry ∈ c.pending) (hwaiting : ∀ entry ∈ d.waiting,
      isAcquire entry.1 = false) : d.Tidy :=
  ⟨fun entry he => hid ▸ h.keys entry (hpending entry he),
    fun entry he => h.requests entry (hpending entry he),hwaiting⟩

/-- One more entry, under the next id. -/
theorem Tidy.snoc (h : c.Tidy) {d : WorkerClient} {p : Pending} (hid : d.nextId = c.nextId + 1)
    (hpending : d.pending = c.pending ++ [(c.nextId,p)]) (hwaiting : d.waiting = c.waiting)
    (hp : ∀ request after, p = .rpc request after → isAcquire request = false) : d.Tidy := by
  refine ⟨?_,?_,hwaiting ▸ h.waiting⟩
  · rw [hpending,hid]
    refine List.forall_mem_append.mpr ⟨fun entry he => ?_,?_⟩
    · exact Int.lt_trans (h.keys entry he) (Int.lt_succ _)
    · exact List.forall_mem_singleton.mpr (Int.lt_succ _)
  · rw [hpending]
    exact List.forall_mem_append.mpr ⟨h.requests,List.forall_mem_singleton.mpr hp⟩

theorem rpcOnce_tidy (h : c.Tidy) {request : Request} (hr : isAcquire request = false)
    (after : Option Delivery) : (c.rpcOnce request after).1.Tidy := by
  refine h.snoc rfl rfl rfl (fun request' after' heq => ?_)
  obtain ⟨rfl,_⟩ := Pending.rpc.inj heq
  exact hr

theorem retryAll_tidy (h : c.Tidy) {retries : List (Request × Delivery)}
    (hr : ∀ entry ∈ retries, isAcquire entry.1 = false) : (c.retryAll retries).1.Tidy := by
  induction retries generalizing c with
  | nil => exact h
  | cons entry rest ih =>
    rw [List.forall_mem_cons] at hr
    exact ih (rpcOnce_tidy h hr.1 _) hr.2

theorem whenReady_tidy (h : c.Tidy) {request : Request} (hr : isAcquire request = false)
    (rejection : Delivery) : (c.whenReady request rejection).1.Tidy := by
  unfold whenReady
  split
  · exact retryAll_tidy h (List.forall_mem_singleton.mpr hr)
  · exact h.same rfl (fun _ he => he)
      (List.forall_mem_append.mpr ⟨h.waiting,List.forall_mem_singleton.mpr hr⟩)

theorem onReply_tidy (h : c.Tidy) (d : Delivery) (requestId : ℤ) (outcome : Except String Result) :
    (c.onReply d requestId outcome).1.Tidy := by
  have hrest : Tidy { c with pending := c.pending.filter (fun entry => entry.1 ≠ requestId) } :=
    h.same rfl (fun _ he => (List.mem_filter.mp he).1) h.waiting
  unfold onReply
  split
  · exact h
  · next p hp =>
    simp only
    split
    · exact hrest.same rfl (fun _ he => he) h.waiting
    · next request error =>
      split
      · exact whenReady_tidy hrest (h.requests _ (mem_of_lookup hp) request none rfl) d
      · exact hrest
    · exact hrest
    · exact hrest

theorem onMessage_tidy (h : c.Tidy) (d : Delivery) (constructs : Bool) :
    (c.onMessage d constructs).1.Tidy := by
  unfold onMessage
  split
  · exact h
  · unfold spawnCore
    split
    · exact h
    · exact h.snoc rfl rfl rfl (fun _ _ heq => by simp at heq)
  · have hready : Tidy { c with ready := true, waiting := [] } :=
      h.same rfl (fun _ he => he) (fun _ he => absurd he List.not_mem_nil)
    exact retryAll_tidy hready h.waiting
  · exact h.same rfl (fun _ he => he) (fun _ he => absurd he List.not_mem_nil)
  · exact h
  · exact onReply_tidy h d _ _

theorem perform_tidy (h : c.Tidy) (deed : Deed)
    (hdeed : ∀ request, deed = .rpc request → isAcquire request = false) :
    (c.perform deed).1.Tidy := by
  cases deed with
  | acquireSession abortToken signal => exact h.snoc rfl rfl rfl (fun _ _ heq => by simp at heq)
  | onAbort requestId =>
    unfold perform onAbort
    simp only
    split
    · exact h
    · exact h.same rfl (fun _ he => he) h.waiting
  | releaseSession =>
    unfold perform releaseSession
    simp only
    split
    · exact h
    · have hreleased : Tidy { c with session := none } := h.same rfl (fun _ he => he) h.waiting
      exact rpcOnce_tidy hreleased rfl none
  | rpc request => exact rpcOnce_tidy h (hdeed request rfl) none
  | ping | teardownCore | onLeave => exact h.same rfl (fun _ he => he) h.waiting

end Tidy

/-- A message from the router settles an acquire call, or keeps them all. -/
theorem onMessage_cases {c : WorkerClient} (h : c.Tidy) (d : Delivery) (constructs : Bool) :
    (c.Keeps (c.onMessage d constructs) ∧ ∀ requestId outcome,
      d.message = .reply requestId outcome → c.pending.lookup requestId ≠ some .acquire) ∨
    ∃ requestId outcome, d.message = .reply requestId outcome ∧
      c.pending.lookup requestId = some .acquire ∧ c.onMessage d constructs =
        ({ c with pending := c.pending.filter (fun entry => entry.1 ≠ requestId) }.settleAcquire
          requestId (outcome.map toSid),[]) := by
  obtain ⟨stamp,fx,message⟩ := d
  cases message with
  | log args => exact .inl ⟨nil_keeps rfl rfl rfl,fun _ _ heq => by simp at heq⟩
  | notify n =>
    refine .inl ⟨?_,fun _ _ heq => by simp at heq⟩
    cases n with
    | pleaseSpawnCore => exact c.spawnCore_keeps constructs
    | coreReady =>
      have hready : c.Keeps ({ c with ready := true, waiting := [] },[]) := nil_keeps rfl rfl rfl
      exact hready.trans (retryAll_keeps _ h.waiting)
    | modelFreed | metaInfo | modelLoaded | updateAvailable | applyingUpdate | other =>
      exact nil_keeps rfl rfl rfl
  | reply requestId outcome =>
    by_cases hacquire : c.pending.lookup requestId = some .acquire
    · refine .inr ⟨requestId,outcome,rfl,hacquire,?_⟩
      simp only [onMessage,onReply,hacquire]
    · refine .inl ⟨?_,fun r o heq => ?_⟩
      · have hrest : ∀ sends, (∀ m ∈ sends, isAcquire m.message.request = false) → c.Keeps
            ({ c with pending := c.pending.filter (fun entry => entry.1 ≠ requestId) },sends) := by
          refine fun sends hsends => keeps_of_eq rfl rfl (fun id hid => ?_) hsends
          have hne : id ≠ requestId := fun heq => hacquire (heq ▸ hid)
          rw [lookup_filter_ne hne,hid]
        have hnil := hrest [] (fun _ he => absurd he List.not_mem_nil)
        cases hp : c.pending.lookup requestId with
        | none =>
          simp only [onMessage,onReply,hp]
          exact nil_keeps rfl rfl rfl
        | some p =>
          have hmem := mem_of_lookup hp
          simp only [onMessage,onReply,hp]
          split
          · exact absurd hp hacquire
          · split
            · exact hnil.trans (whenReady_keeps _ (h.requests _ hmem _ _ rfl) _)
            · exact hnil
          · exact hnil
          · exact hnil
      · obtain ⟨rfl,_⟩ := ToTab.reply.inj heq
        exact hacquire

end WorkerClient

/-- What the router and the tab hold about one acquire call. -/
structure CallKept (s : State) (port : Port) (tab : Tab) (k : AcquireCall) : Prop where
  positive : 0 < k.requestId
  below : k.requestId < tab.client.nextId
  message : ∀ m ∈ tab.outbox, m.requestId = k.requestId → isAcquire m.request
  acquireOnly : s.AcquireOnly port k.requestId
  waits : k.outcome = none → tab.client.pending.lookup k.requestId = some .acquire
  settled : ∀ o, k.outcome = some o → k.signal = .aborted ∧ o = .error "aborted" ∨
    ∃ d ∈ handled s port tab, ∃ r, d.message = .reply k.requestId r ∧ o = r.map WorkerClient.toSid
  recorded : k.signal ≠ .aborted → ∀ d ∈ handled s port tab, ∀ sid,
    d.message = .reply k.requestId (.ok (.sid sid)) → k.outcome = some (.ok sid)
  kept : ∀ sid, k.outcome = some (.ok sid) → s.arbiter.active = some ⟨sid,port⟩ →
    tab.client.session = some sid ∨ ∃ m ∈ tab.outbox, m.request = .releaseSession (.number sid)
  wanted : ∀ w sid, .granted w sid ∈ s.arbiter.history → w.port = port →
    w.requestId = k.requestId → k.signal ≠ .aborted

structure TabKept (s : State) (port : Port) (tab : Tab) : Prop where
  tidy : tab.client.Tidy
  calls : ∀ k ∈ tab.client.calls, CallKept s port tab k
  acquires : ∀ m ∈ tab.outbox, isAcquire m.request → ∃ k ∈ tab.client.calls,
    k.requestId = m.requestId
  waiters : ∀ w ∈ s.arbiter.waiters, w.port = port → ∃ k ∈ tab.client.calls,
    k.requestId = w.requestId

section Unique
variable {s : State} {port : Port} {tab : Tab}

/-- A request that has been replied to is owed no second reply. -/
theorem handled_once (h : System.TabWired s port tab) {requestId : ℤ} (hpos : 0 < requestId)
    {d : Delivery} (hunder : d ∈ (deliveries s port).drop tab.received)
    {r r' : Except String Result} (hd : d.message = .reply requestId r) :
    ∀ d' ∈ handled s port tab, d'.message ≠ .reply requestId r' := by
  intro d' hd' hmsg
  have hfirst : 0 < (handled s port tab).countP (Delivery.repliesTo requestId) :=
    List.countP_pos_iff.mpr ⟨d',hd',by simp [Delivery.repliesTo,hmsg]⟩
  have hsecond : 0 < ((deliveries s port).drop tab.received).countP
      (Delivery.repliesTo requestId) :=
    List.countP_pos_iff.mpr ⟨d,hunder,by simp [Delivery.repliesTo,hd]⟩
  have hcount := deliveriesFrom_countP port requestId 0 s.trace
  change (deliveries s port).countP _ = _ at hcount
  rw [← List.take_append_drop tab.received (deliveries s port),List.countP_append] at hcount
  have hone := h.once requestId hpos
  unfold System.named State.owed at hone
  unfold handled at hfirst
  omega

/-- A session id under way is above all that came before. -/
theorem handled_lt (hs : s.Sound) (ht : s.Told) {d : Delivery} {rest : List Delivery}
    (hrest : (deliveries s port).drop tab.received = d :: rest) {id id' : ℤ} {sid sid' : ℕ}
    (hd : d.message = .reply id (.ok (.sid sid))) {d' : Delivery} (hd' : d' ∈ handled s port tab)
    (hmsg : d'.message = .reply id' (.ok (.sid sid'))) : sid' < sid := by
  have hsplit : deliveriesFrom port 0 s.trace = handled s port tab ++ d :: rest := by
    rw [handled,← hrest,List.take_append_drop]
    rfl
  obtain ⟨pre,post,htrace,hpre,_,htab⟩ := deliveriesFrom_split port hsplit
  rw [← hpre] at hd'
  obtain ⟨hmem,htab'⟩ := deliveriesFrom_mem port hd'
  rw [hmsg] at htab'
  rw [hd] at htab
  have hsorted := State.grants_sorted hs ht
  rw [htrace,List.filterMap_append] at hsorted
  refine (List.pairwise_append.mp hsorted).2.2 sid' ?_ sid ?_
  · exact List.mem_filterMap.mpr ⟨_,hmem,Effect.grant?_eq_some.mpr ⟨port,id',htab'⟩⟩
  · exact List.mem_filterMap.mpr ⟨_,List.mem_cons_self,Effect.grant?_eq_some.mpr ⟨port,id,htab⟩⟩

/-- A reply to an acquire call that brings a value brings a session id granted to it. -/
theorem reply_granted (ht : s.Told) {requestId : ℤ} (ha : s.AcquireOnly port requestId)
    {d : Delivery} (hd : d ∈ deliveries s port) {result : Result}
    (hmsg : d.message = .reply requestId (.ok result)) : ∃ sid w, result = .sid sid ∧
      .granted w sid ∈ s.arbiter.history ∧ w.port = port ∧ w.requestId = requestId := by
  obtain ⟨hmem,htab⟩ := deliveriesFrom_mem port hd
  rw [hmsg] at htab
  obtain ⟨sid,rfl⟩ := ha.replies _ hmem result htab
  obtain ⟨w,hw,hport,hid⟩ := ht.source _ hmem port requestId sid htab
  exact ⟨sid,w,rfl,hw,hport,hid⟩

/-- Where a call was resolved, the tab has handled its grant. -/
theorem CallKept.handledGrant (ht : s.Told) {k : AcquireCall} (h : CallKept s port tab k)
    {sid : ℕ} (hk : k.outcome = some (.ok sid)) :
    (∃ d ∈ handled s port tab, d.message = .reply k.requestId (.ok (.sid sid))) ∧
      ∃ w, .granted w sid ∈ s.arbiter.history := by
  rcases h.settled _ hk with ⟨_,herror⟩ | ⟨d,hd,r,hmsg,hr⟩
  · simp at herror
  · cases r with
    | error error => simp [Except.map] at hr
    | ok result =>
      obtain ⟨n,w,rfl,hw,_⟩ := reply_granted ht h.acquireOnly (List.mem_of_mem_take hd) hmsg
      obtain rfl : sid = n := Except.ok.inj hr
      exact ⟨⟨d,hd,hmsg⟩,w,hw⟩

end Unique

section Steps
variable {s : State} {port : Port} {tab : Tab}

/-- A step of the router that hands the session to no call that nobody waits for. -/
theorem TabKept.route (h : TabKept s port tab) (hw : System.TabWired s port tab) (hs : s.Sound)
    (ht : s.Told) {re : Router.Event} (he : Router.Enabled s re) {tab' : Tab}
    (hclient : tab'.client = tab.client) (hreceived : tab'.received = tab.received)
    (houtbox : tab.outbox = taken re port ++ tab'.outbox)
    (hwanted : ∀ w sid, .granted w sid ∈ (s.next re).arbiter.history → w.port = port →
      .granted w sid ∈ s.arbiter.history ∨
        ∀ k ∈ tab.client.calls, k.requestId = w.requestId → k.signal ≠ .aborted) :
    TabKept (s.next re) port tab' := by
  have hbox : ∀ m ∈ tab'.outbox, m ∈ tab.outbox := by
    intro m hm
    rw [houtbox]
    exact List.mem_append_right _ hm
  have htaken : ∀ msg now throws, re = .message port msg now throws → msg ∈ tab.outbox := by
    rintro msg now throws rfl
    rw [houtbox]
    exact List.mem_append_left _ (by simp [taken])
  have hhandled : handled (s.next re) port tab' = handled s port tab := by
    rw [handled,handled,System.next_deliveries hs he,hreceived,List.take_append_of_le_length hw.received]
  refine ⟨hclient ▸ h.tidy,fun k hk => ?_,fun m hm hacq => ?_,fun w hwait hport => ?_⟩
  · rw [hclient] at hk
    have hkept := h.calls k hk
    refine ⟨hkept.positive,hclient ▸ hkept.below,fun m hm => hkept.message m (hbox m hm),?_,
      hclient ▸ hkept.waits,hhandled ▸ hkept.settled,hhandled ▸ hkept.recorded,?_,?_⟩
    · refine State.next_acquireOnly hs he (fun msg now throws heq hid => ?_) hkept.acquireOnly
      have hacq := hkept.message msg (htaken msg now throws heq) hid
      unfold isAcquire at hacq
      split at hacq
      · next token heq => exact ⟨token,heq⟩
      · simp at hacq
    · intro sid hk hactive
      obtain ⟨_,w,hgranted⟩ := hkept.handledGrant ht hk
      have hle := State.granted_le hs hgranted
      rcases State.next_active hs he hactive with hwas | ⟨hlt,_⟩
      · rcases hkept.kept sid hk hwas with hsession | ⟨m,hm,hrelease⟩
        · exact .inl (hclient ▸ hsession)
        · rw [houtbox,List.mem_append] at hm
          rcases hm with hm | hm
          · cases re with
            | message p msg now throws =>
              simp only [taken] at hm
              split at hm
              · next hp =>
                subst hp
                obtain rfl := List.mem_singleton.mp hm
                obtain ⟨requestId,request⟩ := m
                obtain rfl : request = _ := hrelease
                exact absurd hactive (State.next_released hs he hwas)
              · simp at hm
            | _ => simp [taken] at hm
          · exact .inr ⟨m,hm,hrelease⟩
      · simp only at hlt
        omega
    · intro w sid hgranted hport hid
      rcases hwanted w sid hgranted hport with hold | hnew
      · exact hkept.wanted w sid hold hport hid
      · exact hnew k hk hid.symm
  · rw [hclient]
    exact h.acquires m (hbox m hm) hacq
  · rw [hclient]
    rcases State.next_waiters_cases hs he hwait with hold | ⟨token,now,throws,rfl⟩
    · exact h.waiters w hold hport
    · subst hport
      exact h.acquires _ (htaken _ now throws rfl) rfl

/-- New messages of a tab do not name a request it made before. -/
theorem fresh_ne {c : WorkerClient} {r : WorkerClient × List Send} (hr : c.Fresh r)
    {requestId : ℤ} (hpos : 0 < requestId) (hlt : requestId < c.nextId) :
    ∀ m ∈ r.2, m.message.requestId ≠ requestId := by
  intro m hm heq
  have hcount := hr.once requestId hpos
  rw [if_neg (by omega)] at hcount
  have hzero := List.countP_eq_zero.mp (Nat.le_zero.mp hcount) m hm
  simp [heq] at hzero

/-- What is held about a call stays where a step of the tab neither settles it nor drops the
session. -/
theorem CallKept.later {k k' : AcquireCall} (h : CallKept s port tab k')
    (hid : k.requestId = k'.requestId) (hout : k.outcome = k'.outcome)
    (hsig : k.signal = .aborted ↔ k'.signal = .aborted) {r : WorkerClient × List Send}
    (hfresh : tab.client.Fresh r)
    (hsession : ∀ sid, tab.client.session = some sid → r.1.session = some sid ∨
      ∃ m ∈ r.2, m.message.request = .releaseSession (.number sid))
    (hpending : ∀ requestId, tab.client.pending.lookup requestId = some .acquire →
      r.1.pending.lookup requestId = some .acquire)
    {received : ℕ} (hle : tab.received ≤ received)
    (hnew : ∀ d ∈ (deliveries s port).take received, d ∈ handled s port tab ∨
      ∀ o, d.message = .reply k'.requestId o → k'.signal = .aborted) :
    CallKept s port ⟨r.1,tab.outbox ++ r.2.map Send.message,received⟩ k := by
  have hidle := hfresh.nextId
  have hbelow := h.below
  have hne := fresh_ne hfresh h.positive hbelow
  refine ⟨hid ▸ h.positive,by simp only; omega,fun m hm hm' => ?_,hid ▸ h.acquireOnly,
    fun hnone => ?_,fun o ho => ?_,fun hlive d hd sid hmsg => ?_,fun sid hsid hactive => ?_,
    fun w sid hw hport hw' => ?_⟩
  · rcases List.mem_append.mp hm with hm | hm
    · exact h.message m hm (hm'.trans hid)
    · obtain ⟨send,hsend,rfl⟩ := List.mem_map.mp hm
      exact absurd (hm'.trans hid) (hne send hsend)
  · rw [hid]
    exact hpending _ (h.waits (hout ▸ hnone))
  · rw [hid,hsig]
    rcases h.settled o (hout ▸ ho) with haborted | ⟨d,hd,hreply⟩
    · exact .inl haborted
    · exact .inr ⟨d,List.take_subset_take_left _ hle hd,hreply⟩
  · rw [hid] at hmsg
    rw [ne_eq,hsig] at hlive
    rw [hout]
    rcases hnew d hd with hold | haborted
    · exact h.recorded hlive d hold sid hmsg
    · exact absurd (haborted _ hmsg) hlive
  · rcases h.kept sid (hout ▸ hsid) hactive with hheld | ⟨m,hm,hrelease⟩
    · apply (hsession sid hheld).imp_right
      rintro ⟨m,hm,hrelease⟩
      exact ⟨_,List.mem_append_right _ (List.mem_map_of_mem hm),hrelease⟩
    · exact .inr ⟨m,List.mem_append_left _ hm,hrelease⟩
  · rw [ne_eq,hsig]
    exact h.wanted w sid hw hport (hw'.trans hid)

/-- A tab's step that keeps the calls and handles no reply to an open one. -/
theorem TabKept.keeps (h : TabKept s port tab) {r : WorkerClient × List Send}
    (hfresh : tab.client.Fresh r) (hkeeps : tab.client.Keeps r) (htidy : r.1.Tidy) {received : ℕ}
    (hle : tab.received ≤ received)
    (hnew : ∀ d ∈ (deliveries s port).take received, d ∈ handled s port tab ∨
      ∀ k ∈ tab.client.calls, ∀ o, d.message = .reply k.requestId o → k.signal = .aborted) :
    TabKept s port ⟨r.1,tab.outbox ++ r.2.map Send.message,received⟩ := by
  refine ⟨htidy,fun k hk => ?_,fun m hm hacq => ?_,fun w hwait hport => ?_⟩
  · obtain ⟨k',hk',hid,hout,hsig⟩ := hkeeps.calls k hk
    exact (h.calls k' hk').later hid hout hsig hfresh hkeeps.session hkeeps.pending hle
      (fun d hd => (hnew d hd).imp_right (fun hd => hd k' hk'))
  · rcases List.mem_append.mp hm with hm | hm
    · obtain ⟨k,hk,hid⟩ := h.acquires m hm hacq
      obtain ⟨k',hk',hid'⟩ := hkeeps.ids k hk
      exact ⟨k',hk',hid'.trans hid⟩
    · obtain ⟨send,hsend,rfl⟩ := List.mem_map.mp hm
      rw [hkeeps.sends send hsend] at hacq
      simp at hacq
  · obtain ⟨k,hk,hid⟩ := h.waiters w hwait hport
    obtain ⟨k',hk',hid'⟩ := hkeeps.ids k hk
    exact ⟨k',hk',hid'.trans hid⟩

/-- Nothing is known yet of a request that was never made. -/
theorem unused_acquireOnly {requestId : ℤ} {outbox : List Message}
    (h : System.named s port outbox requestId = 0) : s.AcquireOnly port requestId := by
  have hreplies := System.unused_replies h
  unfold System.named State.owed at h
  have hpending : s.pendingChild.countP (PendingChild.serves port requestId ∘ Prod.snd) = 0 := by
    omega
  refine ⟨List.countP_eq_zero.mp hpending,fun fx hfx result hresult => ?_⟩
  obtain ⟨d,hd,_,hmsg⟩ := mem_deliveriesFrom port (k := 0) hfx hresult
  exact absurd hmsg (hreplies d hd _)

/-- The step that makes an acquire call. -/
theorem TabKept.acquire (h : TabKept s port tab) (hw : System.TabWired s port tab)
    (abortToken : String) (signal : Signal) :
    TabKept s port ⟨(tab.client.acquireSession abortToken signal).1,tab.outbox ++
      (tab.client.acquireSession abortToken signal).2.map Send.message,tab.received⟩ := by
  have hfresh := tab.client.acquireSession_fresh abortToken signal
  have htidy := WorkerClient.perform_tidy h.tidy (.acquireSession abortToken signal)
    (fun _ heq => by simp at heq)
  have hunused := hw.unused tab.client.nextId (Int.le_refl _)
  have honly := unused_acquireOnly hunused
  have hno := System.unused_replies hunused
  have hpos := hw.positive
  have hlookup : (tab.client.pending ++ [(tab.client.nextId,Pending.acquire)]).lookup
      tab.client.nextId = some .acquire := by
    have hnone : tab.client.pending.lookup tab.client.nextId = none := by
      by_contra hne
      obtain ⟨p,hp⟩ := Option.ne_none_iff_exists'.mp hne
      exact absurd (h.tidy.keys _ (WorkerClient.mem_of_lookup hp)) (Int.lt_irrefl _)
    rw [List.lookup_append,hnone]
    simp
  refine ⟨htidy,?_,?_,fun w hwait hport => ?_⟩
  · refine List.forall_mem_append.mpr ⟨fun k hk => ?_,List.forall_mem_singleton.mpr ?_⟩
    · exact (h.calls k hk).later rfl rfl Iff.rfl hfresh (fun sid hsid => .inl hsid)
        (fun _ hid => WorkerClient.lookup_snoc hid _) Nat.le.refl (fun d hd => .inl hd)
    · refine ⟨hpos,Int.lt_succ _,fun m hm hid => ?_,honly,fun _ => hlookup,fun o ho => .inl ?_,
        fun _ d hd sid hmsg => absurd hmsg (hno d (List.mem_of_mem_take hd) _),
        fun sid hsid => ?_,fun w sid hgranted hport hid => ?_⟩
      · rcases List.mem_append.mp hm with hm | hm
        · unfold System.named at hunused
          have hzero := List.countP_eq_zero.mp (Nat.eq_zero_of_add_eq_zero_right hunused) m hm
          simp [hid] at hzero
        · simp only [WorkerClient.acquireSession,List.map_cons,List.mem_cons] at hm
          rcases hm with rfl | hm
          · rfl
          · split at hm
            · obtain rfl := List.mem_singleton.mp hm
              simp only [WorkerClient.notice] at hid
              omega
            · simp at hm
      · simp only at ho
        split at ho
        · next hsignal => exact ⟨hsignal,(Option.some.inj ho).symm⟩
        · simp at ho
      · simp only at hsid
        split at hsid <;> simp at hsid
      · have hmem : w ∈ s.arbiter.waiters :=
          List.mem_append_right _ (List.mem_filterMap.mpr ⟨_,hgranted,rfl⟩)
        obtain ⟨k,hk,hkid⟩ := h.waiters w hmem hport
        have hbelow := (h.calls k hk).below
        simp only at hid
        omega
  · refine fun m hm hacq => ?_
    rcases List.mem_append.mp hm with hm | hm
    · obtain ⟨k,hk,hid⟩ := h.acquires m hm hacq
      exact ⟨k,List.mem_append_left _ hk,hid⟩
    · refine ⟨_,List.mem_append_right _ (List.mem_singleton.mpr rfl),?_⟩
      simp only [WorkerClient.acquireSession,List.map_cons,List.mem_cons] at hm
      rcases hm with rfl | hm
      · rfl
      · split at hm
        · obtain rfl := List.mem_singleton.mp hm
          simp [WorkerClient.notice,isAcquire] at hacq
        · simp at hm
  · obtain ⟨k,hk,hid⟩ := h.waiters w hwait hport
    exact ⟨k,List.mem_append_left _ hk,hid⟩

/-- The session of the holder is not overwritten: a later grant would have to be under way. -/
theorem TabKept.settle_session (h : TabKept s port tab) (hs : s.Sound) (ht : s.Told) {d : Delivery}
    {rest : List Delivery} (hrest : (deliveries s port).drop tab.received = d :: rest)
    (hmem : d ∈ deliveries s port) {requestId : ℤ} {outcome : Except String Result}
    (hd : d.message = .reply requestId outcome) {k : AcquireCall} (hk : CallKept s port tab k)
    {sid : ℕ} (hsid : k.outcome = some (.ok sid)) (hactive : s.arbiter.active = some ⟨sid,port⟩) :
    ({ tab.client with
      pending := tab.client.pending.filter (fun entry => entry.1 ≠ requestId) }.settleAcquire
        requestId (outcome.map WorkerClient.toSid)).session = tab.client.session := by
  cases outcome with
  | error error => rfl
  | ok result =>
    simp only [WorkerClient.settleAcquire,Except.map]
    split
    · next hany =>
      obtain ⟨k',hk',hopen⟩ := List.any_eq_true.mp hany
      simp only [Bool.and_eq_true,decide_eq_true_eq] at hopen
      have honly := (h.calls k' hk').acquireOnly
      rw [hopen.1] at honly
      obtain ⟨n,w,rfl,hgranted,_⟩ := reply_granted ht honly hmem hd
      obtain ⟨⟨d',hd',hmsg⟩,_⟩ := hk.handledGrant ht hsid
      have hlt := handled_lt hs ht hrest hd hd' hmsg
      have hle := State.granted_le hs hgranted
      have hlast : sid = s.arbiter.nextSid := State.active_sid_eq hs hactive
      omega
    · rfl

/-- The step that handles the reply to an open acquire call. -/
theorem TabKept.settle (h : TabKept s port tab) (hw : System.TabWired s port tab) (hs : s.Sound)
    (ht : s.Told) {d : Delivery} {rest : List Delivery}
    (hrest : (deliveries s port).drop tab.received = d :: rest) {requestId : ℤ}
    {outcome : Except String Result} (hd : d.message = .reply requestId outcome)
    (htidy : ({ tab.client with
      pending := tab.client.pending.filter (fun entry => entry.1 ≠ requestId) }.settleAcquire
        requestId (outcome.map WorkerClient.toSid)).Tidy) :
    TabKept s port ⟨{ tab.client with
      pending := tab.client.pending.filter (fun entry => entry.1 ≠ requestId) }.settleAcquire
        requestId (outcome.map WorkerClient.toSid),tab.outbox,tab.received + 1⟩ := by
  have hhandled := handled_succ hrest
  have hmem : d ∈ deliveries s port :=
    List.mem_of_mem_drop (hrest ▸ List.mem_cons_self)
  refine ⟨htidy,fun k hk => ?_,fun m hm hacq => ?_,fun w hwait hport => ?_⟩
  · obtain ⟨k',hk',rfl⟩ := List.mem_map.mp hk
    have hkept := h.calls k' hk'
    have hrecord : ∀ sid, k'.signal ≠ .aborted → k'.outcome ≠ none →
        d.message ≠ .reply k'.requestId (.ok (.sid sid)) := by
      intro sid hlive hclosed hmsg
      obtain ⟨o,ho⟩ := Option.ne_none_iff_exists'.mp hclosed
      rcases hkept.settled o ho with ⟨haborted,_⟩ | ⟨d',hd',r,hreply,_⟩
      · exact hlive haborted
      · exact handled_once hw hkept.positive (hrest ▸ List.mem_cons_self) hmsg d' hd' hreply
    by_cases hopen : k'.requestId = requestId ∧ k'.outcome = none
    · obtain ⟨rfl,hnone⟩ := hopen
      simp only [hnone,decide_true,Option.isNone_none,Bool.and_self,if_true]
      refine ⟨hkept.positive,hkept.below,hkept.message,hkept.acquireOnly,fun h => by simp at h,
        fun o ho => .inr ⟨d,?_,outcome,hd,(Option.some.inj ho).symm⟩,
        fun hlive d' hd' sid hmsg => ?_,fun sid hsid _ => .inl ?_,hkept.wanted⟩
      · rw [handled,hhandled]
        exact List.mem_append_right _ (List.mem_singleton.mpr rfl)
      · rw [handled,hhandled,List.mem_append,List.mem_singleton] at hd'
        rcases hd' with hold | rfl
        · have hdone := hkept.recorded hlive d' hold sid hmsg
          rw [hnone] at hdone
          simp at hdone
        · obtain ⟨_,rfl⟩ := ToTab.reply.inj (hd.symm.trans hmsg)
          rfl
      · have hany : tab.client.calls.any (fun k => decide (k.requestId = k'.requestId) &&
            k.outcome.isNone) = true :=
          List.any_eq_true.mpr ⟨k',hk',by simp [hnone]⟩
        simp only [Option.some.injEq] at hsid
        simp only [WorkerClient.settleAcquire,hsid,hany,if_true]
    · have hclosed : (decide (k'.requestId = requestId) && k'.outcome.isNone) = false := by
        simpa [Option.isSome_iff_ne_none] using hopen
      simp only [hclosed,Bool.false_eq_true,if_false]
      refine ⟨hkept.positive,hkept.below,hkept.message,hkept.acquireOnly,fun hnone => ?_,
        fun o ho => ?_,fun hlive d' hd' sid hmsg => ?_,fun sid hsid hactive => ?_,hkept.wanted⟩
      · have hne : k'.requestId ≠ requestId := fun hid => hopen ⟨hid,hnone⟩
        exact (WorkerClient.lookup_filter_ne hne).trans (hkept.waits hnone)
      · rcases hkept.settled o ho with haborted | ⟨d',hd',hreply⟩
        · exact .inl haborted
        · refine .inr ⟨d',?_,hreply⟩
          rw [handled,hhandled]
          exact List.mem_append_left _ hd'
      · rw [handled,hhandled,List.mem_append,List.mem_singleton] at hd'
        rcases hd' with hold | rfl
        · exact hkept.recorded hlive d' hold sid hmsg
        · obtain ⟨hid,_⟩ := ToTab.reply.inj (hd.symm.trans hmsg)
          exact absurd hmsg (hrecord sid hlive (fun hnone => hopen ⟨hid.symm,hnone⟩))
      · apply (hkept.kept sid hsid hactive).imp_left
        intro hheld
        rw [← hheld]
        exact h.settle_session hs ht hrest hmem hd hkept hsid hactive
  · obtain ⟨k,hk,hid⟩ := h.acquires m hm hacq
    refine ⟨_,List.mem_map_of_mem hk,?_⟩
    split <;> exact hid
  · obtain ⟨k,hk,hid⟩ := h.waiters w hwait hport
    refine ⟨_,List.mem_map_of_mem hk,?_⟩
    split <;> exact hid

end Steps

namespace System

/-- The call that is handed the session was not made with an aborted signal. -/
def Wanted (s : System) : Option (Port × ℤ) → Prop
  | none => True
  | some (port,requestId) => ∀ k ∈ (s.tabs port).client.calls, k.requestId = requestId →
      k.signal ≠ .aborted

/-- The event hands the session to no call that was made with an aborted signal. -/
def GrantsWanted (s : System) (e : Event) : Prop :=
  match s.routerEvent e with
  | none => True
  | some re => ∀ q ∈ Docket.machine.trail s.router.docket (s.router.docketEvents re),
      s.Wanted (q.1.successor q.2)

instance (s : System) (target : Option (Port × ℤ)) : Decidable (s.Wanted target) := by
  unfold Wanted
  split <;> infer_instance

instance (s : System) (e : Event) : Decidable (s.GrantsWanted e) := by
  unfold GrantsWanted
  split <;> infer_instance

/-- The grant of the session to this call is under way, or the call was resolved and the
session is recorded, or the message that returns it is not taken up yet. -/
def Accounted (s : System) (port : Port) (sid : ℕ) (k : AcquireCall) : Prop :=
  (k.outcome = none ∧ ∃ d ∈ s.underway port, d.message = .reply k.requestId (.ok (.sid sid))) ∨
    (k.outcome = some (.ok sid) ∧ ((s.tabs port).client.session = some sid ∨
      ∃ m ∈ (s.tabs port).outbox, m.request = .releaseSession (.number sid)))

/-- The session that a connected tab holds was granted to a call of the tab, which accounts
for it. -/
def NoLeak (s : System) : Prop :=
  ∀ a, s.router.arbiter.active = some a → a.port ∈ s.router.ports →
    ∃ w, .granted w a.sid ∈ s.router.arbiter.history ∧ w.port = a.port ∧
      ∃ k ∈ (s.tabs a.port).client.calls, k.requestId = w.requestId ∧ s.Accounted a.port a.sid k

structure Kept (s : System) : Prop where
  wired : s.Wired
  tab : ∀ port, TabKept s.router port (s.tabs port)

theorem kept_initial : Kept initial := by
  refine ⟨wired_initial,?_⟩
  intro port
  refine ⟨⟨?_,?_,?_⟩,?_,?_,?_⟩ <;>
    · intro _ h
      exact absurd h List.not_mem_nil

/-- Whoever an event grants the session was wanted. -/
theorem granted_wanted {s : System} (hs : s.router.Sound) {e : Event} {re : Router.Event}
    (hre : s.routerEvent e = some re) (he : Router.Enabled s.router re) (hC : s.GrantsWanted e)
    {w : Waiter} {sid : ℕ} (hw : .granted w sid ∈ (s.router.next re).arbiter.history) :
    .granted w sid ∈ s.router.arbiter.history ∨
      ∀ k ∈ (s.tabs w.port).client.calls, k.requestId = w.requestId → k.signal ≠ .aborted := by
  have harbiter : (s.router.next re).arbiter =
      (Docket.machine.exec s.router.docket (s.router.docketEvents re)).arbiter :=
    congrArg Docket.arbiter (State.next_docket hs he).1
  rw [harbiter] at hw
  apply (Docket.exec_granted hw).imp_right
  rintro ⟨q,hq,hsucc⟩
  simp only [GrantsWanted,hre] at hC
  have hwanted := hC q hq
  rwa [hsucc] at hwanted

theorem Step.kept {s t : System} {e : Event} (hst : Step s e t) (h : Kept s)
    (hC : s.GrantsWanted e) : Kept t := by
  refine ⟨hst.wired h.wired,fun p => ?_⟩
  obtain ⟨hwired,htab⟩ := h
  have hw := hwired.tab p
  cases hst with
  | route re _ hre he hrouter hclient hreceived houtbox =>
    rw [hrouter]
    apply (htab p).route hw hwired.sound hwired.told he (hclient p) (hreceived p) (houtbox p)
    rintro w sid hgranted rfl
    exact granted_wanted hwired.sound hre he hC hgranted
  | handle port constructs d rest _ hd =>
    by_cases hp : p = port
    · subst hp
      rw [update_tabs_self]
      have htidy := WorkerClient.onMessage_tidy (htab p).tidy d constructs
      rcases WorkerClient.onMessage_cases (htab p).tidy d constructs with ⟨hkeeps,hnot⟩ |
        ⟨requestId,outcome,hmsg,_,heq⟩
      · have hrest : (deliveries s.router p).drop (s.tabs p).received = d :: rest := hd
        refine (htab p).keeps (WorkerClient.onMessage_fresh _ d constructs) hkeeps htidy
          (Nat.le_succ _) (fun d' hd' => ?_)
        rw [handled_succ hrest,List.mem_append,List.mem_singleton] at hd'
        rcases hd' with hold | rfl
        · exact .inl hold
        · refine .inr (fun k hk o hmsg => ?_)
          have hkept := (htab p).calls k hk
          have hclosed : k.outcome ≠ none := fun hnone => hnot _ _ hmsg (hkept.waits hnone)
          obtain ⟨o',ho'⟩ := Option.ne_none_iff_exists'.mp hclosed
          rcases hkept.settled o' ho' with ⟨haborted,_⟩ | ⟨d'',hd'',r,hreply,_⟩
          · exact haborted
          · exact absurd hreply
              (handled_once hw hkept.positive (hrest ▸ List.mem_cons_self) hmsg d'' hd'')
      · rw [heq] at htidy ⊢
        rw [List.map_nil,List.append_nil]
        exact (htab p).settle hw hwired.sound hwired.told hd hmsg htidy
    · rw [update_tabs_of_ne s hp]
      exact htab p
  | perform port deed hdeed hen =>
    subst hdeed
    by_cases hp : p = port
    · subst hp
      rw [update_tabs_self]
      by_cases hacquire : ∃ abortToken signal, deed = .acquireSession abortToken signal
      · obtain ⟨abortToken,signal,rfl⟩ := hacquire
        exact (htab p).acquire hw abortToken signal
      · have hcall : ∀ request, deed = .rpc request → isAcquire request = false := by
          rintro request rfl
          exact callable_not_acquire hen.2
        refine (htab p).keeps (WorkerClient.perform_fresh _ deed)
          (WorkerClient.perform_keeps _ hcall (fun token signal heq => hacquire ⟨token,signal,heq⟩))
          (WorkerClient.perform_tidy (htab p).tidy _ hcall) Nat.le.refl (fun d hd => .inl hd)
    · rw [update_tabs_of_ne s hp]
      exact htab p

theorem Kept.noLeak {s : System} (h : Kept s) : NoLeak s := by
  intro a hactive hport
  obtain ⟨w,hgranted,hw,hpost⟩ := h.wired.told.active a hactive hport
  have htab := h.tab a.port
  have hwait : w ∈ s.router.arbiter.waiters :=
    List.mem_append_right _ (List.mem_filterMap.mpr ⟨_,hgranted,rfl⟩)
  obtain ⟨k,hk,hid⟩ := htab.waiters w hwait hw
  have hkept := htab.calls k hk
  have hlive := hkept.wanted w a.sid hgranted hw hid.symm
  refine ⟨w,hgranted,hw,k,hk,hid,?_⟩
  rw [← hid] at hpost
  obtain ⟨d,hd,_,hmsg⟩ := mem_deliveriesFrom a.port (k := 0) hpost rfl
  change d ∈ deliveries s.router a.port at hd
  rw [← List.take_append_drop (s.tabs a.port).received (deliveries s.router a.port),
    List.mem_append] at hd
  rcases hd with hd | hd
  · have hout := hkept.recorded hlive d hd a.sid hmsg
    exact .inr ⟨hout,hkept.kept a.sid hout hactive⟩
  · refine .inl ⟨?_,d,hd,hmsg⟩
    by_contra hclosed
    obtain ⟨o,ho⟩ := Option.ne_none_iff_exists'.mp hclosed
    rcases hkept.settled o ho with ⟨haborted,_⟩ | ⟨d',hd',r,hreply,_⟩
    · exact hlive haborted
    · exact handled_once (h.wired.tab a.port) hkept.positive hd hmsg d' hd' hreply

/-- Over a run that never hands the session to a call made with an aborted signal, every
session that a connected tab holds is accounted for by the call it was granted to. -/
theorem run_noLeak {es : List Event} (hr : machine.Run initial es)
    (hC : ∀ p ∈ machine.trail initial es, p.1.GrantsWanted p.2) :
    ∀ p ∈ machine.trail initial es, NoLeak (p.1.next p.2) := by
  intro p hp
  have hstep : ∀ s e, Kept s → machine.enabled s e → s.GrantsWanted e → Kept (machine.next s e) :=
    fun s e hs he hC => (next_step he).kept hs hC
  obtain ⟨hkept,he⟩ := hr.mem_trail_of hstep kept_initial hC hp
  exact (hstep _ _ hkept he (hC p hp)).noLeak

/-- An abort while the grant is in flight. -/
def lateAbortRun : List Event :=
  [.router (.connect 0 false),.tab 0 (.acquireSession "t" .live),.deliver 0 1 false,
    .tab 0 (.onAbort 1),.deliver 0 2 false,.receive 0 true,.receive 0 true,.receive 0 true]

theorem lateAbortRun_noLeak : machine.Run initial lateAbortRun ∧
    ∀ p ∈ machine.trail initial lateAbortRun, NoLeak (p.1.next p.2) :=
  ⟨by decide,run_noLeak (by decide) (by decide)⟩

/-- An acquire with a signal that is aborted already, while no session is open. -/
def abortedSignalRun : List Event :=
  [.router (.connect 0 false),.tab 0 (.acquireSession "t" .aborted),.deliver 0 1 false,
    .deliver 0 2 false,.receive 0 true,.receive 0 true,.receive 0 true,.receive 0 true]

/-- The promise was rejected as aborted, the router has taken up the cancel, and the tab keeps
the session. -/
theorem abortedSignalRun_leaks :
    ¬ ∀ es, machine.Run initial es → ∀ p ∈ machine.trail initial es, NoLeak (p.1.next p.2) := by
  intro h
  have hlast : (machine.exec initial (abortedSignalRun.take 7),.receive 0 true) ∈
      machine.trail initial abortedSignalRun :=
    .tail _ (.tail _ (.tail _ (.tail _ (.tail _ (.tail _ (.tail _ (.head _)))))))
  obtain ⟨w,_,_,k,hk,_,hacc⟩ := h abortedSignalRun (by decide) _ hlast ⟨2,0⟩ (by decide) (by decide)
  have hcalls : ((machine.exec initial abortedSignalRun).tabs 0).client.calls =
      [⟨"t",1,.aborted,some (.error "aborted")⟩] := rfl
  obtain rfl := List.mem_singleton.mp (hcalls ▸ hk)
  rcases hacc with ⟨hnone,_⟩ | ⟨hok,_⟩
  · simp at hnone
  · simp at hok

end System
end Rullama.Client
