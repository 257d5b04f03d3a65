import Mathlib.Algebra.GroupWithZero.Nat
import Mathlib.Data.List.Pairwise
import Rullama.Router.Tasks

/-! # Replies to forwarded RPCs

The trace is the ledger of what was forwarded and what was ended by a reply. An entry of
`pendingChild` is an RPC that was forwarded to the attached core and not ended yet, so
the four ways out of the map end each RPC once. The RPC whose post to the core throws
leaves the map before `loseCore` looks through it.
-/
namespace Rullama.Router
open Transition

/-- The forwarded RPC that a post ends. -/
def Effect.ended? : Effect → Option ℕ
  | .answer id _ _ _ | .reject id _ _ => some id
  | _ => none

def Effect.forwarded? : Effect → Option ℕ
  | .forward id _ _ _ _ _ => some id
  | _ => none

/-- The post ends the RPC at this port under this requestId. -/
def Effect.Ends (fx : Effect) (id : ℕ) (port : Port) (requestId : ℤ) : Prop :=
  (∃ outcome, fx = .answer id port requestId outcome) ∨ fx = .reject id port requestId

theorem Effect.ended?_eq {fx : Effect} {id : ℕ} :
    fx.ended? = some id ↔ ∃ port requestId, fx.Ends id port requestId := by
  cases fx <;> simp [Effect.ended?,Effect.Ends]

/-- Entries of a list that a partial function sends to one value are one entry, if no
value comes twice. -/
theorem eq_of_nodup_filterMap {α β : Type} {f : α → Option β} {l : List α}
    (hn : (l.filterMap f).Nodup) {a b : α} (ha : a ∈ l) (hb : b ∈ l) {x : β} (hfa : f a = some x)
    (hfb : f b = some x) : a = b := by
  by_contra hne
  have hpair := List.pairwise_filterMap.mp hn
  have : Std.Symm (fun a a' => ∀ x, f a = some x → ∀ y, f a' = some y → x ≠ y) :=
    ⟨fun _ _ h x hx y hy => (h y hy x hx).symm⟩
  exact hpair.forall ha hb hne x hfa x hfb rfl

namespace State

def endedIds (s : State) : List ℕ := s.trace.filterMap Effect.ended?

def forwardedIds (s : State) : List ℕ := s.trace.filterMap Effect.forwarded?

/-- The RPC was forwarded to this core, under this id. -/
def ForwardedTo (s : State) (id : ℕ) (core : Core) (port : Port) (requestId : ℤ) : Prop :=
  ∃ call posted, .forward id core port requestId call posted ∈ s.trace

/-- The trace and `pendingChild` agree. -/
structure Ledger (s : State) : Prop where
  ids_nodup : s.forwardedIds.Nodup
  ids_below : ∀ id ∈ s.forwardedIds, id < s.nextChildReqId
  once : s.endedIds.Nodup
  matched : ∀ fx ∈ s.trace, ∀ id port requestId, fx.Ends id port requestId →
    ∃ core, s.ForwardedTo id core port requestId
  senders : ∀ id core port requestId, s.ForwardedTo id core port requestId → port < s.nextPort
  keys : (s.pendingChild.map Prod.fst).Nodup
  pending : ∀ id port requestId, (id,PendingChild.mk port requestId) ∈ s.pendingChild →
    port ∈ s.ports ∧ id ∉ s.endedIds ∧
      ∃ core, s.corePort = some core ∧ s.ForwardedTo id core port requestId

theorem ledger_initial : Ledger .initial := by
  refine ⟨.nil,?_,.nil,?_,?_,.nil,?_⟩ <;> simp [initial,forwardedIds,ForwardedTo]

section Lemmas
variable {s t : State}

theorem ForwardedTo.mem {id : ℕ} {core : Core} {port : Port} {requestId : ℤ}
    (h : s.ForwardedTo id core port requestId) : id ∈ s.forwardedIds := by
  obtain ⟨call,posted,h⟩ := h
  exact List.mem_filterMap.mpr ⟨_,h,rfl⟩

/-- An id stands for one RPC. -/
theorem Ledger.unique (h : Ledger s) {id : ℕ} {core core' : Core} {port port' : Port}
    {requestId requestId' : ℤ} (h₁ : s.ForwardedTo id core port requestId)
    (h₂ : s.ForwardedTo id core' port' requestId') :
    core = core' ∧ port = port' ∧ requestId = requestId' := by
  obtain ⟨call,posted,h₁⟩ := h₁
  obtain ⟨call',posted',h₂⟩ := h₂
  have heq := eq_of_nodup_filterMap h.ids_nodup h₁ h₂ rfl rfl
  obtain ⟨_,hcore,hport,hid,_⟩ := Effect.forward.inj heq
  exact ⟨hcore,hport,hid⟩

theorem forwardedTo_append {effects : List Effect} (htrace : t.trace = s.trace ++ effects)
    {id : ℕ} {core : Core} {port : Port} {requestId : ℤ}
    (h : s.ForwardedTo id core port requestId) : t.ForwardedTo id core port requestId := by
  obtain ⟨call,posted,hmem⟩ := h
  exact ⟨call,posted,htrace ▸ List.mem_append_left _ hmem⟩

/-- The ledger after a change that forwards nothing: what it ends must have been
forwarded, what it keeps pending must be left open. -/
theorem Ledger.extend (h : Ledger s) {effects : List Effect}
    (htrace : t.trace = s.trace ++ effects) (hforward : ∀ fx ∈ effects, fx.forwarded? = none)
    (hid : t.nextChildReqId = s.nextChildReqId) (hnext : s.nextPort ≤ t.nextPort)
    (honce : t.endedIds.Nodup)
    (hmatched : ∀ fx ∈ effects, ∀ id port requestId, fx.Ends id port requestId →
      ∃ core, s.ForwardedTo id core port requestId)
    (hkeys : (t.pendingChild.map Prod.fst).Nodup)
    (hpending : ∀ id port requestId, (id,PendingChild.mk port requestId) ∈ t.pendingChild →
      port ∈ t.ports ∧ id ∉ t.endedIds ∧ (id,PendingChild.mk port requestId) ∈ s.pendingChild ∧
        t.corePort = s.corePort) : Ledger t := by
  have hforwarded : t.forwardedIds = s.forwardedIds := by
    unfold forwardedIds
    rw [htrace,List.filterMap_append,List.filterMap_eq_nil_iff.mpr hforward,List.append_nil]
  refine ⟨hforwarded ▸ h.ids_nodup,fun id hmem => ?_,honce,
    fun fx hfx id port requestId hends => ?_,fun id core port requestId hf => ?_,hkeys,
    fun id port requestId hmem => ?_⟩
  · rw [hforwarded] at hmem
    exact hid ▸ h.ids_below id hmem
  · rw [htrace] at hfx
    rcases List.mem_append.mp hfx with hfx | hfx
    · exact (h.matched fx hfx id port requestId hends).imp (fun _ => forwardedTo_append htrace)
    · exact (hmatched fx hfx id port requestId hends).imp (fun _ => forwardedTo_append htrace)
  · obtain ⟨call,posted,hmem⟩ := hf
    rw [htrace] at hmem
    rcases List.mem_append.mp hmem with hmem | hmem
    · exact Nat.lt_of_lt_of_le (h.senders id core port requestId ⟨call,posted,hmem⟩) hnext
    · simpa [Effect.forwarded?] using hforward _ hmem
  · obtain ⟨hport,hopen,hold,hcore⟩ := hpending id port requestId hmem
    obtain ⟨_,_,core,hc,hf⟩ := h.pending id port requestId hold
    exact ⟨hport,hopen,core,hcore.trans hc,forwardedTo_append htrace hf⟩

/-- With no core attached nothing is pending. -/
theorem Ledger.pending_nil (h : Ledger s) (hc : s.corePort = none) : s.pendingChild = [] := by
  refine List.eq_nil_iff_forall_not_mem.mpr (fun ⟨id,p⟩ hmem => ?_)
  obtain ⟨_,_,core,hcore,_⟩ := h.pending id p.port p.originalRequestId hmem
  exact absurd (hc.symm.trans hcore) (by simp)

/-- The ledger outlasts a change that forwards and ends nothing. -/
theorem Ledger.quiet (h : Ledger s) {effects : List Effect}
    (htrace : t.trace = s.trace ++ effects)
    (hplain : ∀ fx ∈ effects, fx.ended? = none ∧ fx.forwarded? = none)
    (hid : t.nextChildReqId = s.nextChildReqId) (hpending : t.pendingChild = s.pendingChild)
    (hcore : s.corePort = none ∨ t.corePort = s.corePort)
    (hports : ∀ p ∈ s.ports, p ∈ t.ports) (hnext : s.nextPort ≤ t.nextPort) : Ledger t := by
  have hended : t.endedIds = s.endedIds := by
    unfold endedIds
    rw [htrace,List.filterMap_append,List.filterMap_eq_nil_iff.mpr (fun fx h => (hplain fx h).1),
      List.append_nil]
  refine h.extend htrace (fun fx hfx => (hplain fx hfx).2) hid hnext (hended ▸ h.once)
    (fun fx hfx id port requestId hends => ?_) (hpending ▸ h.keys)
    (fun id port requestId hmem => ?_)
  · have hsome := Effect.ended?_eq.mpr ⟨port,requestId,hends⟩
    rw [(hplain fx hfx).1] at hsome
    simp at hsome
  · rw [hpending] at hmem
    obtain ⟨hport,hopen,_⟩ := h.pending id port requestId hmem
    refine ⟨hports port hport,hended ▸ hopen,hmem,hcore.resolve_left (fun hc => ?_)⟩
    rw [h.pending_nil hc] at hmem
    simp at hmem

end Lemmas

section Acts
variable {s : State}

/-- What an act ends was pending. -/
theorem emits_ends {a : Act} (ha : s.Allows a) {fx : Effect} (hfx : fx ∈ s.emits a) {id : ℕ}
    {port : Port} {requestId : ℤ} (hends : fx.Ends id port requestId) :
    (id,PendingChild.mk port requestId) ∈ s.pendingChild := by
  have hentry : ∀ entry : ℕ × PendingChild, entry ∈ s.pendingChild →
      entry.1 = id → entry.2.port = port → entry.2.originalRequestId = requestId →
        (id,PendingChild.mk port requestId) ∈ s.pendingChild := by
    rintro ⟨_,_,_⟩ hmem rfl rfl rfl
    exact hmem
  cases a with
  | tell effects =>
    have hnotice := (ha fx hfx).1
    rcases hends with ⟨outcome,rfl⟩ | rfl <;> simp [Effect.isNotice] at hnotice
  | lose reason =>
    simp only [emits,List.mem_append,List.mem_flatMap] at hfx
    rcases hfx with ((hfx | hfx) | ⟨entry,hmem,hfx⟩) | hfx
    · obtain ⟨_,_,rfl⟩ := s.mem_broadcast.mp hfx
      simp [Effect.Ends] at hends
    · obtain ⟨_,_,rfl⟩ := List.mem_map.mp hfx
      simp [Effect.Ends] at hends
    · obtain ⟨_,rfl⟩ := s.mem_rejected.mp hfx
      obtain ⟨h₁,h₂,h₃⟩ : entry.1 = id ∧ entry.2.port = port ∧
          entry.2.originalRequestId = requestId := by simpa [Effect.Ends] using hends
      exact hentry entry hmem h₁ h₂ h₃
    · split at hfx
      · obtain ⟨_,_,rfl⟩ := s.mem_broadcast.mp hfx
        simp [Effect.Ends] at hends
      · simp at hfx
  | relay childReqId outcome =>
    simp only [emits,List.mem_flatMap,Option.mem_toList] at hfx
    obtain ⟨p,hl,hfx⟩ := hfx
    obtain ⟨_,rfl⟩ := s.mem_answered.mp hfx
    obtain ⟨h₁,h₂,h₃⟩ : childReqId = id ∧ p.port = port ∧ p.originalRequestId = requestId := by
      simpa [Effect.Ends] using hends
    obtain ⟨pre,post,hsplit,_⟩ := List.lookup_eq_some_iff.mp hl
    exact hentry (childReqId,p) (by simp [hsplit]) h₁ h₂ h₃
  | settle r => cases r <;> rcases hends with ⟨outcome,rfl⟩ | rfl <;> simp [emits] at hfx
  | elect tab now =>
    simp only [emits] at hfx
    split at hfx <;> rcases hends with ⟨outcome,rfl⟩ | rfl <;> simp at hfx
  | aside | reply | join | leave | arbitrate | abandon | attach | stray | forward =>
    rcases hends with ⟨outcome,rfl⟩ | rfl <;> simp [emits] at hfx

theorem leave_ledger (hs : Sound s) (h : Ledger s) (port : Port) : Ledger (s.act (.leave port)) := by
  refine ⟨h.ids_nodup,h.ids_below,h.once,h.matched,h.senders,?_,fun id p requestId hmem => ?_⟩
  · exact h.keys.sublist (List.filter_sublist.map _)
  · obtain ⟨hmem,hne⟩ := List.mem_filter.mp hmem
    obtain ⟨hport,hrest⟩ := h.pending id p requestId hmem
    exact ⟨hs.nodup.mem_erase_iff.mpr ⟨by simpa using hne,hport⟩,hrest⟩

/-- What `loseCore` ends is what is pending. -/
theorem lose_ended (h : Ledger s) (reason : String) :
    (s.act (.lose reason)).endedIds = s.endedIds ++ s.pendingChild.map Prod.fst := by
  have hrejects : ∀ l : List (ℕ × PendingChild), (∀ entry ∈ l, entry.2.port ∈ s.ports) →
      (l.flatMap s.rejected).filterMap Effect.ended? = l.map Prod.fst := by
    intro l hl
    induction l with
    | nil => rfl
    | cons entry l ih =>
      rw [List.forall_mem_cons] at hl
      simp only [List.flatMap_cons,List.filterMap_append,ih hl.2,rejected,if_pos hl.1]
      rfl
  have hquiet : ∀ msg, (s.broadcast msg).filterMap Effect.ended? = [] := by
    intro msg
    apply List.filterMap_eq_nil_iff.mpr
    intro fx hfx
    obtain ⟨port,_,rfl⟩ := s.mem_broadcast.mp hfx
    rfl
  have hclose : (s.corePort.toList.map Effect.closeCore).filterMap Effect.ended? = [] := by
    cases s.corePort <;> rfl
  have hfreed : (if s.loadedInfo.isSome then s.broadcast (.notify .modelFreed) else []).filterMap
      Effect.ended? = [] := by
    split
    · exact hquiet _
    · rfl
  unfold endedIds
  rw [act_trace,List.filterMap_append]
  simp only [emits,List.filterMap_append,hquiet,hclose,hfreed,List.nil_append,List.append_nil]
  rw [hrejects _ (fun entry hmem => (h.pending entry.1 entry.2.port entry.2.originalRequestId
    hmem).1)]

theorem lose_ledger (h : Ledger s) (reason : String) : Ledger (s.act (.lose reason)) := by
  refine h.extend (act_trace s _) (fun fx hfx => ?_) rfl Nat.le.refl ?_
    (fun fx hfx id port requestId hends => ?_) .nil (fun id port requestId hmem => ?_)
  · cases fx with
    | forward => exact absurd (emits_forward (a := .lose reason) trivial hfx).1 (by simp)
    | _ => rfl
  · rw [lose_ended h]
    refine List.nodup_append.mpr ⟨h.once,h.keys,?_⟩
    rintro id hid _ hkey rfl
    obtain ⟨⟨_,p⟩,hmem,rfl⟩ := List.mem_map.mp hkey
    exact (h.pending _ p.port p.originalRequestId hmem).2.1 hid
  · obtain ⟨_,_,core,_,hf⟩ :=
      h.pending id port requestId (emits_ends (a := .lose reason) trivial hfx hends)
    exact ⟨core,hf⟩
  · simp [act,lost] at hmem

theorem relay_ledger (h : Ledger s) (childReqId : ℕ) (outcome : Except String Payload) :
    Ledger (s.act (.relay childReqId outcome)) := by
  have htrace := act_trace s (.relay childReqId outcome)
  cases hl : s.pendingChild.lookup childReqId with
  | none =>
    have hsame : s.act (.relay childReqId outcome) = s := by simp only [act,hl]
    rwa [hsame]
  | some p =>
    have hmem : (childReqId,p) ∈ s.pendingChild := by
      obtain ⟨pre,post,hsplit,_⟩ := List.lookup_eq_some_iff.mp hl
      simp [hsplit]
    obtain ⟨hport,hopen,_⟩ := h.pending childReqId p.port p.originalRequestId hmem
    have hemits : s.emits (.relay childReqId outcome) =
        [.answer childReqId p.port p.originalRequestId outcome] := by
      simp only [emits,hl,Option.toList_some,List.flatMap_cons,List.flatMap_nil,answered,
        if_pos hport,List.append_nil]
    have hended : (s.act (.relay childReqId outcome)).endedIds = s.endedIds ++ [childReqId] := by
      unfold endedIds
      rw [htrace,List.filterMap_append,hemits]
      rfl
    have hpending : (s.act (.relay childReqId outcome)).pendingChild =
        s.pendingChild.filter (fun entry => entry.1 ≠ childReqId) := by
      simp only [act,hl,answer_eq]
      rfl
    refine h.extend htrace (by simp [hemits,Effect.forwarded?]) ?_ ?_ ?_ ?_ ?_ ?_
    · simp only [act,hl,answer_eq]
      rfl
    · simp only [act,hl,answer_eq]
      exact Nat.le.refl
    · rw [hended]
      refine List.nodup_append.mpr ⟨h.once,List.pairwise_singleton _ _,?_⟩
      rintro id hid _ hkey rfl
      exact hopen (List.mem_singleton.mp hkey ▸ hid)
    · intro fx hfx id port requestId hends
      obtain ⟨_,_,core,_,hf⟩ :=
        h.pending id port requestId (emits_ends (a := .relay _ _) trivial hfx hends)
      exact ⟨core,hf⟩
    · rw [hpending]
      exact h.keys.sublist (List.filter_sublist.map _)
    · intro id port requestId hmem'
      rw [hpending] at hmem'
      obtain ⟨hmem',hne⟩ := List.mem_filter.mp hmem'
      obtain ⟨hport',hopen',_⟩ := h.pending id port requestId hmem'
      refine ⟨?_,?_,hmem',?_⟩
      · simp only [act,hl,answer_eq]
        exact hport'
      · rw [hended]
        simpa using ⟨hopen',by simpa using hne⟩
      · simp only [act,hl,answer_eq]
        rfl

/-- The entry of an RPC whose post threw is gone again. -/
theorem forward_pending (h : Ledger s) {core : Core} (hc : s.corePort = some core) (port : Port)
    (requestId : ℤ) (call : CoreCall) (kept : Bool) :
    (s.act (.forward port requestId call kept)).pendingChild =
      s.pendingChild ++ if kept then [(s.nextChildReqId,PendingChild.mk port requestId)] else [] := by
  simp only [act,hc]
  cases kept with
  | true => rfl
  | false =>
    simp only [Bool.false_eq_true,↓reduceIte,List.append_nil,unregistered,registered]
    have hold : ∀ entry ∈ s.pendingChild, entry.1 ≠ s.nextChildReqId := by
      rintro ⟨id,p⟩ hmem rfl
      obtain ⟨_,_,core,_,hf⟩ := h.pending _ p.port p.originalRequestId hmem
      exact Nat.lt_irrefl _ (h.ids_below _ hf.mem)
    simpa [emit] using hold

theorem forward_ledger (h : Ledger s) (hs : Sound s) {port : Port} (hp : port ∈ s.ports)
    (requestId : ℤ) (call : CoreCall) (kept : Bool) :
    Ledger (s.act (.forward port requestId call kept)) := by
  cases hc : s.corePort with
  | none =>
    have hsame : s.act (.forward port requestId call kept) = s := by simp only [act,hc]
    rwa [hsame]
  | some core =>
    have htrace : (s.act (.forward port requestId call kept)).trace =
        s.trace ++ [.forward s.nextChildReqId core port requestId call kept] := by
      rw [act_trace]
      simp only [emits,hc,Option.toList_some,List.map_cons,List.map_nil]
    have hids : (s.act (.forward port requestId call kept)).forwardedIds =
        s.forwardedIds ++ [s.nextChildReqId] := by
      unfold forwardedIds
      rw [htrace,List.filterMap_append]
      rfl
    have hended : (s.act (.forward port requestId call kept)).endedIds = s.endedIds := by
      unfold endedIds
      rw [htrace,List.filterMap_append]
      exact List.append_nil _
    have hnextId : (s.act (.forward port requestId call kept)).nextChildReqId =
        s.nextChildReqId + 1 := by
      simp only [act,hc]
      cases kept <;> rfl
    have hrest : (s.act (.forward port requestId call kept)).ports = s.ports ∧
        (s.act (.forward port requestId call kept)).nextPort = s.nextPort ∧
        (s.act (.forward port requestId call kept)).corePort = some core := by
      simp only [act,hc]
      cases kept <;> exact ⟨rfl,rfl,hc⟩
    have hnew : s.nextChildReqId ∉ s.forwardedIds :=
      fun hmem => Nat.lt_irrefl _ (h.ids_below _ hmem)
    have hkey : s.nextChildReqId ∉ s.pendingChild.map Prod.fst := by
      intro hmem
      obtain ⟨⟨id,p⟩,hmem,rfl⟩ := List.mem_map.mp hmem
      obtain ⟨_,_,core,_,hf⟩ := h.pending _ p.port p.originalRequestId hmem
      exact hnew hf.mem
    have hto : (s.act (.forward port requestId call kept)).ForwardedTo s.nextChildReqId core port
        requestId := ⟨call,kept,by rw [htrace]; simp⟩
    refine ⟨?_,fun id hmem => ?_,hended ▸ h.once,fun fx hfx id q r hends => ?_,
      fun id c q r hf => ?_,?_,fun id q r hmem => ?_⟩
    · rw [hids]
      refine List.nodup_append.mpr ⟨h.ids_nodup,List.pairwise_singleton _ _,?_⟩
      rintro id hid _ hid' rfl
      exact hnew (List.mem_singleton.mp hid' ▸ hid)
    · rw [hids,List.mem_append,List.mem_singleton] at hmem
      rw [hnextId]
      rcases hmem with hmem | rfl
      · exact Nat.lt_succ_of_lt (h.ids_below id hmem)
      · exact Nat.lt_succ_self _
    · rw [htrace,List.mem_append,List.mem_singleton] at hfx
      rcases hfx with hfx | rfl
      · exact (h.matched fx hfx id q r hends).imp (fun _ => forwardedTo_append htrace)
      · simp [Effect.Ends] at hends
    · obtain ⟨call',posted,hmem⟩ := hf
      rw [htrace,List.mem_append,List.mem_singleton] at hmem
      rw [hrest.2.1]
      rcases hmem with hmem | heq
      · exact h.senders id c q r ⟨call',posted,hmem⟩
      · obtain ⟨_,_,rfl,_⟩ := Effect.forward.inj heq
        exact hs.fresh _ hp
    · rw [forward_pending h hc,List.map_append]
      cases kept with
      | false => simpa using h.keys
      | true =>
        refine List.nodup_append.mpr ⟨h.keys,List.pairwise_singleton _ _,?_⟩
        rintro id hid _ hid' rfl
        obtain rfl : id = s.nextChildReqId := by simpa using hid'
        exact hkey hid
    · rw [forward_pending h hc,List.mem_append] at hmem
      rw [hrest.1,hrest.2.2,hended]
      rcases hmem with hmem | hmem
      · obtain ⟨hq,hopen,core',hcore,hf⟩ := h.pending id q r hmem
        exact ⟨hq,hopen,core',hc ▸ hcore,forwardedTo_append htrace hf⟩
      · cases kept with
        | false => simp at hmem
        | true =>
          obtain ⟨rfl,hpend⟩ := Prod.mk.inj (List.mem_singleton.mp hmem)
          obtain ⟨rfl,rfl⟩ := PendingChild.mk.inj hpend
          refine ⟨hp,fun hopen => ?_,core,rfl,hto⟩
          obtain ⟨fx,hfx,hends⟩ := List.mem_filterMap.mp hopen
          obtain ⟨q',r',hends⟩ := Effect.ended?_eq.mp hends
          obtain ⟨core',hf⟩ := h.matched fx hfx _ q' r' hends
          exact hnew hf.mem

theorem act_ledger {a : Act} (hs : Sound s) (h : Ledger s) (ha : s.Allows a) :
    Ledger (s.act a) := by
  have htrace := act_trace s a
  cases a with
  | leave port => exact leave_ledger hs h port
  | lose reason => exact lose_ledger h reason
  | relay childReqId outcome => exact relay_ledger h childReqId outcome
  | forward port requestId call kept => exact forward_ledger h hs ha.2 requestId call kept
  | tell effects =>
    refine h.quiet htrace (fun fx hfx => ?_) rfl rfl (.inr rfl) (fun _ hp => hp) Nat.le.refl
    have hnotice := (ha fx hfx).1
    cases fx <;> first | exact ⟨rfl,rfl⟩ | simp [Effect.isNotice] at hnotice
  | aside | arbitrate | abandon =>
    exact h.quiet htrace (by simp [emits]) rfl rfl (.inr rfl) (fun _ hp => hp) Nat.le.refl
  | join port =>
    obtain rfl : port = s.nextPort := ha
    exact h.quiet htrace (by simp [emits]) rfl rfl (.inr rfl)
      (fun _ hp => List.mem_append_left _ hp) (Nat.le_succ _)
  | reply port requestId outcome =>
    rw [act_reply]
    exact h.quiet rfl (by simp [emits,Effect.ended?,Effect.forwarded?]) rfl rfl (.inr rfl)
      (fun _ hp => hp) Nat.le.refl
  | settle r =>
    rw [act_settle]
    refine h.quiet rfl ?_ rfl rfl (.inr rfl) (fun _ hp => hp) Nat.le.refl
    cases r <;> simp [emits,Effect.ended?,Effect.forwarded?]
  | elect tab now =>
    rw [act_elect]
    refine h.quiet rfl (fun fx hfx => ?_) rfl rfl (.inr rfl) (fun _ hp => hp) Nat.le.refl
    simp only [emits] at hfx
    split at hfx
    · simp at hfx
    · obtain ⟨_,rfl⟩ := s.mem_posted tab |>.mp hfx
      exact ⟨rfl,rfl⟩
  | attach host =>
    exact h.quiet htrace (by simp [emits,Effect.ended?,Effect.forwarded?]) rfl rfl (.inl ha.1)
      (fun _ hp => hp) Nat.le.refl
  | stray =>
    exact h.quiet htrace (by simp [emits,Effect.ended?,Effect.forwarded?]) rfl rfl (.inr rfl)
      (fun _ hp => hp) Nat.le.refl

theorem forwardedTo_of_act {a : Act} (ha : s.Allows a)
    (hne : ∀ port requestId call kept, a ≠ .forward port requestId call kept) {id : ℕ} {core : Core}
    {port : Port} {requestId : ℤ} (h : (s.act a).ForwardedTo id core port requestId) :
    s.ForwardedTo id core port requestId := by
  obtain ⟨call,posted,hmem⟩ := h
  rw [act_trace,List.mem_append] at hmem
  refine ⟨call,posted,hmem.resolve_right (fun hfx => ?_)⟩
  exact hne _ _ _ _ (emits_forward ha hfx).1

theorem endedIds_act (s : State) (a : Act) :
    (s.act a).endedIds = s.endedIds ++ (s.emits a).filterMap Effect.ended? := by
  unfold endedIds
  rw [act_trace,List.filterMap_append]

theorem reachable_ledger (h : machine.Reachable .initial s) : Ledger s :=
  reachable_invariant (I := Ledger) (fun _ _ hs hl ha => act_ledger hs hl ha) h ledger_initial

end Acts

section Kept
variable {s : State}

/-- Every forwarded RPC of a connected tab has been ended or is pending. -/
def Kept (s : State) : Prop :=
  ∀ id core port requestId, s.ForwardedTo id core port requestId → port ∈ s.ports →
    id ∈ s.endedIds ∨ (id,PendingChild.mk port requestId) ∈ s.pendingChild

theorem kept_of_act {a : Act} (h : Kept s) (ha : s.Allows a)
    (hne : ∀ port requestId call kept, a ≠ .forward port requestId call kept)
    (hports : ∀ id core port requestId, s.ForwardedTo id core port requestId →
      port ∈ (s.act a).ports → port ∈ s.ports)
    (hpending : ∀ id port requestId, (id,PendingChild.mk port requestId) ∈ s.pendingChild →
      port ∈ (s.act a).ports → id ∈ (s.act a).endedIds ∨
        (id,PendingChild.mk port requestId) ∈ (s.act a).pendingChild) : Kept (s.act a) := by
  intro id core port requestId hf hp
  have hold := forwardedTo_of_act ha hne hf
  rcases h id core port requestId hold (hports id core port requestId hold hp) with hend | hmem
  · rw [endedIds_act]
    exact .inl (List.mem_append_left _ hend)
  · exact hpending id port requestId hmem hp

theorem relay_kept (hl : Ledger s) (h : Kept s) (childReqId : ℕ) (outcome : Except String Payload) :
    Kept (s.act (.relay childReqId outcome)) := by
  cases hlook : s.pendingChild.lookup childReqId with
  | none =>
    have hsame : s.act (.relay childReqId outcome) = s := by simp only [act,hlook]
    rwa [hsame]
  | some p =>
    have hmem : (childReqId,p) ∈ s.pendingChild := by
      obtain ⟨pre,post,hsplit,_⟩ := List.lookup_eq_some_iff.mp hlook
      simp [hsplit]
    have hport := (hl.pending childReqId p.port p.originalRequestId hmem).1
    have hact : s.act (.relay childReqId outcome) = { s with
        pendingChild := s.pendingChild.filter (fun entry => entry.1 ≠ childReqId) }.emit
          [.answer childReqId p.port p.originalRequestId outcome] := by
      simp only [act,hlook]
      exact if_pos hport
    refine kept_of_act h trivial (by simp) (fun _ _ port _ _ hp => ?_)
      (fun id port requestId hpend _ => ?_)
    · rw [hact] at hp
      exact hp
    · by_cases hid : id = childReqId
      · left
        rw [hact]
        simp [endedIds,Effect.ended?,hid]
      · right
        rw [hact]
        exact List.mem_filter.mpr ⟨hpend,by simpa using hid⟩

theorem forward_kept (hl : Ledger s) (h : Kept s) (port : Port) (requestId : ℤ) (call : CoreCall) :
    Kept (s.act (.forward port requestId call true)) := by
  cases hc : s.corePort with
  | none =>
    have hsame : s.act (.forward port requestId call true) = s := by simp only [act,hc]
    rwa [hsame]
  | some core =>
    have hpending := forward_pending hl hc port requestId call true
    have htrace := act_trace s (.forward port requestId call true)
    simp only [emits,hc,Option.toList_some,List.map_cons,List.map_nil] at htrace
    intro id core' q r hf hp
    have hp : q ∈ s.ports := by
      simp only [act,hc] at hp
      exact hp
    obtain ⟨call',posted,hmem⟩ := hf
    rw [htrace,List.mem_append,List.mem_singleton] at hmem
    rw [endedIds_act,hpending]
    rcases hmem with hmem | heq
    · exact (h id core' q r ⟨call',posted,hmem⟩ hp).imp (List.mem_append_left _)
        (List.mem_append_left _)
    · obtain ⟨rfl,_,rfl,rfl,_⟩ := Effect.forward.inj heq
      exact .inr (List.mem_append_right _ List.mem_cons_self)

theorem act_kept {a : Act} (hs : Sound s) (hl : Ledger s) (h : Kept s) (ha : s.Allows a)
    (hkept : ∀ m ∈ a.marks, ∀ port requestId call, m ≠ .forward port requestId call false) :
    Kept (s.act a) := by
  cases a with
  | relay childReqId outcome => exact relay_kept hl h childReqId outcome
  | forward port requestId call kept =>
    cases kept with
    | true => exact forward_kept hl h port requestId call
    | false => exact absurd rfl (hkept _ List.mem_cons_self port requestId call)
  | lose reason =>
    refine kept_of_act h ha (by simp) (fun _ _ _ _ _ hp => hp) (fun id port requestId hmem _ => ?_)
    rw [lose_ended hl]
    exact .inl (List.mem_append_right _ (List.mem_map.mpr ⟨_,hmem,rfl⟩))
  | leave port =>
    refine kept_of_act h ha (by simp) (fun _ _ _ _ _ hp => List.mem_of_mem_erase hp)
      (fun id q requestId hmem hq => .inr (List.mem_filter.mpr ⟨hmem,?_⟩))
    simpa using (hs.nodup.mem_erase_iff.mp hq).1
  | join port =>
    obtain rfl : port = s.nextPort := ha
    refine kept_of_act h rfl (by simp) (fun id core q requestId hf hq => ?_)
      (fun _ _ _ hmem _ => .inr hmem)
    apply (List.mem_append.mp hq).resolve_right
    intro heq
    exact Nat.ne_of_lt (hl.senders id core q requestId hf) (List.mem_singleton.mp heq)
  | reply port requestId outcome =>
    refine kept_of_act h ha (by simp) ?_ ?_ <;> rw [act_reply]
    · exact fun _ _ _ _ _ hp => hp
    · exact fun _ _ _ hmem _ => .inr hmem
  | settle r =>
    refine kept_of_act h ha (by simp) ?_ ?_ <;> rw [act_settle]
    · exact fun _ _ _ _ _ hp => hp
    · exact fun _ _ _ hmem _ => .inr hmem
  | elect tab now =>
    refine kept_of_act h ha (by simp) ?_ ?_ <;> rw [act_elect]
    · exact fun _ _ _ _ _ hp => hp
    · exact fun _ _ _ hmem _ => .inr hmem
  | tell | aside | arbitrate | abandon | attach | stray =>
    exact kept_of_act h ha (by simp) (fun _ _ _ _ _ hp => hp) (fun _ _ _ hmem _ => .inr hmem)

end Kept

section Orphan
variable {s t : State}

/-- An RPC that nothing will ever answer. -/
def Orphan (s : State) (id : ℕ) (core : Core) (port : Port) : Prop :=
  (∃ requestId, s.ForwardedTo id core port requestId) ∧ id ∉ s.endedIds ∧
    ∀ p, (id,p) ∉ s.pendingChild

theorem act_pending {a : Act} {entry : ℕ × PendingChild} (h : entry ∈ (s.act a).pendingChild) :
    entry ∈ s.pendingChild ∨ entry.1 = s.nextChildReqId ∧
      ∃ port requestId call kept, .forward port requestId call kept ∈ a.marks := by
  cases a with
  | tell | aside | join | arbitrate | abandon | attach | stray => exact .inl h
  | reply => exact .inl (by rwa [act_reply] at h)
  | settle => exact .inl (by rwa [act_settle] at h)
  | elect => exact .inl (by rwa [act_elect] at h)
  | leave port => exact .inl (List.mem_of_mem_filter h)
  | lose reason => simp [act,lost] at h
  | forward port requestId call kept =>
    simp only [act] at h
    cases hc : s.corePort with
    | none => exact .inl (by simpa [hc] using h)
    | some core =>
      have hreg : ∀ entry ∈ (s.registered core port requestId call kept).pendingChild,
          entry ∈ s.pendingChild ∨ entry.1 = s.nextChildReqId ∧ ∃ p r c k,
            .forward p r c k ∈ (Act.forward port requestId call kept).marks := by
        intro entry hmem
        apply (List.mem_append.mp hmem).imp_right
        intro hnew
        rw [List.mem_singleton.mp hnew]
        exact ⟨rfl,port,requestId,call,kept,List.mem_cons_self⟩
      simp only [hc] at h
      cases kept with
      | true => exact hreg entry h
      | false => exact hreg entry (List.mem_of_mem_filter h)
  | relay childReqId outcome =>
    simp only [act] at h
    split at h
    · rw [answer_eq] at h
      exact .inl (List.mem_of_mem_filter h)
    · exact .inl h

theorem act_orphan (hl : Ledger s) {id : ℕ} {core : Core} {port : Port} (h : Orphan s id core port)
    {a : Act} (ha : s.Allows a) : Orphan (s.act a) id core port := by
  obtain ⟨⟨requestId,hf⟩,hopen,hgone⟩ := h
  refine ⟨⟨requestId,forwardedTo_append (act_trace s a) hf⟩,?_,fun p hmem => ?_⟩
  · rw [endedIds_act,List.mem_append]
    rintro (hend | hend)
    · exact hopen hend
    · obtain ⟨fx,hfx,hended⟩ := List.mem_filterMap.mp hend
      obtain ⟨q,r,hends⟩ := Effect.ended?_eq.mp hended
      exact hgone _ (emits_ends ha hfx hends)
  · rcases act_pending hmem with hmem | ⟨hid,_⟩
    · exact hgone p hmem
    · exact Nat.ne_of_lt (hl.ids_below id hf.mem) hid

/-- The failed post orphans its RPC at once. -/
theorem forward_orphan (hl : Ledger s) {core : Core} (hc : s.corePort = some core) (port : Port)
    (requestId : ℤ) (call : CoreCall) :
    Orphan (s.act (.forward port requestId call false)) s.nextChildReqId core port := by
  have htrace := act_trace s (.forward port requestId call false)
  simp only [emits,hc,Option.toList_some,List.map_cons,List.map_nil] at htrace
  have hnew : s.nextChildReqId ∉ s.forwardedIds :=
    fun hmem => Nat.lt_irrefl _ (hl.ids_below _ hmem)
  refine ⟨⟨requestId,call,false,by rw [htrace]; simp⟩,?_,fun p hmem => ?_⟩
  · have hended : (s.act (.forward port requestId call false)).endedIds = s.endedIds := by
      unfold endedIds
      rw [htrace,List.filterMap_append]
      exact List.append_nil _
    rw [hended]
    intro hend
    obtain ⟨fx,hfx,hended⟩ := List.mem_filterMap.mp hend
    obtain ⟨q,r,hends⟩ := Effect.ended?_eq.mp hended
    obtain ⟨core',hf⟩ := hl.matched fx hfx _ q r hends
    exact hnew hf.mem
  · rw [forward_pending hl hc] at hmem
    simp only [Bool.false_eq_true,↓reduceIte,List.append_nil] at hmem
    obtain ⟨_,_,core',_,hf⟩ := hl.pending _ p.port p.originalRequestId hmem
    exact hnew hf.mem

theorem Performs.orphan {ms : List Mark} (h : Performs s ms t) (hs : Sound s) (hl : Ledger s)
    {port : Port} {requestId : ℤ} {call : CoreCall}
    (hm : .forward port requestId call false ∈ ms) : ∃ id core, Orphan t id core port := by
  induction h with
  | nil => simp at hm
  | @cons s t ms a ha ht ih =>
    rcases List.mem_append.mp hm with hm | hm
    · have hforward : a = .forward port requestId call false := by
        cases a <;> simp [Act.marks] at hm
        obtain ⟨rfl,rfl,rfl,rfl⟩ := hm
        rfl
      subst hforward
      obtain ⟨core,hc⟩ := Option.isSome_iff_exists.mp ha.1
      refine ⟨s.nextChildReqId,core,?_⟩
      have hkeep := ht.invariant (I := fun u => Sound u ∧ Ledger u ∧
        Orphan u s.nextChildReqId core port) (fun u b hu hb =>
          ⟨act_sound hu.1 hb,act_ledger hu.1 hu.2.1 hb,act_orphan hu.2.1 hu.2.2 hb⟩)
        ⟨act_sound hs ha,act_ledger hs hl ha,forward_orphan hl hc port requestId call⟩
      exact hkeep.2.2
    · exact ih (act_sound hs ha) (act_ledger hs hl ha) hm

end Orphan

section Discipline
variable {s : State} {e : Event}

/-- The post of a forwarded RPC to the core's port throws. -/
def PostFails (s : State) : Event → Prop
  | .message port ⟨_,.core call⟩ _ throws => throws = true ∧ s.Forwards port call
  | _ => False

instance (s : State) (e : Event) : Decidable (s.PostFails e) := by
  unfold PostFails
  split <;> infer_instance

/-- Reply discipline of one step and the state it leads to. -/
structure Disciplined (s : State) (e : Event) : Prop where
  once : (s.next e).endedIds.Nodup
  matched : ∀ fx ∈ (s.next e).trace, ∀ id port requestId, fx.Ends id port requestId →
    ∃ core, (s.next e).ForwardedTo id core port requestId
  answered : ∀ id core port requestId, (s.next e).ForwardedTo id core port requestId →
    port ∈ (s.next e).ports → (s.next e).corePort ≠ some core →
      ∃ fx ∈ (s.next e).trace, fx.Ends id port requestId
  fromCore : ∀ core msg now, e = .coreMessage core msg now → ∀ fx ∈ s.effects e,
    ∀ id port requestId, fx.Ends id port requestId → s.ForwardedTo id core port requestId

theorem next_ledger (hs : Sound s) (hl : Ledger s) (he : Enabled s e) : Ledger (s.next e) := by
  have hboth : Sound (s.next e) ∧ Ledger (s.next e) := by
    refine (next_performs hs he).invariant (I := fun s => Sound s ∧ Ledger s) ?_ ⟨hs,hl⟩
    intro t a h ha
    exact ⟨act_sound h.1 ha,act_ledger h.1 h.2 ha⟩
  exact hboth.2

theorem next_kept (hs : Sound s) (hl : Ledger s) (h : Kept s) (he : Enabled s e)
    (hpost : ¬ s.PostFails e) : Kept (s.next e) := by
  have hmarks : ∀ m ∈ s.marks e, ∀ port requestId call, m ≠ .forward port requestId call false := by
    rintro m hm port requestId call rfl
    obtain ⟨now,throws,rfl,hf,hthrows⟩ := marks_forward hm
    exact hpost ⟨by simpa using hthrows.symm,hf⟩
  refine ((next_performs hs he).invariant_of (I := fun s => Sound s ∧ Ledger s ∧ Kept s)
    (fun _ _ h ha hm => ?_) (forall_marks hmarks (by simp)) ⟨hs,hl,h⟩).2.2
  exact ⟨act_sound h.1 ha,act_ledger h.1 h.2.1 ha,act_kept h.1 h.2.1 h.2.2 ha hm⟩

/-- Kept ledgers answer every RPC of a connected tab once its core is gone. -/
theorem Kept.answered (h : Kept s) (hl : Ledger s) {id : ℕ} {core : Core} {port : Port}
    {requestId : ℤ} (hf : s.ForwardedTo id core port requestId) (hp : port ∈ s.ports)
    (hc : s.corePort ≠ some core) : ∃ fx ∈ s.trace, fx.Ends id port requestId := by
  rcases h id core port requestId hf hp with hend | hmem
  · obtain ⟨fx,hfx,hended⟩ := List.mem_filterMap.mp hend
    obtain ⟨q,r,hends⟩ := Effect.ended?_eq.mp hended
    obtain ⟨core',hf'⟩ := hl.matched fx hfx id q r hends
    obtain ⟨_,rfl,rfl⟩ := hl.unique hf hf'
    exact ⟨fx,hfx,hends⟩
  · obtain ⟨_,_,core',hc',hf'⟩ := hl.pending id port requestId hmem
    obtain ⟨rfl,_⟩ := hl.unique hf hf'
    exact absurd hc' hc

/-- A step that forwards nothing ends only what was pending before it. -/
theorem effects_ends (hs : Sound s) (he : Enabled s e)
    (hmarks : ∀ m ∈ s.marks e, ∀ port requestId call kept, m ≠ .forward port requestId call kept)
    {fx : Effect} (hfx : fx ∈ s.effects e) {id : ℕ} {port : Port} {requestId : ℤ}
    (hends : fx.Ends id port requestId) :
    (id,PendingChild.mk port requestId) ∈ s.pendingChild := by
  have hact : ∀ (t : State) (a : Act), (∀ entry ∈ t.pendingChild, entry ∈ s.pendingChild) →
      t.Allows a → (∀ m ∈ a.marks, ∀ port requestId call kept,
        m ≠ Mark.forward port requestId call kept) →
      (∀ entry ∈ (t.act a).pendingChild, entry ∈ s.pendingChild) ∧
        ∀ fx ∈ t.emits a, ∀ id port requestId, fx.Ends id port requestId →
          (id,PendingChild.mk port requestId) ∈ s.pendingChild := by
    intro t a hsub ha hm
    refine ⟨fun entry hentry => ?_,fun fx hfx id port requestId hends => ?_⟩
    · refine hsub entry ((act_pending hentry).resolve_right ?_)
      rintro ⟨_,port,requestId,call,kept,hmem⟩
      exact hm _ hmem port requestId call kept rfl
    · exact hsub _ (emits_ends ha hfx hends)
  exact (effects_of_acts hact hs he hmarks (by simp) (fun _ h => h)).2 fx hfx id port requestId hends

/-- What a message from the core ends was forwarded to that core. -/
theorem next_fromCore (hs : Sound s) (hl : Ledger s) {core : Core} {msg : FromCore} {now : ℕ}
    (he : Enabled s (.coreMessage core msg now)) {fx : Effect}
    (hfx : fx ∈ s.effects (.coreMessage core msg now)) {id : ℕ} {port : Port} {requestId : ℤ}
    (hends : fx.Ends id port requestId) : s.ForwardedTo id core port requestId := by
  have hmem := effects_ends hs he (by simp [marks]) hfx hends
  obtain ⟨_,_,core',hc,hf⟩ := hl.pending id port requestId hmem
  have hopen : core ∈ s.corePort.toList := hs.open_eq ▸ he
  obtain rfl : core = core' := by simpa [hc] using hopen
  exact hf

theorem loseCore_corePort (t : State) (reason : String) (reelect : Bool) (now : ℕ) :
    (t.loseCore reason reelect now).corePort = none := by
  rw [loseCore_eq]
  split
  · next h => exact h.1
  · cases reelect <;> simp [lost]

theorem forwardToCore_failed_corePort {t : State} {core : Core} (hc : t.corePort = some core)
    (port : Port) (requestId : ℤ) (call : CoreCall) (now : ℕ) :
    (t.forwardToCore port requestId call now true).corePort = none := by
  rw [forwardToCore_some t port now true hc,if_pos rfl]
  exact loseCore_corePort _ _ _ _

/-- Where the post throws, the core is lost and its RPC with it. -/
theorem next_postFails (hs : Sound s) (hl : Ledger s) (he : Enabled s e) (hpost : s.PostFails e) :
    (s.next e).corePort = none ∧ ∃ id core port requestId,
      (s.next e).ForwardedTo id core port requestId ∧ port ∈ (s.next e).ports ∧
        ∀ fx ∈ (s.next e).trace, ¬ fx.Ends id port requestId := by
  cases e with
  | message port msg now throws =>
    obtain ⟨requestId,request⟩ := msg
    cases request with
    | core call =>
      obtain ⟨rfl,hf⟩ := hpost
      obtain ⟨core,hc⟩ := Option.isSome_iff_exists.mp hf.1
      refine ⟨?_,?_⟩
      · have hserve : (if call.name.isStateful then s.arbiter.checkSession port call.sid
            else none) = none := by
          split
          · next hst => exact hf.2 hst
          · rfl
        simp only [next,task,handleRequest,serve,runMicrotasks_corePort,hserve]
        exact forwardToCore_failed_corePort
          (t := { s with lastSeen := Function.update s.lastSeen port (some now) }) hc port requestId
          call now
      · have hmark : .forward port requestId call false ∈
            s.marks (.message port ⟨requestId,.core call⟩ now true) := by simp [marks,hf]
        obtain ⟨id,core',⟨requestId',hto⟩,hopen,-⟩ := (next_performs hs he).orphan hs hl
          (List.mem_append_left _ hmark)
        have hports : (s.next (.message port ⟨requestId,.core call⟩ now true)).ports = s.ports :=
          congrArg Docket.ports (next_docket hs he).1
        refine ⟨id,core',port,requestId',hto,hports ▸ he,fun fx hfx hends => hopen ?_⟩
        exact List.mem_filterMap.mpr ⟨fx,hfx,Effect.ended?_eq.mpr ⟨port,requestId',hends⟩⟩
    | _ => exact absurd hpost id
  | _ => exact absurd hpost id

theorem next_disciplined (hs : Sound s) (hl : Ledger s) (h : Kept s) (he : Enabled s e)
    (hpost : ¬ s.PostFails e) : s.Disciplined e := by
  have hl' := next_ledger hs hl he
  refine ⟨hl'.once,hl'.matched,fun id core port requestId hf hp hc => ?_,?_⟩
  · exact (next_kept hs hl h he hpost).answered hl' hf hp hc
  · rintro core msg now rfl fx hfx id port requestId hends
    exact next_fromCore hs hl he hfx hends

end Discipline
end State

/-- Over a run the replies to forwarded RPCs are disciplined in every step exactly when
no post of a forwarded RPC to the core throws. -/
theorem run_disciplined_iff {es : List Event} (hr : machine.Run .initial es) :
    (∀ p ∈ machine.trail .initial es, p.1.Disciplined p.2) ↔
      ∀ p ∈ machine.trail .initial es, ¬ p.1.PostFails p.2 := by
  constructor
  · intro h p hp hpost
    obtain ⟨⟨hs,hl⟩,he⟩ := hr.mem_trail (I := fun s => s.Sound ∧ s.Ledger)
      (fun _ _ hI he => ⟨State.next_sound hI.1 he,State.next_ledger hI.1 hI.2 he⟩)
      ⟨State.sound_initial,State.ledger_initial⟩ hp
    obtain ⟨hc,id,core,port,requestId,hf,hport,hopen⟩ := State.next_postFails hs hl he hpost
    obtain ⟨fx,hfx,hends⟩ := (h p hp).answered id core port requestId hf hport (by simp [hc])
    exact hopen fx hfx hends
  · intro h p hp
    have hkept : State.Kept .initial := fun _ _ _ _ _ hp => by simp [State.initial] at hp
    obtain ⟨⟨hs,hl,hk⟩,he⟩ := hr.mem_trail_of (I := fun s => s.Sound ∧ s.Ledger ∧ s.Kept)
      (C := fun s e => ¬ s.PostFails e)
      (fun _ _ hI he hpost => ⟨State.next_sound hI.1 he,State.next_ledger hI.1 hI.2.1 he,
        State.next_kept hI.1 hI.2.1 hI.2.2 he hpost⟩)
      ⟨State.sound_initial,State.ledger_initial,hkept⟩ h hp
    exact State.next_disciplined hs hl hk he (h p hp)

/-- Two tabs with calls under the same requestId: the core answers one and is lost with
the other. -/
def repliesRun : List Event :=
  [.connect 0 false,.message 0 ⟨1,.attachCore true⟩ 1 false,.connect 2 false,
    .message 0 ⟨2,.core ⟨.stateless "position",.undefined,"{}"⟩⟩ 3 false,
    .message 1 ⟨2,.core ⟨.stateless "position",.undefined,"{}"⟩⟩ 4 false,
    .coreMessage 0 (.reply 2 (.ok "7")) 5,
    .message 1 ⟨-1,.disconnect⟩ 6 false,
    .pingTimeout 1000000000 800]

theorem repliesRun_disciplined : machine.Run .initial repliesRun ∧
    ∀ p ∈ machine.trail .initial repliesRun, p.1.Disciplined p.2 :=
  ⟨by decide,(run_disciplined_iff (by decide)).mpr (by decide)⟩

/-- One tab, its core attached, and two calls of which the second cannot be posted. -/
def failedPostRun : List Event :=
  [.connect 0 false,.message 0 ⟨1,.attachCore true⟩ 1 false,
    .message 0 ⟨2,.core ⟨.stateless "position",.undefined,"{}"⟩⟩ 2 false,
    .message 0 ⟨3,.core ⟨.stateless "position",.undefined,"{}"⟩⟩ 3 true]

/-- The first call is rejected, the second is never answered. -/
theorem failedPostRun_unanswered :
    ¬ ∀ es, machine.Run .initial es → ∀ p ∈ machine.trail .initial es, p.1.Disciplined p.2 := by
  intro h
  have hlast : (machine.exec .initial (failedPostRun.take 3),
      .message 0 ⟨3,.core ⟨.stateless "position",.undefined,"{}"⟩⟩ 3 true) ∈
      machine.trail .initial failedPostRun :=
    .tail _ (.tail _ (.tail _ (.head _)))
  obtain ⟨fx,hfx,hends⟩ := (h failedPostRun (by decide) _ hlast).answered 2 0 0 3
    ⟨⟨.stateless "position",.undefined,"{}"⟩,false,by decide⟩ (by decide) (by decide)
  have hopen : ∀ fx ∈ (machine.exec .initial failedPostRun).trace, fx.ended? ≠ some 2 := by decide
  exact hopen fx hfx (Effect.ended?_eq.mpr ⟨0,3,hends⟩)

end Rullama.Router
