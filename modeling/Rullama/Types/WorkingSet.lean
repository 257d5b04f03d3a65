import Mathlib.Algebra.GroupWithZero.Nat
import Mathlib.Data.List.MinMax
import Mathlib.Data.List.Nodup
import Mathlib.Data.Prod.Lex
import Mathlib.Tactic.Common
import Rullama.Transition.Machine

/-! # Working set

The files in the context of the agent. A file that has not been accessed for some turns is stale,
and a new turn evicts it; what no longer fits is evicted from the one used longest ago on.
-/
namespace Rullama.Types
open Transition

/-- The counters of turns and accesses wrap around. -/
def u32 (n : ℕ) : ℕ := n % 2 ^ 32

def usize (n : ℕ) : ℕ := n % 2 ^ 64

structure WorkingSetEntry (P : Type) where
  path : P
  tokens : ℕ
  accessCount : ℕ
  lastAccessTurn : ℕ
  addedAtTurn : ℕ
  pinned : Bool
  label : Option String
deriving DecidableEq

namespace WorkingSetEntry
variable {P : Type}

def new (path : P) (tokens currentTurn : ℕ) : WorkingSetEntry P :=
  ⟨path,tokens,1,currentTurn,currentTurn,false,none⟩

def withLabel (e : WorkingSetEntry P) (label : String) : WorkingSetEntry P :=
  { e with label := some label }

def asPinned (e : WorkingSetEntry P) : WorkingSetEntry P := { e with pinned := true }

def accessed (turn : ℕ) (e : WorkingSetEntry P) : WorkingSetEntry P :=
  { e with
    accessCount := u32 (e.accessCount + 1)
    lastAccessTurn := turn }

end WorkingSetEntry

structure WorkingSetConfig where
  maxFiles : ℕ := 15
  maxTokens : ℕ := 100000
  staleAfterTurns : ℕ := 10
  autoEvict : Bool := true

/-- The map from the text of a path to its entry. -/
abbrev Entries (P : Type) := List (String × WorkingSetEntry P)

structure WorkingSet (P : Type) where
  entries : Entries P := []
  config : WorkingSetConfig := {}
  currentTurn : ℕ := 0
  lastEviction : Option String := none

/-- The order in which the map is walked through. -/
structure Order (P : Type) where
  arrange : Entries P → Entries P
  perm : ∀ l, (arrange l).Perm l

namespace WorkingSet

section Operations

variable {P : Type} (lossy : P → String) (ws : WorkingSet P)

def modifyEntry (key : String) (f : WorkingSetEntry P → WorkingSetEntry P) : WorkingSet P :=
  { ws with entries := ws.entries.map (fun kv => if kv.1 = key then (kv.1,f kv.2) else kv) }

def contains (path : P) : Bool := ws.entries.any (fun kv => kv.1 = lossy path)

def totalTokens (entries : Entries P) : ℕ := usize ((entries.map (·.2.tokens)).sum)

/-- The first one of those used longest ago, and least often, that is not pinned. -/
def findLruCandidate (order : Order P) (entries : Entries P) :
    Option (String × WorkingSetEntry P) :=
  ((order.arrange entries).filter (fun kv => !kv.2.pinned)).argmin
    (fun kv => toLex (kv.2.lastAccessTurn,kv.2.accessCount))

/-- Each round removes an entry, so that there are at most as many as entries. -/
def evictWhile (overLimit : Entries P → Bool) (order : Order P) :
    ℕ → Entries P × List String → Entries P × List String
  | 0,st => st
  | n + 1,st =>
    if overLimit st.1 then
      match findLruCandidate order st.1 with
      | none => st
      | some kv => evictWhile overLimit order n
          (st.1.filter (fun e => e.1 ≠ kv.1),st.2 ++ [lossy kv.2.path])
    else st

def maybeEvict (order : Order P) (newTokens : ℕ) : WorkingSet P :=
  let overFiles (entries : Entries P) : Bool := entries.length ≥ ws.config.maxFiles
  let overTokens (entries : Entries P) : Bool :=
    usize (totalTokens entries + newTokens) > ws.config.maxTokens
  let st := evictWhile lossy overFiles order ws.entries.length (ws.entries,[])
  let st := evictWhile lossy overTokens order st.1.length st
  { ws with
    entries := st.1
    lastEviction := if st.2 = [] then ws.lastEviction
      else some ("Evicted: " ++ ", ".intercalate st.2) }

def insert (key : String) (e : WorkingSetEntry P) : WorkingSet P :=
  { ws with entries := ws.entries ++ [(key,e)] }

def add (path : P) (tokens : ℕ) (order : Order P) : WorkingSet P :=
  if ws.contains lossy path then ws.modifyEntry (lossy path) (.accessed ws.currentTurn)
  else (ws.maybeEvict lossy order tokens).insert (lossy path) (.new path tokens ws.currentTurn)

def addLabeled (path : P) (tokens : ℕ) (label : String) (order : Order P) : WorkingSet P :=
  if ws.contains lossy path then
    ws.modifyEntry (lossy path) (fun e => (e.accessed ws.currentTurn).withLabel label)
  else (ws.maybeEvict lossy order tokens).insert (lossy path)
    ((WorkingSetEntry.new path tokens ws.currentTurn).withLabel label)

def addPinned (path : P) (tokens : ℕ) (label : Option String) : WorkingSet P :=
  let labelled (e : WorkingSetEntry P) : WorkingSetEntry P :=
    { e with label := label.or e.label }
  if ws.contains lossy path then
    ws.modifyEntry (lossy path) (fun e => labelled (e.asPinned.accessed ws.currentTurn))
  else ws.insert (lossy path) (labelled (WorkingSetEntry.new path tokens ws.currentTurn).asPinned)

def touch (path : P) : WorkingSet P :=
  ws.modifyEntry (lossy path) (.accessed ws.currentTurn)

def remove (path : P) : WorkingSet P :=
  { ws with entries := ws.entries.filter (fun kv => kv.1 ≠ lossy path) }

def pin (path : P) : WorkingSet P :=
  ws.modifyEntry (lossy path) (fun e => { e with pinned := true })

def unpin (path : P) : WorkingSet P :=
  ws.modifyEntry (lossy path) (fun e => { e with pinned := false })

def clear (keepPinned : Bool) : WorkingSet P :=
  { ws with
    entries := if keepPinned then ws.entries.filter (fun kv => kv.2.pinned) else []
    lastEviction := none }

/-! ## Staleness -/

def isStale (e : WorkingSetEntry P) : Bool :=
  !e.pinned && ws.currentTurn - e.lastAccessTurn ≥ ws.config.staleAfterTurns

def staleFiles : List (WorkingSetEntry P) := (ws.entries.map Prod.snd).filter ws.isStale

def evictStale : WorkingSet P :=
  let staleThreshold := ws.currentTurn - ws.config.staleAfterTurns
  let kept := ws.entries.filter (fun kv => kv.2.pinned || kv.2.lastAccessTurn > staleThreshold)
  let evicted := ws.entries.length - kept.length
  { ws with
    entries := kept
    lastEviction := if evicted > 0 then some s!"Evicted {evicted} stale file(s)"
      else ws.lastEviction }

/-- The working set with its turn counted on. -/
def counted : WorkingSet P := { ws with currentTurn := u32 (ws.currentTurn + 1) }

def nextTurn : WorkingSet P :=
  if ws.config.autoEvict then ws.counted.evictStale else ws.counted

end Operations

/-! ## Runs -/

inductive Op (P : Type) where
  | add (path : P) (tokens : ℕ) (order : Order P)
  | addLabeled (path : P) (tokens : ℕ) (label : String) (order : Order P)
  | addPinned (path : P) (tokens : ℕ) (label : Option String)
  | touch (path : P)
  | pin (path : P)
  | unpin (path : P)
  | remove (path : P)
  | clear (keepPinned : Bool)
  | nextTurn

variable {P : Type} (lossy : P → String)

def apply (ws : WorkingSet P) : Op P → WorkingSet P
  | .add path tokens order => ws.add lossy path tokens order
  | .addLabeled path tokens label order => ws.addLabeled lossy path tokens label order
  | .addPinned path tokens label => ws.addPinned lossy path tokens label
  | .touch path => ws.touch lossy path
  | .pin path => ws.pin lossy path
  | .unpin path => ws.unpin lossy path
  | .remove path => ws.remove lossy path
  | .clear keepPinned => ws.clear keepPinned
  | .nextTurn => ws.nextTurn

def machine : Machine (WorkingSet P) (Op P) where
  enabled _ _ := True
  next := apply lossy

def withConfig (config : WorkingSetConfig) : WorkingSet P := { config := config }

/-! ## What the operations keep -/

variable {lossy}

theorem evictWhile_sublist (overLimit : Entries P → Bool) (order : Order P) (n : ℕ)
    (st : Entries P × List String) : (evictWhile lossy overLimit order n st).1.Sublist st.1 := by
  induction n generalizing st with
  | zero => exact List.Sublist.refl _
  | succ n ih =>
    rw [evictWhile]
    split
    · split
      · exact List.Sublist.refl _
      · exact (ih _).trans List.filter_sublist
    · exact List.Sublist.refl _

theorem maybeEvict_sublist (ws : WorkingSet P) (order : Order P) (newTokens : ℕ) :
    (ws.maybeEvict lossy order newTokens).entries.Sublist ws.entries :=
  (evictWhile_sublist _ order _ _).trans (evictWhile_sublist _ order _ _)

theorem apply_config (ws : WorkingSet P) (op : Op P) : (ws.apply lossy op).config = ws.config := by
  cases op with
  | add path tokens order =>
    rw [apply,add]
    split <;> rfl
  | addLabeled path tokens label order =>
    rw [apply,addLabeled]
    split <;> rfl
  | addPinned path tokens label =>
    simp only [apply,addPinned]
    split <;> rfl
  | nextTurn =>
    rw [apply,nextTurn]
    split <;> rfl
  | touch path => rfl
  | pin path => rfl
  | unpin path => rfl
  | remove path => rfl
  | clear keepPinned => rfl

/-- What an operation makes of the entries: some of them, all of them with those of one key changed,
or some of them and a new one. -/
inductive Change (ws : WorkingSet P) : Entries P → Prop
  | shrunk {l : Entries P} : l.Sublist ws.entries → Change ws l
  | modified (key : String) (f : WorkingSetEntry P → WorkingSetEntry P) :
      (∀ e, (f e).lastAccessTurn = e.lastAccessTurn ∨ (f e).lastAccessTurn = ws.currentTurn) →
      Change ws (ws.modifyEntry key f).entries
  | inserted {l : Entries P} (key : String) (e : WorkingSetEntry P) : l.Sublist ws.entries →
      key ∉ ws.entries.map Prod.fst → e.lastAccessTurn = ws.currentTurn → Change ws (l ++ [(key,e)])

theorem not_mem_of_contains {ws : WorkingSet P} {path : P}
    (h : ¬ ws.contains lossy path = true) : lossy path ∉ ws.entries.map Prod.fst := by
  intro hmem
  obtain ⟨kv,hkv,heq⟩ := List.mem_map.mp hmem
  exact h (List.any_eq_true.mpr ⟨kv,hkv,decide_eq_true heq⟩)

theorem nextTurn_sublist (ws : WorkingSet P) : ws.nextTurn.entries.Sublist ws.entries := by
  rw [nextTurn]
  split
  · exact List.filter_sublist
  · exact List.Sublist.refl _

theorem apply_change (ws : WorkingSet P) (op : Op P) : Change ws (ws.apply lossy op).entries := by
  cases op with
  | add path tokens order =>
    rw [apply,add]
    split
    · exact .modified _ _ (fun _ => .inr rfl)
    · rename_i hnew
      exact .inserted _ _ (maybeEvict_sublist ws order tokens) (not_mem_of_contains hnew) rfl
  | addLabeled path tokens label order =>
    rw [apply,addLabeled]
    split
    · exact .modified _ _ (fun _ => .inr rfl)
    · rename_i hnew
      exact .inserted _ _ (maybeEvict_sublist ws order tokens) (not_mem_of_contains hnew) rfl
  | addPinned path tokens label =>
    simp only [apply,addPinned]
    split
    · exact .modified _ _ (fun _ => .inr rfl)
    · rename_i hnew
      exact .inserted _ _ (List.Sublist.refl _) (not_mem_of_contains hnew) rfl
  | touch path => exact .modified _ _ (fun _ => .inr rfl)
  | pin path => exact .modified _ _ (fun _ => .inl rfl)
  | unpin path => exact .modified _ _ (fun _ => .inl rfl)
  | remove path => exact .shrunk List.filter_sublist
  | clear keepPinned =>
    cases keepPinned with
    | true => exact .shrunk List.filter_sublist
    | false => exact .shrunk (List.nil_sublist _)
  | nextTurn => exact .shrunk (nextTurn_sublist ws)

theorem modifyEntry_keys (ws : WorkingSet P) (key : String)
    (f : WorkingSetEntry P → WorkingSetEntry P) :
    (ws.modifyEntry key f).entries.map Prod.fst = ws.entries.map Prod.fst := by
  rw [modifyEntry,List.map_map]
  refine List.map_congr_left (fun kv _ => ?_)
  simp only [Function.comp]
  split <;> rfl

/-- No key stands twice in the list, so that it is a map. -/
theorem Change.keys {ws : WorkingSet P} {l : Entries P} (h : Change ws l)
    (hk : (ws.entries.map Prod.fst).Nodup) : (l.map Prod.fst).Nodup := by
  cases h with
  | shrunk hl => exact hk.sublist (hl.map _)
  | modified key f _ => rwa [modifyEntry_keys]
  | @inserted l key e hl hkey _ =>
    rw [List.map_append,List.nodup_append]
    refine ⟨hk.sublist (hl.map _),List.nodup_singleton _,?_⟩
    rintro a ha b hb rfl
    rw [List.map_singleton,List.mem_singleton] at hb
    rw [hb] at ha
    exact hkey ((hl.map _).subset ha)

theorem Change.turns {ws : WorkingSet P} {l : Entries P} (h : Change ws l)
    (ht : ∀ kv ∈ ws.entries, kv.2.lastAccessTurn ≤ ws.currentTurn) :
    ∀ kv ∈ l, kv.2.lastAccessTurn ≤ ws.currentTurn := by
  cases h with
  | shrunk hl => exact fun kv hkv => ht kv (hl.subset hkv)
  | modified key f hf =>
    intro kv hkv
    obtain ⟨kv,hmem,rfl⟩ := List.mem_map.mp hkv
    have hle := ht kv hmem
    have hcases := hf kv.2
    split
    · simp only
      omega
    · exact hle
  | @inserted l key e hl _ he =>
    intro kv hkv
    rcases List.mem_append.mp hkv with hkv | hkv
    · exact ht kv (hl.subset hkv)
    · rw [List.mem_singleton.mp hkv]
      exact he.le

theorem keys_nodup {config : WorkingSetConfig} {ws : WorkingSet P}
    (h : (machine lossy).Reachable (withConfig config) ws) : (ws.entries.map Prod.fst).Nodup :=
  h.invariant (I := fun ws => (ws.entries.map Prod.fst).Nodup)
    (fun ws op hk _ => (apply_change ws op).keys hk) List.nodup_nil

theorem reachable_config {config : WorkingSetConfig} {ws : WorkingSet P}
    (h : (machine lossy).Reachable (withConfig config) ws) : ws.config = config :=
  h.invariant (I := fun ws => ws.config = config)
    (fun ws op hc _ => (apply_config ws op).trans hc) rfl

theorem apply_currentTurn (ws : WorkingSet P) (op : Op P) :
    (ws.apply lossy op).currentTurn = ws.currentTurn ∨
      (op matches .nextTurn) ∧ (ws.apply lossy op).currentTurn = u32 (ws.currentTurn + 1) := by
  cases op with
  | add path tokens order =>
    rw [apply,add]
    split <;> exact .inl rfl
  | addLabeled path tokens label order =>
    rw [apply,addLabeled]
    split <;> exact .inl rfl
  | addPinned path tokens label =>
    simp only [apply,addPinned]
    split <;> exact .inl rfl
  | nextTurn =>
    rw [apply,nextTurn]
    split <;> exact .inr ⟨rfl,rfl⟩
  | touch path => exact .inl rfl
  | pin path => exact .inl rfl
  | unpin path => exact .inl rfl
  | remove path => exact .inl rfl
  | clear keepPinned => exact .inl rfl

/-- The counter of turns does not wrap around. -/
def Counts (ws : WorkingSet P) : Op P → Prop
  | .nextTurn => ws.currentTurn + 1 < 2 ^ 32
  | _ => True

/-- As long as the counter has not wrapped around, no access is later than the current turn. -/
theorem lastAccessTurn_le {config : WorkingSetConfig} {ops : List (Op P)}
    (hc : ∀ p ∈ (machine lossy).trail (withConfig config) ops, Counts p.1 p.2) :
    let ws := (machine lossy).exec (withConfig config) ops
    ∀ kv ∈ ws.entries, kv.2.lastAccessTurn ≤ ws.currentTurn := by
  have hrun : ∀ (ws : WorkingSet P) (ops : List (Op P)), (machine lossy).Run ws ops := by
    intro ws ops
    induction ops generalizing ws with
    | nil => exact trivial
    | cons op ops ih => exact ⟨trivial,ih _⟩
  refine (hrun _ ops).invariant_of
    (I := fun ws => ∀ kv ∈ ws.entries, kv.2.lastAccessTurn ≤ ws.currentTurn) ?_ nofun hc
  intro ws op ht _ hcount kv hkv
  have hle := (apply_change ws op).turns ht kv hkv
  change _ ≤ (ws.apply lossy op).currentTurn
  rcases @apply_currentTurn P lossy ws op with heq | ⟨hop,heq⟩
  · rwa [heq]
  · cases op with
    | nextTurn =>
      have hlt : ws.currentTurn + 1 < 2 ^ 32 := hcount
      rw [heq,u32,Nat.mod_eq_of_lt hlt]
      omega
    | _ => cases hop

/-! ## Eviction against staleness -/

/-- A new turn drops the entries that `stale_files` reports then, and nothing comes in. -/
structure EvictsStale (ws : WorkingSet P) : Prop where
  kept : ∀ kv ∈ ws.nextTurn.entries, kv ∈ ws.entries
  dropped : ∀ kv ∈ ws.entries, kv ∉ ws.nextTurn.entries ↔ kv.2 ∈ ws.counted.staleFiles

/-- Where the threshold is not yet reached, an access on turn 0 is not told from one before it;
and where the counter has wrapped around, an access may be later than the turn. -/
def InTime (config : WorkingSetConfig) (turn : ℕ) (e : WorkingSetEntry P) : Prop :=
  e.pinned = true ∨ (e.lastAccessTurn = 0 → config.staleAfterTurns ≤ turn) ∧
    (config.staleAfterTurns = 0 → e.lastAccessTurn ≤ turn)

instance (config : WorkingSetConfig) (turn : ℕ) (e : WorkingSetEntry P) :
    Decidable (InTime config turn e) := inferInstanceAs (Decidable (_ ∨ _ ∧ _))

theorem mem_staleFiles {ws : WorkingSet P} {kv : String × WorkingSetEntry P}
    (h : kv ∈ ws.entries) : kv.2 ∈ ws.staleFiles ↔ kv.2.pinned = false ∧
      ws.config.staleAfterTurns ≤ ws.currentTurn - kv.2.lastAccessTurn := by
  rw [staleFiles,List.mem_filter,and_iff_right (List.mem_map_of_mem h)]
  simp [isStale]

theorem mem_evictStale {ws : WorkingSet P} {kv : String × WorkingSetEntry P}
    (h : kv ∈ ws.entries) : kv ∉ ws.evictStale.entries ↔ kv.2.pinned = false ∧
      kv.2.lastAccessTurn ≤ ws.currentTurn - ws.config.staleAfterTurns := by
  simp [evictStale,h]

theorem dropped_iff {ws : WorkingSet P} {kv : String × WorkingSetEntry P} (h : kv ∈ ws.entries) :
    (kv ∉ ws.evictStale.entries ↔ kv.2 ∈ ws.staleFiles) ↔ InTime ws.config ws.currentTurn kv.2 := by
  rw [mem_staleFiles h,mem_evictStale h,InTime]
  cases kv.2.pinned with
  | true => simp
  | false =>
    simp only [true_and,Bool.false_eq_true,false_or]
    omega

/-- A new turn evicts exactly what is stale, exactly if every entry is in time. -/
theorem evictsStale_iff {config : WorkingSetConfig} (hauto : config.autoEvict = true)
    {ws : WorkingSet P} (h : (machine lossy).Reachable (withConfig config) ws) :
    ws.EvictsStale ↔ ∀ kv ∈ ws.entries, InTime config (u32 (ws.currentTurn + 1)) kv.2 := by
  have hconfig := reachable_config h
  have hnext : ws.nextTurn = ws.counted.evictStale := by
    rw [nextTurn,hconfig,if_pos hauto]
  have hiff (kv : String × WorkingSetEntry P) (hkv : kv ∈ ws.entries) :
      (kv ∉ ws.nextTurn.entries ↔ kv.2 ∈ ws.counted.staleFiles) ↔
        InTime config (u32 (ws.currentTurn + 1)) kv.2 := by
    rw [hnext,← hconfig]
    exact dropped_iff hkv
  constructor
  · exact fun hev kv hkv => (hiff kv hkv).mp (hev.dropped kv hkv)
  · intro hall
    refine ⟨fun kv hkv => (nextTurn_sublist ws).subset hkv,fun kv hkv => ?_⟩
    exact (hiff kv hkv).mpr (hall kv hkv)

/-- The map walked through as it stands. -/
def listed : Order P := ⟨id,fun _ => List.Perm.refl _⟩

theorem second_turn_evictsStale :
    ((machine id).exec (withConfig { staleAfterTurns := 2 })
      [.nextTurn,.add "/test/file1.rs" 100 listed,.nextTurn,.add "/test/file2.rs" 100 listed,
        .pin "/test/file2.rs"]).EvictsStale := by
  refine (evictsStale_iff rfl ⟨_,?_,rfl⟩).mpr ?_
  · exact ⟨trivial,trivial,trivial,trivial,trivial,trivial⟩
  · decide +kernel

/-- A file added on turn 0 is evicted on turn 1, ten turns before it is stale. -/
theorem first_turn_not_evictsStale :
    (machine id).Reachable (withConfig {})
        ((machine id).exec (withConfig {}) [.add "/test/file1.rs" 100 listed]) ∧
      ¬ ((machine id).exec (withConfig {}) [.add "/test/file1.rs" 100 listed]).EvictsStale := by
  refine ⟨⟨[.add "/test/file1.rs" 100 listed],⟨trivial,trivial⟩,rfl⟩,fun h => ?_⟩
  have hmem : ("/test/file1.rs",WorkingSetEntry.new "/test/file1.rs" 100 0) ∈
      ((machine id).exec (withConfig {}) [.add "/test/file1.rs" 100 listed]).entries := by
    decide +kernel
  have hstale := (h.dropped _ hmem).mp (by decide +kernel)
  revert hstale
  decide +kernel

end WorkingSet
end Rullama.Types
