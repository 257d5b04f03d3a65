import Rullama.Agents.Session

/-! # The cap on the agents of a session

Agents of one session start side by side. Each checks the budget before it is spawned, with one
atomic load for each limit, and counts itself when it starts executing. Nothing in the code calls
the check, so an agent may also start without it. Who has passed the check of the cap and who is
counted are ghosts.
-/
namespace Rullama.Agents
open Transition (Machine)

/-- How far the start of an agent is. -/
inductive SpawnStage where
  | new
  /-- `agents_spawned` is below the limit -/
  | agentsChecked
  /-- and `tokens_used` -/
  | tokensChecked
  /-- `check_before_spawn` has returned -/
  | admitted
  | rejected (error : BudgetError)
  | counted
deriving DecidableEq

inductive SpawnEvent (ι : Type*) where
  | loadAgents (i : ι)
  | loadTokens (i : ι)
  | loadCost (i : ι)
  | increment (i : ι)
  | record (tokens : ℕ) (costUsd : ℚ)

structure Spawning (ι : Type*) where
  budget : SessionBudget
  stage : ι → SpawnStage
  passed : List ι
  admitted : List ι
  counted : List ι

namespace SessionBudget
variable (b : SessionBudget)

def agentsError : Option BudgetError :=
  b.maxAgents.bind (fun limit =>
    if limit ≤ b.agentsSpawned then some (.agentsExceeded b.agentsSpawned limit) else none)

def tokensError : Option BudgetError :=
  b.maxTotalTokens.bind (fun limit =>
    if limit ≤ b.tokensUsed then some (.tokensExceeded b.tokensUsed limit) else none)

def costError : Option BudgetError :=
  b.maxTotalCostUsd.bind (fun limitUsd =>
    if limitUsd ≤ b.costUsedUsd then some (.costExceeded b.costUsedUsd limitUsd) else none)

end SessionBudget

variable {ι : Type*} [DecidableEq ι]

namespace Spawning

def start (maxTotalTokens : Option ℕ) (maxTotalCostUsd : Option ℚ) (maxAgents : Option ℕ) :
    Spawning ι where
  budget := { maxTotalTokens, maxTotalCostUsd, maxAgents }
  stage _ := .new
  passed := []
  admitted := []
  counted := []

variable (s : Spawning ι) (i : ι)

def staged (stage : SpawnStage) : Spawning ι := { s with stage := Function.update s.stage i stage }

def reject (error : BudgetError) : Spawning ι :=
  { s.staged i (.rejected error) with passed := s.passed.erase i }

def loadAgents : Spawning ι :=
  match s.budget.agentsError with
  | some error => s.reject i error
  | none => { s.staged i .agentsChecked with passed := i :: s.passed }

def loadTokens : Spawning ι :=
  match s.budget.tokensError with
  | some error => s.reject i error
  | none => s.staged i .tokensChecked

def loadCost : Spawning ι :=
  match s.budget.costError with
  | some error => s.reject i error
  | none => { s.staged i .admitted with admitted := i :: s.admitted }

def increment : Spawning ι :=
  { s.staged i .counted with
    budget := s.budget.incrementAgentCount
    passed := s.passed.erase i
    counted := i :: s.counted }

end Spawning

def spawning : Machine (Spawning ι) (SpawnEvent ι) where
  enabled s
    | .loadAgents i => s.stage i = .new
    | .loadTokens i => s.stage i = .agentsChecked
    | .loadCost i => s.stage i = .tokensChecked
    | .increment i => s.stage i = .new ∨ s.stage i = .admitted
    | .record _ _ => True
  next s
    | .loadAgents i => s.loadAgents i
    | .loadTokens i => s.loadTokens i
    | .loadCost i => s.loadCost i
    | .increment i => s.increment i
    | .record tokens costUsd => { s with budget := s.budget.recordRun tokens costUsd }

instance (s : Spawning ι) : (e : SpawnEvent ι) → Decidable (spawning.enabled s e)
  | .loadAgents i => inferInstanceAs (Decidable (s.stage i = .new))
  | .loadTokens i => inferInstanceAs (Decidable (s.stage i = .agentsChecked))
  | .loadCost i => inferInstanceAs (Decidable (s.stage i = .tokensChecked))
  | .increment i => inferInstanceAs (Decidable (s.stage i = .new ∨ s.stage i = .admitted))
  | .record _ _ => isTrue trivial

/-- No more agents are counted than the cap allows, none twice, only admitted ones, and all of
these but for those that have not started yet. -/
structure Capped (s : Spawning ι) : Prop where
  cap : ∀ limit ∈ s.budget.maxAgents, s.counted.length ≤ limit
  once : s.counted.Nodup
  admitted : ∀ i, i ∈ s.admitted ↔ i ∈ s.counted ∨ s.stage i = .admitted
  spawned : s.budget.agentsSpawned = s.counted.length % 2 ^ 32

/-- A check of the cap that passes leaves room for the agents that have passed it before and are
not counted yet, and only an admitted agent starts. -/
def Reserves (s : Spawning ι) : SpawnEvent ι → Prop
  | .loadAgents _ => s.budget.agentsError = none →
      ∀ limit ∈ s.budget.maxAgents, s.counted.length + s.passed.length < limit
  | .increment i => s.stage i = .admitted
  | _ => True

instance (s : Spawning ι) : (e : SpawnEvent ι) → Decidable (Reserves s e)
  | .loadAgents _ => inferInstanceAs (Decidable (s.budget.agentsError = none →
      ∀ limit ∈ s.budget.maxAgents, s.counted.length + s.passed.length < limit))
  | .increment i => inferInstanceAs (Decidable (s.stage i = .admitted))
  | .loadTokens _ | .loadCost _ | .record _ _ => isTrue trivial

/-- The agent has passed the check of the cap and is not counted yet. -/
def SpawnStage.InFlight (stage : SpawnStage) : Prop :=
  stage = .agentsChecked ∨ stage = .tokensChecked ∨ stage = .admitted

def SpawnStage.Allowed (stage : SpawnStage) : Prop := stage = .counted ∨ stage = .admitted

/-- The list has the agents in stages of a kind, each once. -/
def Tracks (f : ι → SpawnStage) (P : SpawnStage → Prop) (l : List ι) : Prop :=
  l.Nodup ∧ ∀ i, i ∈ l ↔ P (f i)

/-- The lists go by the stages, and counted and passed agents together keep to the cap. -/
structure Reserved (s : Spawning ι) : Prop where
  cap : ∀ limit ∈ s.budget.maxAgents, s.counted.length + s.passed.length ≤ limit
  counted : Tracks s.stage (· = .counted) s.counted
  passed : Tracks s.stage SpawnStage.InFlight s.passed
  admitted : Tracks s.stage SpawnStage.Allowed s.admitted
  spawned : s.budget.agentsSpawned = s.counted.length % 2 ^ 32

variable {s : Spawning ι} {e : SpawnEvent ι} {i : ι} {stage : SpawnStage} {f : ι → SpawnStage}
  {P : SpawnStage → Prop} {l : List ι}

omit [DecidableEq ι] in
theorem Reserved.capped (h : Reserved s) : Capped s where
  cap limit hlimit := by
    have hle := h.cap limit hlimit
    omega
  once := h.counted.1
  admitted i := by
    rw [h.admitted.2 i,h.counted.2 i]
    exact Iff.rfl
  spawned := h.spawned

/-! ## Steps -/

theorem Tracks.keep (h : Tracks f P l) (hi : P stage ↔ P (f i)) :
    Tracks (Function.update f i stage) P l := by
  refine ⟨h.1,fun j => ?_⟩
  by_cases hj : j = i
  · rw [hj,Function.update_self,hi]
    exact h.2 i
  · rw [Function.update_of_ne hj]
    exact h.2 j

theorem Tracks.cons (h : Tracks f P l) (hi : ¬ P (f i)) (hstage : P stage) :
    Tracks (Function.update f i stage) P (i :: l) := by
  refine ⟨List.nodup_cons.mpr ⟨fun hmem => hi ((h.2 i).mp hmem),h.1⟩,fun j => ?_⟩
  by_cases hj : j = i
  · rw [hj,Function.update_self]
    exact iff_of_true List.mem_cons_self hstage
  · rw [Function.update_of_ne hj,List.mem_cons,← h.2 j]
    exact or_iff_right hj

theorem Tracks.erase (h : Tracks f P l) (hstage : ¬ P stage) :
    Tracks (Function.update f i stage) P (l.erase i) := by
  refine ⟨h.1.erase i,fun j => ?_⟩
  by_cases hj : j = i
  · rw [hj,Function.update_self]
    exact iff_of_false h.1.not_mem_erase hstage
  · rw [Function.update_of_ne hj,List.mem_erase_of_ne hj]
    exact h.2 j

omit [DecidableEq ι] in
theorem reserved_start (maxTotalTokens : Option ℕ) (maxTotalCostUsd : Option ℚ)
    (maxAgents : Option ℕ) :
    Reserved (.start maxTotalTokens maxTotalCostUsd maxAgents : Spawning ι) where
  cap _ _ := Nat.zero_le _
  counted := ⟨List.nodup_nil,fun i => by simp [Spawning.start]⟩
  passed := ⟨List.nodup_nil,fun i => by simp [Spawning.start,SpawnStage.InFlight]⟩
  admitted := ⟨List.nodup_nil,fun i => by simp [Spawning.start,SpawnStage.Allowed]⟩
  spawned := rfl

/-- An agent whose check fails gives its place back. -/
theorem Reserved.reject (h : Reserved s) (hc : s.stage i ≠ .counted) (ha : s.stage i ≠ .admitted)
    (error : BudgetError) : Reserved (s.reject i error) where
  cap limit hlimit := by
    have hle := h.cap limit hlimit
    have herase : (s.passed.erase i).length ≤ s.passed.length := List.length_erase_le
    exact le_trans (Nat.add_le_add_left herase _) hle
  counted := h.counted.keep (by simp [hc])
  passed := h.passed.erase (by simp [SpawnStage.InFlight])
  admitted := h.admitted.keep (by simp [SpawnStage.Allowed,hc,ha])
  spawned := h.spawned

theorem Reserved.loadAgents (h : Reserved s) (hi : s.stage i = .new)
    (hr : Reserves s (.loadAgents i)) : Reserved (s.loadAgents i) := by
  rw [Spawning.loadAgents]
  cases herror : s.budget.agentsError with
  | some error => exact h.reject (by simp [hi]) (by simp [hi]) error
  | none =>
    refine ⟨?_,?_,?_,?_,h.spawned⟩
    · intro limit hlimit
      have hlt := hr herror limit hlimit
      exact hlt
    · exact h.counted.keep (by simp [hi])
    · exact h.passed.cons (by simp [hi,SpawnStage.InFlight]) (by simp [SpawnStage.InFlight])
    · exact h.admitted.keep (by simp [hi,SpawnStage.Allowed])

theorem Reserved.loadTokens (h : Reserved s) (hi : s.stage i = .agentsChecked) :
    Reserved (s.loadTokens i) := by
  rw [Spawning.loadTokens]
  split
  · exact h.reject (by simp [hi]) (by simp [hi]) _
  · refine ⟨h.cap,?_,?_,?_,h.spawned⟩
    · exact h.counted.keep (by simp [hi])
    · exact h.passed.keep (by simp [hi,SpawnStage.InFlight])
    · exact h.admitted.keep (by simp [hi,SpawnStage.Allowed])

theorem Reserved.loadCost (h : Reserved s) (hi : s.stage i = .tokensChecked) :
    Reserved (s.loadCost i) := by
  rw [Spawning.loadCost]
  split
  · exact h.reject (by simp [hi]) (by simp [hi]) _
  · refine ⟨h.cap,?_,?_,?_,h.spawned⟩
    · exact h.counted.keep (by simp [hi])
    · exact h.passed.keep (by simp [hi,SpawnStage.InFlight])
    · exact h.admitted.cons (by simp [hi,SpawnStage.Allowed]) (.inr rfl)

theorem Reserved.increment (h : Reserved s) (hi : s.stage i = .admitted) :
    Reserved (s.increment i) where
  cap limit hlimit := by
    have hle := h.cap limit hlimit
    have hmem : i ∈ s.passed := (h.passed.2 i).mpr (by simp [hi,SpawnStage.InFlight])
    have hpos := List.length_pos_of_mem hmem
    simp only [Spawning.increment,List.length_cons,List.length_erase_of_mem hmem]
    omega
  counted := h.counted.cons (by simp [hi]) rfl
  passed := h.passed.erase (by simp [SpawnStage.InFlight])
  admitted := h.admitted.keep (by simp [hi,SpawnStage.Allowed])
  spawned := by
    simp only [Spawning.increment,SessionBudget.incrementAgentCount,h.spawned,List.length_cons]
    omega

theorem Reserved.next (h : Reserved s) (he : spawning.enabled s e) (hr : Reserves s e) :
    Reserved (spawning.next s e) := by
  cases e with
  | loadAgents i => exact h.loadAgents he hr
  | loadTokens i => exact h.loadTokens he
  | loadCost i => exact h.loadCost he
  | increment i => exact h.increment hr
  | record tokens costUsd => exact ⟨h.cap,h.counted,h.passed,h.admitted,h.spawned⟩

/-! ## Runs -/

theorem checkBeforeSpawn_eq (b : SessionBudget) :
    b.checkBeforeSpawn = (b.agentsError.or b.tokensError).or b.costError := rfl

/-- A check whose loads nothing comes between admits the agent where `check_before_spawn` does, -/
theorem run_admitted (hi : s.stage i = .new) (hcheck : s.budget.checkBeforeSpawn = none) :
    spawning.Run s [.loadAgents i,.loadTokens i,.loadCost i] ∧
      (spawning.exec s [.loadAgents i,.loadTokens i,.loadCost i]).stage i = .admitted := by
  rw [checkBeforeSpawn_eq,Option.or_eq_none_iff,Option.or_eq_none_iff] at hcheck
  obtain ⟨⟨hagents,htokens⟩,hcost⟩ := hcheck
  simp [spawning,Spawning.loadAgents,Spawning.loadTokens,Spawning.loadCost,Spawning.staged,hagents,
    htokens,hcost,hi]

/-- and rejects it with the same error where it does not. -/
theorem run_rejected (hi : s.stage i = .new) {error : BudgetError}
    (hcheck : s.budget.checkBeforeSpawn = some error) :
    ∃ es, es <+: [.loadAgents i,.loadTokens i,.loadCost i] ∧ spawning.Run s es ∧
      (spawning.exec s es).stage i = .rejected error := by
  rw [checkBeforeSpawn_eq] at hcheck
  cases hagents : s.budget.agentsError with
  | some error' =>
    obtain rfl : error' = error := by simpa [hagents] using hcheck
    refine ⟨[.loadAgents i],⟨[.loadTokens i,.loadCost i],rfl⟩,⟨hi,trivial⟩,?_⟩
    simp [spawning,Spawning.loadAgents,Spawning.reject,Spawning.staged,hagents]
  | none =>
    cases htokens : s.budget.tokensError with
    | some error' =>
      obtain rfl : error' = error := by simpa [hagents,htokens] using hcheck
      refine ⟨[.loadAgents i,.loadTokens i],⟨[.loadCost i],rfl⟩,?_⟩
      simp [spawning,Spawning.loadAgents,Spawning.loadTokens,Spawning.reject,Spawning.staged,hagents,
        htokens,hi]
    | none =>
      have hcost : s.budget.costError = some error := by simpa [hagents,htokens] using hcheck
      refine ⟨_,List.prefix_refl _,?_⟩
      simp [spawning,Spawning.loadAgents,Spawning.loadTokens,Spawning.loadCost,Spawning.reject,
        Spawning.staged,hagents,htokens,hcost,hi]

/-- In every session, with whatever limits, and in every order of steps the cap is kept and each
admitted agent is counted once, as long as the checks that pass leave room for one another. -/
theorem run_capped {maxTotalTokens : Option ℕ} {maxTotalCostUsd : Option ℚ} {maxAgents : Option ℕ}
    {es : List (SpawnEvent ι)}
    (hr : spawning.Run (.start maxTotalTokens maxTotalCostUsd maxAgents) es)
    (hc : ∀ p ∈ spawning.trail (.start maxTotalTokens maxTotalCostUsd maxAgents) es,
      Reserves p.1 p.2) :
    Capped (spawning.exec (.start maxTotalTokens maxTotalCostUsd maxAgents) es) :=
  (hr.invariant_of (fun _ _ h he hc => Reserved.next h he hc)
    (reserved_start maxTotalTokens maxTotalCostUsd maxAgents) hc).capped

/-- Two agents are admitted one after the other, and there is no third one. -/
def cappedRun : List (SpawnEvent ℕ) :=
  [.loadAgents 0, .loadTokens 0, .loadCost 0, .loadAgents 1, .increment 0, .record 500 0,
    .loadTokens 1, .loadCost 1, .increment 1, .loadAgents 2]

theorem cappedRun_capped :
    Capped (spawning.exec (.start (some 1000) none (some 2)) cappedRun : Spawning ℕ) :=
  run_capped (by decide +kernel) (by decide +kernel)

/-- Both agents load the counter before either of them is counted. -/
def racingRun : List (SpawnEvent ℕ) :=
  [.loadAgents 0, .loadAgents 1, .loadTokens 0, .loadTokens 1, .loadCost 0, .loadCost 1,
    .increment 0, .increment 1]

theorem racingRun_exceeds : ¬ ∀ (maxTotalTokens : Option ℕ) (maxTotalCostUsd : Option ℚ)
    (maxAgents : Option ℕ) (es : List (SpawnEvent ℕ)),
    spawning.Run (.start maxTotalTokens maxTotalCostUsd maxAgents) es →
      Capped (spawning.exec (.start maxTotalTokens maxTotalCostUsd maxAgents) es) := by
  intro h
  have hcap := (h none none (some 1) racingRun (by decide +kernel)).cap 1 rfl
  exact absurd hcap (by decide +kernel)

end Rullama.Agents
