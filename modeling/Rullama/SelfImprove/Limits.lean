import Rullama.SelfImprove.Controller
import Mathlib.Data.List.Basic
import Mathlib.Tactic.Common

/-! # The limits of the self-improvement loop

The limits as they are meant: on the cycles that were run, on the failures in a row, on
what the provider calls have cost and on the changed lines of the commits, each of which
holds changes of sound attempts only.
-/
namespace Rullama.SelfImprove
open Transition (Machine)

variable {diffStatLines : Repo → ℕ} {cfg : SelfImprovementConfig}

/-! ## What an attempt does -/

def linesOf (changes : List Change) : ℕ := (changes.map (fun ch => ch.lines)).sum

namespace PathOutcome
variable (o : PathOutcome)

/-- It succeeded and passed validation. -/
def succeeds : Bool :=
  match o.run with
  | .finished true _ _ => o.validated.isOk
  | _ => false

/-- It succeeded, passed validation and is not too large. -/
def Sound (cfg : SelfImprovementConfig) : Prop :=
  o.succeeds = true ∧ (o.made.map Edit.lines).sum ≤ cfg.maxDiffPerTask

/-- Its agent gets to work. -/
def active (disabled : Bool) : Bool :=
  !disabled && o.worktree.isOk && match o.run with
    | .error _ => false
    | _ => true

/-- The changes in the tree when it is done. -/
def rework (disabled : Bool) (attempt : Attempt) (tree : List Change) : List Change :=
  if o.active disabled then
    tree.filter o.kept ++ o.made.map (fun e => { e with origin := some attempt })
  else tree

theorem mem_rework {disabled : Bool} {attempt : Attempt} {tree : List Change} {ch : Change}
    (h : ch ∈ o.rework disabled attempt tree) :
    ch ∈ tree ∨ o.active disabled = true ∧ o.made ≠ [] ∧ ch.origin = some attempt := by
  unfold rework at h
  split at h
  · rename_i hactive
    rcases List.mem_append.mp h with h | h
    · exact .inl (List.mem_of_mem_filter h)
    · obtain ⟨e,he,rfl⟩ := List.mem_map.mp h
      exact .inr ⟨hactive,List.ne_nil_of_mem he,rfl⟩
  · exact .inl h

end PathOutcome

namespace Cycle
variable (c : Cycle)

def outcome : Path → PathOutcome
  | .direct => c.direct
  | .bridge => c.bridge

/-- All that a cycle asks for the current directory is answered. -/
def setUp (cfg : SelfImprovementConfig) : Bool :=
  c.repoPath.isOk && (cfg.noDirect || c.direct.worktree.isOk) &&
    (cfg.noBridge || c.bridge.worktree.isOk)

def succeeds (cfg : SelfImprovementConfig) : Bool :=
  c.setUp cfg && (!cfg.noDirect && c.direct.succeeds || !cfg.noBridge && c.bridge.succeeds)

def active (cfg : SelfImprovementConfig) : Path → Bool
  | .direct => c.repoPath.isOk && c.direct.active cfg.noDirect
  | .bridge => c.repoPath.isOk && (cfg.noDirect || c.direct.worktree.isOk) &&
      c.bridge.active cfg.noBridge

end Cycle

/-- The failures in a row at the end of a list of cycles. -/
def consecutiveFailures (cfg : SelfImprovementConfig) (past : List Cycle) : ℕ :=
  (past.reverse.takeWhile (fun c => !c.succeeds cfg)).length

theorem consecutiveFailures_append (cfg : SelfImprovementConfig) (past : List Cycle) (c : Cycle) :
    consecutiveFailures cfg (past ++ [c]) =
      if c.succeeds cfg then 0 else consecutiveFailures cfg past + 1 := by
  unfold consecutiveFailures
  rw [List.reverse_append,List.reverse_singleton,List.singleton_append,List.takeWhile_cons]
  cases c.succeeds cfg with
  | true => rfl
  | false => rfl

/-- The change comes from a sound attempt of one of the cycles. -/
def Produced (cfg : SelfImprovementConfig) (past : List Cycle) (ch : Change) : Prop :=
  ∃ a c, ch.origin = some a ∧ past[a.cycle]? = some c ∧ (c.outcome a.path).Sound cfg

theorem Produced.append {past : List Cycle} {ch : Change} (h : Produced cfg past ch) (c : Cycle) :
    Produced cfg (past ++ [c]) ch := by
  obtain ⟨a,d,horigin,hpast,hsound⟩ := h
  have hlt := (List.getElem?_eq_some_iff.mp hpast).1
  exact ⟨a,d,horigin,(List.getElem?_append_left hlt).trans hpast,hsound⟩

theorem produced_last {past : List Cycle} {c : Cycle} {p : Path} {ch : Change}
    (horigin : ch.origin = some ⟨past.length,p⟩) (hsound : (c.outcome p).Sound cfg) :
    Produced cfg (past ++ [c]) ch :=
  ⟨⟨past.length,p⟩,c,horigin,List.getElem?_concat_length,hsound⟩

/-! ## What a cycle does -/

section Steps
variable {w : World} {o : PathOutcome} {disabled : Bool} {attempt : Attempt}

theorem tree_edit (r : Repo) (attempt : Attempt) (kept : Change → Bool) (made : List Edit) :
    (r.edit attempt kept made).tree =
      r.tree.filter kept ++ made.map (fun e => { e with origin := some attempt }) := by
  simp [Repo.tree,Repo.edit]

theorem runPath_tree :
    (runPath diffStatLines disabled attempt w o).1.repo.tree =
      o.rework disabled attempt w.repo.tree := by
  unfold runPath PathOutcome.rework PathOutcome.active executePath
  cases disabled with
  | true => simp
  | false =>
    cases o.worktree with
    | error e => simp [Except.isOk,Except.toBool]
    | ok =>
      cases o.run with
      | error e => simp
      | failed e => simp [Except.isOk,Except.toBool,World.work,tree_edit]
      | finished success iterations summary =>
        simp [Except.isOk,Except.toBool,World.work,tree_edit]

theorem runPath_commits :
    (runPath diffStatLines disabled attempt w o).1.repo.commits = w.repo.commits := by
  unfold runPath executePath
  cases disabled with
  | true => rfl
  | false =>
    cases o.worktree with
    | error e => rfl
    | ok =>
      cases o.run with
      | error e => rfl
      | failed e => rfl
      | finished success iterations summary => rfl

theorem pathResult_success :
    (pathResult (executePath diffStatLines attempt w o).2 o.validated).success = o.succeeds := by
  unfold pathResult executePath PathOutcome.succeeds
  cases o.run with
  | error e => rfl
  | failed e => rfl
  | finished success iterations summary =>
    cases success with
    | false => rfl
    | true =>
      cases o.validated with
      | error e => rfl
      | ok => rfl

theorem runPath_spec {w' : World} {r : Except String (Option PathResult)}
    (h : runPath diffStatLines disabled attempt w o = (w',r)) :
    w'.repo.commits = w.repo.commits ∧ w'.repo.tree = o.rework disabled attempt w.repo.tree := by
  have hcommits : (runPath diffStatLines disabled attempt w o).1.repo.commits = _ := runPath_commits
  have htree : (runPath diffStatLines disabled attempt w o).1.repo.tree = _ := runPath_tree
  rw [h] at hcommits htree
  exact ⟨hcommits,htree⟩

theorem runPath_error {w' : World} {e : String}
    (h : runPath diffStatLines disabled attempt w o = (w',.error e)) :
    disabled = false ∧ o.worktree.isOk = false := by
  unfold runPath at h
  cases disabled with
  | true => cases h
  | false =>
    cases hworktree : o.worktree with
    | error e => exact ⟨rfl,rfl⟩
    | ok =>
      rw [hworktree] at h
      cases h

theorem runPath_ok {w' : World} {r : Option PathResult}
    (h : runPath diffStatLines disabled attempt w o = (w',.ok r)) :
    (disabled || o.worktree.isOk) = true ∧
      r.any PathResult.success = (!disabled && o.succeeds) := by
  unfold runPath at h
  cases disabled with
  | true =>
    cases h
    exact ⟨rfl,rfl⟩
  | false =>
    cases hworktree : o.worktree with
    | error e =>
      rw [hworktree] at h
      cases h
    | ok =>
      rw [hworktree] at h
      cases h
      exact ⟨rfl,pathResult_success⟩

/-- A commit takes the whole tree, or leaves it as it is. -/
theorem commitChanges_cases (r : Repo) (o : GitOutcome) :
    ((commitChanges r o).1.commits = r.commits ∧ (commitChanges r o).1.tree = r.tree) ∨
    ((commitChanges r o).1.commits = r.commits ++ [r.tree] ∧ (commitChanges r o).1.tree = []) := by
  have hadd : r.addAll.tree = r.tree := List.append_nil _
  unfold commitChanges
  cases o.add with
  | error e => exact .inl ⟨rfl,rfl⟩
  | ok =>
    cases o.status with
    | error e => exact .inl ⟨rfl,hadd⟩
    | ok =>
      dsimp only
      by_cases hempty : r.addAll.staged = []
      · rw [if_pos hempty]
        exact .inl ⟨rfl,hadd⟩
      · rw [if_neg hempty]
        cases o.commit with
        | error e => exact .inl ⟨rfl,hadd⟩
        | ok => exact .inr ⟨rfl,rfl⟩

theorem winningResult_isSome (direct bridge : Option PathResult) :
    (winningResult direct bridge).isSome =
      (direct.any PathResult.success || bridge.any PathResult.success) := by
  unfold winningResult
  cases direct with
  | none => cases bridge with
    | none => rfl
    | some b => cases hb : b.success with
      | true => simp [Option.filter,hb]
      | false => simp [Option.filter,hb]
  | some d => cases hd : d.success with
    | true => simp [Option.filter,hd]
    | false => cases bridge with
      | none => simp [Option.filter,hd]
      | some b => cases hb : b.success with
        | true => simp [Option.filter,hd,hb]
        | false => simp [Option.filter,hd,hb]

theorem commitWinner_success (r : Repo) (direct bridge : Option PathResult) (o : GitOutcome) :
    (commitWinner cfg r direct bridge o).2.success =
      (direct.any PathResult.success || bridge.any PathResult.success) := by
  unfold commitWinner
  split
  · rfl
  · split
    · split
      · rfl
      · rfl
    · rfl

/-- Only a cycle with a successful path commits, and then the whole tree. -/
theorem commitWinner_cases (r : Repo) (direct bridge : Option PathResult) (o : GitOutcome) :
    ((commitWinner cfg r direct bridge o).1.commits = r.commits ∧
      (commitWinner cfg r direct bridge o).1.tree = r.tree) ∨
    ((direct.any PathResult.success || bridge.any PathResult.success) = true ∧
      (commitWinner cfg r direct bridge o).1.commits = r.commits ++ [r.tree] ∧
      (commitWinner cfg r direct bridge o).1.tree = []) := by
  rw [← winningResult_isSome]
  unfold commitWinner
  cases winningResult direct bridge with
  | none => exact .inl ⟨rfl,rfl⟩
  | some result =>
    dsimp only
    by_cases hsize : result.diffLines ≤ cfg.maxDiffPerTask
    · rw [if_pos hsize]
      have hcases := commitChanges_cases r o
      cases hcommit : commitChanges r o with
      | mk r' answer =>
        rw [hcommit] at hcases
        cases answer with
        | error e => exact hcases.imp_right (fun h => ⟨rfl,h⟩)
        | ok hash => exact hcases.imp_right (fun h => ⟨rfl,h⟩)
    · rw [if_neg hsize]
      exact .inl ⟨rfl,rfl⟩

/-- The changes in the tree when both paths of a cycle are done. -/
def Cycle.worktree (cfg : SelfImprovementConfig) (cycle : ℕ) (tree : List Change) (c : Cycle) :
    List Change :=
  c.bridge.rework cfg.noBridge ⟨cycle,.bridge⟩ (c.direct.rework cfg.noDirect ⟨cycle,.direct⟩ tree)

/-- A cycle is broken off when the current directory is not to be had, or it has a result. -/
theorem runCycle_cases (cycle : ℕ) (w : World) (c : Cycle) :
    (∃ e, (runCycle diffStatLines cfg cycle w c).2 = .error e ∧ c.setUp cfg = false ∧
      (runCycle diffStatLines cfg cycle w c).1.repo.commits = w.repo.commits ∧
      ((runCycle diffStatLines cfg cycle w c).1.repo.tree = w.repo.tree ∨
        c.repoPath.isOk = true ∧ (runCycle diffStatLines cfg cycle w c).1.repo.tree =
          c.direct.rework cfg.noDirect ⟨cycle,.direct⟩ w.repo.tree)) ∨
    ∃ r, (runCycle diffStatLines cfg cycle w c).2 = .ok r ∧ c.setUp cfg = true ∧
      r.success = c.succeeds cfg ∧
      (((runCycle diffStatLines cfg cycle w c).1.repo.commits = w.repo.commits ∧
        (runCycle diffStatLines cfg cycle w c).1.repo.tree = c.worktree cfg cycle w.repo.tree) ∨
      (c.succeeds cfg = true ∧ (runCycle diffStatLines cfg cycle w c).1.repo.commits =
          w.repo.commits ++ [c.worktree cfg cycle w.repo.tree] ∧
        (runCycle diffStatLines cfg cycle w c).1.repo.tree = [])) := by
  unfold runCycle Cycle.setUp Cycle.succeeds Cycle.setUp Cycle.worktree
  cases hrepo : c.repoPath with
  | error e => exact .inl ⟨e,rfl,rfl,rfl,.inl rfl⟩
  | ok =>
    dsimp only
    rcases hdirect : runPath diffStatLines cfg.noDirect ⟨cycle,.direct⟩ w c.direct with
      ⟨w₁,e | direct⟩
    · obtain ⟨hcommits,htree⟩ := runPath_spec hdirect
      obtain ⟨hdisabled,hworktree⟩ := runPath_error hdirect
      exact .inl ⟨e,rfl,by simp [hdisabled,hworktree],hcommits,.inr ⟨rfl,htree⟩⟩
    · obtain ⟨hcommits,htree⟩ := runPath_spec hdirect
      obtain ⟨hset,hsuccess⟩ := runPath_ok hdirect
      dsimp only
      rcases hbridge : runPath diffStatLines cfg.noBridge ⟨cycle,.bridge⟩ w₁ c.bridge with
        ⟨w₂,e | bridge⟩
      · obtain ⟨hcommits₂,htree₂⟩ := runPath_spec hbridge
        obtain ⟨hdisabled,hworktree⟩ := runPath_error hbridge
        have hidle : c.bridge.active cfg.noBridge = false := by
          simp [PathOutcome.active,hworktree]
        have hsame : w₂.repo.tree = w₁.repo.tree := by
          rw [htree₂,PathOutcome.rework,if_neg (by simp [hidle])]
        exact .inl ⟨e,rfl,by simp [hdisabled,hworktree],hcommits₂.trans hcommits,
          .inr ⟨rfl,hsame.trans htree⟩⟩
      · obtain ⟨hcommits₂,htree₂⟩ := runPath_spec hbridge
        obtain ⟨hset₂,hsuccess₂⟩ := runPath_ok hbridge
        have hok : (Except.ok PUnit.unit : Except String Unit).isOk = true := rfl
        refine .inr ⟨_,rfl,by simp [hok,hset,hset₂],?_,?_⟩
        · simp only [commitWinner_success,hok,hset,hset₂,hsuccess,hsuccess₂,Bool.true_and]
        · have hcases : (_ ∧ (commitWinner cfg w₂.repo direct bridge c.git).1.tree = _) ∨ _ :=
            commitWinner_cases w₂.repo direct bridge c.git
          rw [hcommits₂,hcommits,htree₂,htree,hsuccess,hsuccess₂] at hcases
          simpa only [hok,hset,hset₂,Bool.true_and] using hcases

end Steps

/-! ## The invariant -/

theorem SafetyGuard.checkCanContinue_ok {g : SafetyGuard} (h : g.checkCanContinue cfg = .ok ()) :
    g.cyclesCompleted < cfg.maxCycles ∧ g.consecutiveFailures < cfg.circuitBreakerThreshold := by
  unfold checkCanContinue at h
  split at h
  · cases h
  · split at h
    · cases h
    · rename_i hcycles
      split at h
      · cases h
      · rename_i hfailures
        exact ⟨Nat.lt_of_not_le hcycles,Nat.lt_of_not_le hfailures⟩

/-- The changes come from sound attempts and are not too large altogether. -/
def Vetted (cfg : SelfImprovementConfig) (past : List Cycle) (changes : List Change) : Prop :=
  (∀ ch ∈ changes, Produced cfg past ch) ∧ linesOf changes ≤ cfg.maxDiffPerTask

theorem Vetted.append {past : List Cycle} {changes : List Change} (h : Vetted cfg past changes)
    (c : Cycle) : Vetted cfg (past ++ [c]) changes :=
  ⟨fun ch hch => (h.1 ch hch).append c,h.2⟩

namespace Controller
variable {s : Controller}

def committedLines (s : Controller) : ℕ := (s.world.repo.commits.map linesOf).sum

/-- No limit has been reached when the cycle starts, and after it all commits are vetted. -/
structure Limited (diffStatLines : Repo → ℕ) (cfg : SelfImprovementConfig) (s : Controller)
    (c : Cycle) : Prop where
  cycles : s.past.length < cfg.maxCycles
  failures : consecutiveFailures cfg s.past < cfg.circuitBreakerThreshold
  cost : s.world.spent < cfg.maxBudget
  lines : s.committedLines < cfg.maxTotalDiff
  commits : ∀ changes ∈ (s.cycle diffStatLines cfg c).world.repo.commits,
    Vetted cfg (s.past ++ [c]) changes

/-- What the guard cannot see stays within the limits, and an attempt that is not sound
leaves no change of its own behind. -/
def Contained (cfg : SelfImprovementConfig) (s : Controller) (c : Cycle) : Prop :=
  s.world.spent < cfg.maxBudget ∧ s.committedLines < cfg.maxTotalDiff ∧
    (∀ p, c.active cfg p = true → (c.outcome p).made ≠ [] → (c.outcome p).Sound cfg) ∧
    (c.succeeds cfg = true →
      linesOf (c.worktree cfg s.past.length s.world.repo.tree) ≤ cfg.maxDiffPerTask)

/-- Two of the counters are right, and no change of an unsound attempt is about. -/
structure Guarded (cfg : SelfImprovementConfig) (s : Controller) : Prop where
  cycles : s.safety.cyclesCompleted = s.past.length
  failures : s.safety.consecutiveFailures = consecutiveFailures cfg s.past
  tree : ∀ ch ∈ s.world.repo.tree, Produced cfg s.past ch
  commits : ∀ changes ∈ s.world.repo.commits, Vetted cfg s.past changes

theorem Guarded.direct (h : s.Guarded cfg) {c : Cycle} (hc : s.Contained cfg c)
    (hrepo : c.repoPath.isOk = true) {ch : Change}
    (hch : ch ∈ c.direct.rework cfg.noDirect ⟨s.past.length,.direct⟩ s.world.repo.tree) :
    Produced cfg (s.past ++ [c]) ch := by
  rcases c.direct.mem_rework hch with hold | ⟨hactive,hmade,horigin⟩
  · exact (h.tree ch hold).append c
  · have hdirect : c.active cfg .direct = true := by
      rw [Cycle.active,hrepo,hactive,Bool.and_self]
    exact produced_last horigin (hc.2.2.1 .direct hdirect hmade)

theorem Guarded.worktree (h : s.Guarded cfg) {c : Cycle} (hc : s.Contained cfg c)
    (hset : c.setUp cfg = true) {ch : Change}
    (hch : ch ∈ c.worktree cfg s.past.length s.world.repo.tree) :
    Produced cfg (s.past ++ [c]) ch := by
  simp only [Cycle.setUp,Bool.and_eq_true] at hset
  obtain ⟨⟨hrepo,hdirect⟩,_⟩ := hset
  rcases c.bridge.mem_rework hch with hold | ⟨hactive,hmade,horigin⟩
  · exact h.direct hc hrepo hold
  · have hbridge : c.active cfg .bridge = true := by
      rw [Cycle.active,hrepo,hdirect,hactive,Bool.and_self,Bool.and_self]
    exact produced_last horigin (hc.2.2.1 .bridge hbridge hmade)

theorem record_cycles (g : SafetyGuard) (r : Except String CycleResult) :
    (g.record r).cyclesCompleted = g.cyclesCompleted + 1 := by
  cases r with
  | error e => rfl
  | ok r =>
    simp only [SafetyGuard.record]
    split
    · rfl
    · rfl

theorem record_failures (g : SafetyGuard) (r : Except String CycleResult) :
    (g.record r).consecutiveFailures =
      if r.toOption.any CycleResult.success then 0 else g.consecutiveFailures + 1 := by
  cases r with
  | error e => rfl
  | ok r =>
    have hany : (Except.ok r : Except String CycleResult).toOption.any CycleResult.success =
        r.success := rfl
    rw [hany,SafetyGuard.record]
    by_cases hsuccess : r.success = true
    · rw [if_pos hsuccess,if_pos hsuccess]
      rfl
    · rw [if_neg hsuccess,if_neg hsuccess]
      rfl

theorem succeeds_of_setUp {c : Cycle} (h : c.setUp cfg = false) : c.succeeds cfg = false := by
  rw [Cycle.succeeds,h,Bool.false_and]

theorem Guarded.cycle (h : s.Guarded cfg) {c : Cycle} (hc : s.Contained cfg c) :
    (s.cycle diffStatLines cfg c).Guarded cfg := by
  have hcounts : (s.cycle diffStatLines cfg c).safety.cyclesCompleted =
      (s.cycle diffStatLines cfg c).past.length := by
    simp only [Controller.cycle,record_cycles,h.cycles,List.length_append,List.length_singleton]
  have hfailures : ∀ success, success = c.succeeds cfg →
      (if success then 0 else s.safety.consecutiveFailures + 1) =
        consecutiveFailures cfg (s.past ++ [c]) := by
    rintro success rfl
    rw [consecutiveFailures_append,h.failures]
  have hkept : ∀ changes ∈ s.world.repo.commits, Vetted cfg (s.past ++ [c]) changes :=
    fun changes hchanges => (h.commits changes hchanges).append c
  have hcycle : (∃ e, (runCycle diffStatLines cfg s.past.length s.world c).2 = .error e ∧ _) ∨ _ :=
    runCycle_cases s.past.length s.world c
  rcases hcycle with
    ⟨e,hresult,hset,hcommits,htree⟩ | ⟨r,hresult,hset,hsuccess,hcases⟩
  · refine ⟨hcounts,?_,?_,?_⟩
    · simp only [Controller.cycle,record_failures,hresult]
      exact hfailures _ (succeeds_of_setUp hset).symm
    · intro ch hch
      rcases htree with htree | ⟨hrepo,htree⟩
      · exact (h.tree ch (htree ▸ hch)).append c
      · exact h.direct hc hrepo (htree ▸ hch)
    · intro changes hchanges
      exact hkept changes (hcommits ▸ hchanges)
  · refine ⟨hcounts,?_,?_,?_⟩
    · simp only [Controller.cycle,record_failures,hresult]
      exact hfailures _ hsuccess
    · intro ch hch
      rcases hcases with ⟨_,htree⟩ | ⟨_,_,htree⟩
      · exact h.worktree hc hset (htree ▸ hch)
      · exact absurd (htree ▸ hch) List.not_mem_nil
    · intro changes hchanges
      rcases hcases with ⟨hcommits,_⟩ | ⟨hsucceeds,hcommits,_⟩
      · exact hkept changes (hcommits ▸ hchanges)
      · rcases List.mem_append.mp (hcommits ▸ hchanges) with hold | hnew
        · exact hkept changes hold
        · cases List.mem_singleton.mp hnew
          exact ⟨fun ch hch => h.worktree hc hset hch,hc.2.2.2 hsucceeds⟩

theorem Guarded.limited (h : s.Guarded cfg) {c : Cycle} (hc : s.Contained cfg c)
    (hgo : s.safety.checkCanContinue cfg = .ok ()) : s.Limited diffStatLines cfg c := by
  obtain ⟨hcycles,hfailures⟩ := SafetyGuard.checkCanContinue_ok hgo
  exact ⟨h.cycles ▸ hcycles,h.failures ▸ hfailures,hc.1,hc.2.1,(h.cycle hc).commits⟩

/-! ## The whole run -/

/-- The tasks of a run whose cycles are started. -/
def started (diffStatLines : Repo → ℕ) (cfg : SelfImprovementConfig) :
    Controller → List Cycle → List Cycle
  | _, [] => []
  | s, c :: cs =>
    if cfg.dryRun = false ∧ (s.safety.checkCanContinue cfg).isOk = true then
      c :: started diffStatLines cfg (s.cycle diffStatLines cfg c) cs
    else []

theorem isOk_iff (g : SafetyGuard) :
    (g.checkCanContinue cfg).isOk = true ↔ g.checkCanContinue cfg = .ok () := by
  cases g.checkCanContinue cfg with
  | error e => simp [Except.isOk,Except.toBool]
  | ok => simp [Except.isOk,Except.toBool]

theorem started_run (s : Controller) (tasks : List Cycle) :
    (improvement diffStatLines cfg).Run s (started diffStatLines cfg s tasks) := by
  induction tasks generalizing s with
  | nil => exact trivial
  | cons c cs ih =>
    unfold started
    split
    · rename_i hgo
      exact ⟨⟨hgo.1,(isOk_iff _).mp hgo.2⟩,ih _⟩
    · exact trivial

/-- What a run does is what the cycles that it starts do. -/
theorem run_eq_exec (s : Controller) (tasks : List Cycle) :
    (s.run diffStatLines cfg tasks).1 =
      (improvement diffStatLines cfg).exec s (started diffStatLines cfg s tasks) := by
  unfold run
  cases hdry : cfg.dryRun with
  | true =>
    cases tasks with
    | nil => rfl
    | cons c cs => simp [started,hdry]
  | false =>
    rw [if_neg Bool.false_ne_true]
    induction tasks generalizing s with
    | nil => rfl
    | cons c cs ih =>
      unfold started runTasks
      cases hgo : s.safety.checkCanContinue cfg with
      | error e => simp [Except.isOk,Except.toBool]
      | ok =>
        rw [if_pos ⟨hdry,rfl⟩]
        exact ih _

end Controller

/-- Git's own count: a line for each tracked file that is not staged, and one for the sum. -/
def statLines (r : Repo) : ℕ :=
  let files := ((r.unstaged.filter (fun ch => ch.tracked)).map (fun ch => ch.file)).dedup
  if files = [] then 0 else files.length + 1

/-- A path that runs to its end and keeps what it finds. -/
def attempted (success : Bool) (made : List Edit) : PathOutcome where
  worktree := .ok ()
  run := .finished success 3 "Done."
  kept := fun _ => true
  made := made
  cost := 1
  diff := .ok ()
  validated := .ok ()

def committing : GitOutcome := ⟨.ok (),.ok (),.ok (),.ok "c0ffee"⟩

/-- The direct path does the task, the bridge cannot be reached. -/
def doneDirectly : Cycle where
  repoPath := .ok ()
  direct := attempted true [⟨"src/lib.rs",true,2⟩]
  bridge := { attempted false [] with run := .failed "Bridge connect failed" }
  git := committing

def cleanStart : Controller := { world := { repo := {} } }

/-- The direct path fails and leaves a change behind, then the bridge succeeds. -/
def failedDirectly : Cycle where
  repoPath := .ok ()
  direct := attempted false [⟨"src/broken.rs",true,5⟩]
  bridge := attempted true [⟨"src/lib.rs",true,2⟩]
  git := committing

end Rullama.SelfImprove
