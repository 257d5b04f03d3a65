import Mathlib.Data.Nat.Find
import Rullama.Tools.Executor

/-! # Tools that are tried again

A tool that fails in a way that may pass is tried again, for as long as the retry strategy of its
error gives a delay. The classification of errors is outside the repository. What `execute` returns
at each attempt is an argument.
-/
namespace Rullama.Tools.Retry

/-- `classify_error`, and what is asked of a category. -/
structure Taxonomy (Category : Type) where
  classifyError : String → String → Category
  isRetryable : Category → Bool
  delayForAttempt : Category → ℕ → Option ℕ

inductive ToolOutcome (Category : Type) where
  | success (toolName : String) (retries executionTimeMs : ℕ)
  | failure (toolName : String) (retries : ℕ) (category : Category) (executionTimeMs : ℕ)

/-- What each attempt of a call returns, and how long the call has taken by then. -/
structure Trial where
  toolUse : ToolUse
  execute : ℕ → Except String ToolResult
  elapsed : ℕ → ℕ

variable {Category : Type} (T : Taxonomy Category) (trial : Trial)

/-- The loop, which counts the attempts in 32 bits. -/
def retryLoop : ℕ → ℕ → Option ToolResult →
    Option (Except String (ToolResult × ToolOutcome Category))
  | 0, _, _ => none
  | fuel + 1, attempt, lastResult =>
    match trial.execute attempt with
    | .error e => some (.error e)
    | .ok result =>
      if !result.isError then
        some (.ok (result,.success trial.toolUse.name attempt (trial.elapsed attempt)))
      else
        let category := T.classifyError trial.toolUse.name result.content
        let outcome := .failure trial.toolUse.name attempt category (trial.elapsed attempt)
        if !T.isRetryable category then some (.ok (result,outcome))
        else
          match T.delayForAttempt category attempt with
          | some _ =>
            if attempt + 1 < UInt32.size then retryLoop fuel (attempt + 1) (some result) else none
          | none => some (.ok (lastResult.getD result,outcome))

def executeWithRetry (fuel : ℕ) : Option (Except String (ToolResult × ToolOutcome Category)) :=
  retryLoop T trial fuel 0 none

/-- The error that an attempt ends in, if it may pass. -/
def retryable (k : ℕ) : Option Category :=
  match trial.execute k with
  | .error _ => none
  | .ok result =>
    if result.isError then
      (some (T.classifyError trial.toolUse.name result.content)).filter T.isRetryable
    else none

/-- Another attempt follows. -/
def Retried (k : ℕ) : Prop :=
  ∃ category ∈ retryable T trial k, (T.delayForAttempt category k).isSome

/-- The attempt could have been repeated, but for the strategy. -/
def Exhausted (k : ℕ) : Prop :=
  ∃ category ∈ retryable T trial k, T.delayForAttempt category k = none

/-- The attempts stop at the first that is not followed by another. -/
structure IsLast (k : ℕ) : Prop where
  before : ∀ j < k, Retried T trial j
  stops : ¬Retried T trial k

/-- The strategies give no delay from some attempt on. -/
def GivesUp : Prop :=
  ∃ n < UInt32.size, ∀ k, n ≤ k → k < UInt32.size → ∀ category ∈ retryable T trial k,
    T.delayForAttempt category k = none

/-- The result of an attempt, and an outcome that describes it. -/
def described (k : ℕ) : Except String (ToolResult × ToolOutcome Category) :=
  match trial.execute k with
  | .error e => .error e
  | .ok result =>
    .ok (result,if result.isError then
      .failure trial.toolUse.name k (T.classifyError trial.toolUse.name result.content)
        (trial.elapsed k)
      else .success trial.toolUse.name k (trial.elapsed k))

/-- The loop ends with the last attempt and describes it. -/
def Describes : Prop :=
  ∃ k, IsLast T trial k ∧ ∀ fuel > k, executeWithRetry T trial fuel = some (described T trial k)

variable {T trial} {k fuel : ℕ}

/-! ## One attempt -/

theorem exists_of_retryable {category : Category} (h : retryable T trial k = some category) :
    ∃ result, trial.execute k = .ok result ∧ result.isError = true ∧
      T.classifyError trial.toolUse.name result.content = category ∧
      T.isRetryable category = true := by
  rw [retryable] at h
  cases hexecute : trial.execute k with
  | error e =>
    rw [hexecute] at h
    cases h
  | ok result =>
    rw [hexecute] at h
    simp only at h
    split at h
    · rename_i herror
      obtain ⟨heq,hretry⟩ := Option.filter_eq_some_iff.mp h
      cases heq
      exact ⟨result,rfl,herror,rfl,hretry⟩
    · cases h

theorem retryLoop_of_retried (h : Retried T trial k) (hk : k + 1 < UInt32.size) (fuel : ℕ)
    (last : Option ToolResult) :
    ∃ result, trial.execute k = .ok result ∧
      retryLoop T trial (fuel + 1) k last = retryLoop T trial fuel (k + 1) (some result) := by
  obtain ⟨category,hcategory,hdelay⟩ := h
  obtain ⟨result,hexecute,herror,rfl,hretry⟩ := exists_of_retryable hcategory
  obtain ⟨delay,hdelay⟩ := Option.isSome_iff_exists.mp hdelay
  refine ⟨result,hexecute,?_⟩
  simp [retryLoop,hexecute,herror,hretry,hdelay,hk]

theorem retryLoop_of_exhausted (h : Exhausted T trial k) (fuel : ℕ) (last : Option ToolResult) :
    ∃ result, trial.execute k = .ok result ∧ described T trial k = .ok (result,.failure
        trial.toolUse.name k (T.classifyError trial.toolUse.name result.content)
          (trial.elapsed k)) ∧
      retryLoop T trial (fuel + 1) k last = some (.ok (last.getD result,.failure
        trial.toolUse.name k (T.classifyError trial.toolUse.name result.content)
          (trial.elapsed k))) := by
  obtain ⟨category,hcategory,hdelay⟩ := h
  obtain ⟨result,hexecute,herror,rfl,hretry⟩ := exists_of_retryable hcategory
  refine ⟨result,hexecute,?_,?_⟩
  · simp [described,hexecute,herror]
  · simp [retryLoop,hexecute,herror,hretry,hdelay]

theorem retryLoop_of_ends (hretried : ¬Retried T trial k) (hexhausted : ¬Exhausted T trial k)
    (fuel : ℕ) (last : Option ToolResult) :
    retryLoop T trial (fuel + 1) k last = some (described T trial k) := by
  have hnone : retryable T trial k = none := by
    cases hcategory : retryable T trial k with
    | none => rfl
    | some category =>
      cases hdelay : T.delayForAttempt category k with
      | none => exact absurd ⟨category,hcategory,hdelay⟩ hexhausted
      | some delay => exact absurd ⟨category,hcategory,by rw [hdelay]; rfl⟩ hretried
  rw [retryable] at hnone
  cases hexecute : trial.execute k with
  | error e => simp [retryLoop,described,hexecute]
  | ok result =>
    rw [hexecute] at hnone
    cases herror : result.isError with
    | false => simp [retryLoop,described,hexecute,herror]
    | true =>
      have hretry : T.isRetryable (T.classifyError trial.toolUse.name result.content) = false := by
        simpa [herror] using hnone
      simp [retryLoop,described,hexecute,herror,hretry]

/-! ## The loop -/

/-- What is kept of the attempt before. -/
def keptBefore (trial : Trial) : ℕ → Option ToolResult
  | 0 => none
  | k + 1 => (trial.execute k).toOption

theorem retryLoop_from_start (h : ∀ j < k, Retried T trial j) (hk : k < UInt32.size) :
    retryLoop T trial (fuel + k) 0 none = retryLoop T trial fuel k (keptBefore trial k) := by
  induction k generalizing fuel with
  | zero => rfl
  | succ k ih =>
    have hfuel : fuel + (k + 1) = fuel + 1 + k := by omega
    obtain ⟨result,hexecute,hstep⟩ :=
      retryLoop_of_retried (h k (Nat.lt_succ_self k)) hk fuel (keptBefore trial k)
    rw [hfuel,ih (fun j hj => h j (by omega)) (by omega),hstep,keptBefore,hexecute]
    rfl

theorem IsLast.unique {k' : ℕ} (h : IsLast T trial k) (h' : IsLast T trial k') : k = k' := by
  rcases lt_trichotomy k k' with hlt | heq | hlt
  · exact absurd (h'.before k hlt) h.stops
  · exact heq
  · exact absurd (h.before k' hlt) h'.stops

theorem GivesUp.exists_isLast (h : GivesUp T trial) : ∃ k < UInt32.size, IsLast T trial k := by
  classical
  obtain ⟨n,hn,hnone⟩ := h
  have hend : ¬Retried T trial n := by
    rintro ⟨category,hcategory,hdelay⟩
    rw [hnone n (Nat.le_refl n) hn category hcategory] at hdelay
    cases hdelay
  have hstops : ∃ k, ¬Retried T trial k := ⟨n,hend⟩
  refine ⟨Nat.find hstops,(Nat.find_min' hstops hend).trans_lt hn,?_,Nat.find_spec hstops⟩
  exact fun j hj => not_not.mp (Nat.find_min hstops hj)

/-- The call returns whatever the last attempt makes of it. -/
theorem IsLast.executeWithRetry_eq (h : IsLast T trial k) (hk : k < UInt32.size)
    (hfuel : k < fuel) :
    ∃ rest, executeWithRetry T trial fuel =
      retryLoop T trial (rest + 1) k (keptBefore trial k) := by
  obtain ⟨rest,rfl⟩ : ∃ rest, fuel = rest + 1 + k := ⟨fuel - k - 1,by omega⟩
  exact ⟨rest,retryLoop_from_start h.before hk⟩

theorem IsLast.isSome (h : IsLast T trial k) (hk : k < UInt32.size) (hfuel : k < fuel) :
    (executeWithRetry T trial fuel).isSome = true := by
  obtain ⟨rest,heq⟩ := h.executeWithRetry_eq hk hfuel
  rw [heq]
  by_cases hexhausted : Exhausted T trial k
  · obtain ⟨result,-,-,hloop⟩ :=
      retryLoop_of_exhausted hexhausted rest (keptBefore trial k)
    rw [hloop]
    rfl
  · rw [retryLoop_of_ends h.stops hexhausted]
    rfl

theorem IsLast.described_iff (h : IsLast T trial k) (hk : k < UInt32.size) (hfuel : k < fuel) :
    executeWithRetry T trial fuel = some (described T trial k) ↔
      ∀ j, k = j + 1 → Exhausted T trial k → trial.execute j = trial.execute k := by
  obtain ⟨rest,heq⟩ := h.executeWithRetry_eq hk hfuel
  rw [heq]
  by_cases hexhausted : Exhausted T trial k
  · obtain ⟨result,hexecute,hdescribed,hloop⟩ :=
      retryLoop_of_exhausted hexhausted rest (keptBefore trial k)
    rw [hloop,hdescribed,Option.some.injEq,Except.ok.injEq,Prod.mk.injEq,and_iff_left rfl]
    cases k with
    | zero => exact iff_of_true rfl (fun j hj => by cases hj)
    | succ k =>
      obtain ⟨category,hcategory,-⟩ := h.before k (Nat.lt_succ_self k)
      obtain ⟨before,hbefore,-⟩ := exists_of_retryable hcategory
      rw [keptBefore,hbefore,hexecute]
      constructor
      · intro hsame j hj _
        cases hj
        rw [hbefore]
        exact congrArg Except.ok hsame
      · intro hsame
        have hsame := hsame k rfl hexhausted
        rw [hbefore] at hsame
        exact Except.ok.inj hsame
  · rw [retryLoop_of_ends h.stops hexhausted]
    exact iff_of_true rfl (fun j _ hyes => absurd hyes hexhausted)

/-- A call ends with its first success or error that does not pass, or when the strategy gives up.
Its result and its outcome are those of the last attempt exactly when the strategy does not give up
after a retry, or the attempt before had the same result. -/
theorem describes_iff (T : Taxonomy Category) (trial : Trial) (h : GivesUp T trial) :
    (∃ k, IsLast T trial k ∧ ∀ fuel > k, (executeWithRetry T trial fuel).isSome = true) ∧
    (Describes T trial ↔ ∀ k, IsLast T trial (k + 1) → Exhausted T trial (k + 1) →
      trial.execute k = trial.execute (k + 1)) := by
  obtain ⟨k,hk,hlast⟩ := h.exists_isLast
  refine ⟨⟨k,hlast,fun fuel hfuel => hlast.isSome hk hfuel⟩,?_⟩
  constructor
  · rintro ⟨k',hlast',hdescribes⟩ j hj hexhausted
    obtain rfl := hlast'.unique hj
    obtain rfl := hlast.unique hlast'
    exact (hlast.described_iff hk (Nat.lt_succ_self _)).mp (hdescribes _ (Nat.lt_succ_self _)) j rfl
      hexhausted
  · intro hsame
    refine ⟨k,hlast,fun fuel hfuel => (hlast.described_iff hk hfuel).mpr ?_⟩
    rintro j rfl hexhausted
    exact hsame j hlast hexhausted

/-! ## A call that is tried twice -/

/-- Every error passes, and is tried once more. -/
def twice : Taxonomy String where
  classifyError _ content := content
  isRetryable _ := true
  delayForAttempt _ attempt := if attempt < 1 then some 500 else none

/-- A request that times out, and then ends with another text. -/
def fetch (isError : Bool) (content : String) : Trial where
  toolUse := ⟨"t1","fetch_url",.null⟩
  execute
    | 0 => .ok ⟨"t1","Request timed out",true⟩
    | _ => .ok ⟨"t1",content,isError⟩
  elapsed := fun k => 500 * k

theorem twice_givesUp (trial : Trial) : GivesUp twice trial := by
  refine ⟨1,by decide,fun k hk _ category _ => ?_⟩
  exact if_neg (by omega)

theorem fetched_describes : GivesUp twice (fetch false "200 OK") ∧
    (∃ k, IsLast twice (fetch false "200 OK") k ∧
      ∀ fuel > k, (executeWithRetry twice (fetch false "200 OK") fuel).isSome = true) ∧
    (Describes twice (fetch false "200 OK") ↔
      ∀ k, IsLast twice (fetch false "200 OK") (k + 1) →
        Exhausted twice (fetch false "200 OK") (k + 1) →
        (fetch false "200 OK").execute k = (fetch false "200 OK").execute (k + 1)) :=
  ⟨twice_givesUp _,describes_iff _ _ (twice_givesUp _)⟩

/-- The result is that of the first attempt, and the outcome that of the second. -/
theorem refused_not_described : ¬ ∀ (Category : Type) (T : Taxonomy Category) (trial : Trial),
    GivesUp T trial → Describes T trial := by
  intro h
  have hretried : Retried twice (fetch true "Connection refused") 0 := ⟨_,rfl,rfl⟩
  have hexhausted : Exhausted twice (fetch true "Connection refused") 1 := ⟨_,rfl,rfl⟩
  obtain ⟨k,hlast,hdescribes⟩ := h String twice (fetch true "Connection refused") (twice_givesUp _)
  have hone : IsLast twice (fetch true "Connection refused") 1 := by
    refine ⟨fun j hj => ?_,?_⟩
    · obtain rfl : j = 0 := by omega
      exact hretried
    · rintro ⟨category,-,hdelay⟩
      cases hdelay
  obtain rfl := hlast.unique hone
  have hsame := (hone.described_iff (by decide) (Nat.lt_succ_self 1)).mp
    (hdescribes 2 (Nat.lt_succ_self 1)) 0 rfl hexhausted
  have hcontent := congrArg (fun r => r.toOption.map ToolResult.content) hsame
  exact absurd hcontent (by decide)

end Rullama.Tools.Retry
