import Rullama.Numbers.Floats
import Rullama.Tools.Json

/-! # Retries with a backoff

An operation is called again after an error that can be retried. The delay before a retry is
multiplied for the next one, is cut at a maximum and gets a random part. There are two copies of the
loop; one of them tells the operation the number of the attempt.
-/
namespace Rullama.Utils

open Rullama.Numbers
open Rullama.Tools (contains)

def u64Max : ℕ := 2^64-1

structure RecoveryConfig where
  maxRetries : UInt32 := 3
  initialDelayMs : UInt64 := 100
  maxDelayMs : UInt64 := 10000
  backoffMultiplier : Extended := 2
  addJitter : Bool := true
  retryablePatterns : List String :=
    ["connection refused","connection reset","connection closed","timeout","timed out",
      "rate limit","429","503","502","504","temporary","unavailable","ECONNRESET","ETIMEDOUT",
      "ECONNREFUSED"]

namespace RecoveryConfig

def quick : RecoveryConfig := { maxRetries := 2, initialDelayMs := 50, maxDelayMs := 500 }

def patient : RecoveryConfig := { maxRetries := 5, initialDelayMs := 500, maxDelayMs := 30000 }

def aggressive : RecoveryConfig :=
  { maxRetries := 10, maxDelayMs := 60000, backoffMultiplier := .fin (3/2) }

def isRetryable (config : RecoveryConfig) (toLowercase : String → String) (error : String) : Bool :=
  config.retryablePatterns.any (fun pattern =>
    contains (toLowercase error) (toLowercase pattern))

/-- The random part; none of it is below the delay, as the subtraction saturates. -/
def jitter (seed delay : ℕ) : ℕ :=
  let jitterRange := delay/4
  if jitterRange > 0 then seed % (jitterRange*2) - jitterRange else 0

/-- The delay before a retry, where the seed is that of the clock. -/
def calculateDelay (config : RecoveryConfig) (seed baseDelay : ℕ) : ℕ :=
  let delay := min baseDelay config.maxDelayMs.toNat
  if config.addJitter then min (delay + jitter seed delay) u64Max else delay

/-- A result of double precision. -/
def f64 (x : Extended) : Extended := x.round 53 1024

/-- `((delay_ms as f64) * backoff_multiplier) as u64` -/
def nextDelay (config : RecoveryConfig) (delayMs : ℕ) : ℕ :=
  (f64 ((f64 (.fin delayMs)).mul config.backoffMultiplier)).toUnsigned u64Max

end RecoveryConfig

/-- What a loop does: the calls of the operation, the sleeps between them and what is returned. -/
structure Retried (T : Type) where
  calls : ℕ
  sleeps : List ℕ
  result : Except String T

/-- The error that is returned. -/
def retryFailure (attempts : ℕ) (errorMsg : String) : String :=
  if attempts > 0 then
    "Failed after " ++ toString attempts ++ " retry attempt(s). Last error: " ++ errorMsg
  else errorMsg

section Loops
variable {T : Type} (config : RecoveryConfig) (toLowercase : String → String)

/-- The loop of `with_retry`; the number of attempts is also that of the results seen. -/
def withRetryLoop (results : ℕ → Except String T) (seeds : ℕ → ℕ) (delayMs attempts : ℕ) :
    Retried T :=
  match results attempts with
  | .ok result => ⟨1,[],.ok result⟩
  | .error errorMsg =>
    if config.isRetryable toLowercase errorMsg ∧ attempts < config.maxRetries.toNat then
      let rest := withRetryLoop results seeds (config.nextDelay delayMs) (attempts+1)
      ⟨rest.calls+1,config.calculateDelay (seeds attempts) delayMs :: rest.sleeps,rest.result⟩
    else ⟨1,[],.error (retryFailure attempts errorMsg)⟩
  termination_by config.maxRetries.toNat - attempts

def withRetry (results : ℕ → Except String T) (seeds : ℕ → ℕ) : Retried T :=
  withRetryLoop config toLowercase results seeds config.initialDelayMs.toNat 0

/-- The loop of `with_retry_context`, with the numbers that the operation is told. -/
def withRetryContextLoop (operation : ℕ → Except String T) (seeds : ℕ → ℕ)
    (delayMs attempts : ℕ) : Retried T × List ℕ :=
  match operation attempts with
  | .ok result => (⟨1,[],.ok result⟩,[attempts])
  | .error errorMsg =>
    if config.isRetryable toLowercase errorMsg ∧ attempts < config.maxRetries.toNat then
      let delay := config.calculateDelay (seeds attempts) delayMs
      let (rest,told) :=
        withRetryContextLoop operation seeds (config.nextDelay delayMs) (attempts+1)
      (⟨rest.calls+1,delay :: rest.sleeps,rest.result⟩,attempts :: told)
    else if attempts > 0 then (⟨1,[],.error (retryFailure attempts errorMsg)⟩,[attempts])
    else (⟨1,[],.error errorMsg⟩,[attempts])
  termination_by config.maxRetries.toNat - attempts

def withRetryContext (operation : ℕ → Except String T) (seeds : ℕ → ℕ) : Retried T × List ℕ :=
  withRetryContextLoop config toLowercase operation seeds config.initialDelayMs.toNat 0

/-! ## The number of calls -/

variable (results : ℕ → Except String T) (seeds : ℕ → ℕ)

/-- Whether a result is an error that can be retried. -/
def canRetry (i : ℕ) : Bool :=
  match results i with
  | .error errorMsg => config.isRetryable toLowercase errorMsg
  | .ok _ => false

def retriesFrom (attempts : ℕ) : ℕ :=
  ((List.range' attempts (config.maxRetries.toNat - attempts)).takeWhile
    (canRetry config toLowercase results)).length

/-- How many results there are before the first success or error that is not retried, at most
`max_retries`. -/
def retries : ℕ := retriesFrom config toLowercase results 0

variable {config toLowercase results seeds}

theorem retriesFrom_succ {attempts : ℕ} (hlt : attempts < config.maxRetries.toNat)
    (h : canRetry config toLowercase results attempts = true) :
    retriesFrom config toLowercase results attempts =
      retriesFrom config toLowercase results (attempts+1) + 1 := by
  have hlength : config.maxRetries.toNat - attempts =
      (config.maxRetries.toNat - (attempts+1)) + 1 := by omega
  unfold retriesFrom
  rw [hlength,List.range'_succ,List.takeWhile_cons_of_pos h,List.length_cons]

theorem retriesFrom_eq_zero {attempts : ℕ}
    (h : ¬ (canRetry config toLowercase results attempts = true ∧
      attempts < config.maxRetries.toNat)) :
    retriesFrom config toLowercase results attempts = 0 := by
  unfold retriesFrom
  by_cases hlt : attempts < config.maxRetries.toNat
  · have hlength : config.maxRetries.toNat - attempts =
        (config.maxRetries.toNat - (attempts+1)) + 1 := by omega
    rw [hlength,List.range'_succ,List.takeWhile_cons_of_neg (fun hretry => h ⟨hretry,hlt⟩)]
    rfl
  · have hlength : config.maxRetries.toNat - attempts = 0 := by omega
    rw [hlength]
    rfl

theorem retries_le : retries config toLowercase results ≤ config.maxRetries.toNat := by
  have hle := (List.takeWhile_sublist (canRetry config toLowercase results)
    (l := List.range' 0 (config.maxRetries.toNat - 0))).length_le
  rwa [List.length_range'] at hle

/-- One call more than sleeps, and a sleep for each retry. -/
theorem withRetryLoop_spec (delayMs attempts : ℕ) :
    (withRetryLoop config toLowercase results seeds delayMs attempts).calls =
        retriesFrom config toLowercase results attempts + 1 ∧
    (withRetryLoop config toLowercase results seeds delayMs attempts).sleeps =
        (List.range (retriesFrom config toLowercase results attempts)).map (fun i =>
          config.calculateDelay (seeds (attempts+i)) (config.nextDelay^[i] delayMs)) := by
  fun_induction withRetryLoop config toLowercase results seeds delayMs attempts with
  | case1 delayMs attempts result hresult =>
    have hstop : canRetry config toLowercase results attempts = false := by
      rw [canRetry,hresult]
    rw [retriesFrom_eq_zero (fun h => ne_true_of_eq_false hstop h.1)]
    exact ⟨rfl,rfl⟩
  | case2 delayMs attempts errorMsg hresult h rest ih =>
    have hretry : canRetry config toLowercase results attempts = true := by
      rw [canRetry,hresult]
      exact h.1
    obtain ⟨hcalls,hsleeps⟩ := ih
    rw [retriesFrom_succ h.2 hretry,hcalls,hsleeps,List.range_succ_eq_map,List.map_cons,
      List.map_map]
    refine ⟨rfl,congrArg _ (List.map_congr_left fun i _ => ?_)⟩
    have hindex : attempts + 1 + i = attempts + (i+1) := by omega
    rw [hindex]
    rfl
  | case3 delayMs attempts errorMsg hresult h =>
    have hretry : canRetry config toLowercase results attempts =
        config.isRetryable toLowercase errorMsg := by
      rw [canRetry,hresult]
    rw [retriesFrom_eq_zero (fun hboth => h ⟨hretry.symm.trans hboth.1,hboth.2⟩)]
    exact ⟨rfl,rfl⟩

/-- The two copies of the loop do the same. -/
theorem withRetryContextLoop_spec (delayMs attempts : ℕ) :
    (withRetryContextLoop config toLowercase results seeds delayMs attempts).1 =
      withRetryLoop config toLowercase results seeds delayMs attempts ∧
    (withRetryContextLoop config toLowercase results seeds delayMs attempts).2 =
      List.range' attempts
        (withRetryLoop config toLowercase results seeds delayMs attempts).calls := by
  fun_induction withRetryLoop config toLowercase results seeds delayMs attempts with
  | case1 delayMs attempts result hresult =>
    rw [withRetryContextLoop,hresult]
    exact ⟨rfl,rfl⟩
  | case2 delayMs attempts errorMsg hresult h rest ih =>
    obtain ⟨hrest,htold⟩ := ih
    rw [withRetryContextLoop,hresult]
    dsimp only
    rw [if_pos h,hrest,htold]
    exact ⟨rfl,rfl⟩
  | case3 delayMs attempts errorMsg hresult h =>
    rw [withRetryContextLoop,hresult]
    dsimp only
    rw [if_neg h]
    unfold retryFailure
    split <;> exact ⟨rfl,rfl⟩

end Loops

/-! ## The delays -/

namespace RecoveryConfig
variable (config : RecoveryConfig)

/-- `initial_delay * multiplier^i`, not rounded. -/
def exactDelay : ℕ → Extended
  | 0 => .fin config.initialDelayMs.toNat
  | i+1 => (exactDelay i).mul config.backoffMultiplier

/-- The smaller of this and `max_delay`, if it is a number. -/
def targetDelay (i : ℕ) : Option ℚ :=
  match config.exactDelay i with
  | .fin q => some (min q config.maxDelayMs.toNat)
  | .posInf => some config.maxDelayMs.toNat
  | .negInf | .nan => none

/-- Between 75% and 125% of the target, and not more than the maximum. -/
def Within (i slept : ℕ) : Prop :=
  ∃ t, config.targetDelay i = some t ∧ 3/4*t ≤ slept ∧ (slept:ℚ) ≤ 5/4*t ∧
    slept ≤ config.maxDelayMs.toNat

/-- What the loop has as the delay before the random part. -/
def baseDelay (i : ℕ) : ℕ := config.nextDelay^[i] config.initialDelayMs.toNat

/-- The product is a whole number that has a double, or it has reached the maximum and does not
fall again. -/
def ExactAt (i : ℕ) : Prop :=
  (∃ n : ℕ, n ≤ 2^53 ∧ config.exactDelay i = .fin n) ∨
    (Extended.le 1 config.backoffMultiplier ∧ config.maxDelayMs.toNat ≤ 2^53 ∧
      (Extended.fin config.maxDelayMs.toNat).le (config.exactDelay i))

/-- What the truncation costs at most: a millisecond at each retry, multiplied by the later ones. -/
def worstLoss (q : ℚ) : ℕ → ℚ
  | 0 => 0
  | i+1 => worstLoss q i * q + 1

/-- The product reaches the maximum whatever the truncation costs. -/
def CappedAt (i : ℕ) : Prop :=
  ∃ q, config.backoffMultiplier = .fin q ∧ 1 ≤ q ∧ config.maxDelayMs.toNat ≤ 2^53 ∧
    config.maxDelayMs.toNat ≤ config.initialDelayMs.toNat * q^i - worstLoss q i

/-- The delay before a retry is not touched by the truncation. -/
def Untouched (i : ℕ) : Prop := (∀ j ≤ i, config.ExactAt j) ∨ config.CappedAt i

/-- The random part of a delay of `n` finds room beneath the maximum. -/
def Room (seed n : ℕ) : Prop :=
  config.addJitter = true → 4 ≤ n → seed % (n/4*2) ≤ n/4 + (config.maxDelayMs.toNat - n)

/-- The random part of the target finds room beneath the maximum. -/
def Fits (i seed : ℕ) : Prop :=
  ∀ n : ℕ, config.targetDelay i = some (n:ℚ) → config.Room seed n

variable {config}

theorem jitter_cases (seed delay : ℕ) :
    jitter seed delay = 0 ∨ jitter seed delay + 1 ≤ delay/4 := by
  unfold jitter
  dsimp only
  split
  · have hmod : seed % (delay/4*2) < delay/4*2 := Nat.mod_lt _ (by omega)
    omega
  · exact .inl rfl

/-- Nothing is taken off the delay, and the random part is less than a quarter of it. -/
theorem calculateDelay_cases (config : RecoveryConfig) (seed baseDelay : ℕ) :
    min baseDelay config.maxDelayMs.toNat ≤ config.calculateDelay seed baseDelay ∧
      (config.calculateDelay seed baseDelay = min baseDelay config.maxDelayMs.toNat ∨
        config.calculateDelay seed baseDelay * 4 + 4 ≤
          min baseDelay config.maxDelayMs.toNat * 5) := by
  have hcap : min baseDelay config.maxDelayMs.toNat ≤ config.maxDelayMs.toNat :=
    Nat.min_le_right _ _
  have hlargest : config.maxDelayMs.toNat ≤ u64Max :=
    Nat.le_pred_of_lt config.maxDelayMs.toNat_lt
  unfold calculateDelay
  dsimp only
  generalize min baseDelay config.maxDelayMs.toNat = d at hcap
  split
  · have hjitter := jitter_cases seed d
    have hle : min (d + jitter seed d) u64Max ≤ d + jitter seed d := Nat.min_le_left _ _
    have hge : d ≤ min (d + jitter seed d) u64Max :=
      le_min (Nat.le_add_right _ _) (hcap.trans hlargest)
    refine ⟨hge,?_⟩
    rcases hjitter with hzero | hsome
    · exact .inl (Nat.le_antisymm (by omega) hge)
    · right
      omega
  · exact ⟨Nat.le_refl d,.inl rfl⟩

theorem calculateDelay_le_of_room {seed baseDelay : ℕ}
    (h : config.Room seed (min baseDelay config.maxDelayMs.toNat)) :
    config.calculateDelay seed baseDelay ≤ config.maxDelayMs.toNat := by
  have hcap : min baseDelay config.maxDelayMs.toNat ≤ config.maxDelayMs.toNat :=
    Nat.min_le_right _ _
  unfold calculateDelay
  unfold Room at h
  dsimp only
  generalize min baseDelay config.maxDelayMs.toNat = d at h hcap
  split
  · rename_i hadd
    refine (Nat.min_le_left _ _).trans ?_
    unfold jitter
    dsimp only
    split
    · have hfits := h hadd (by omega)
      omega
    · exact hcap
  · exact hcap

theorem room_of_calculateDelay_le {seed baseDelay : ℕ}
    (hsmall : min baseDelay config.maxDelayMs.toNat ≤ 2^53)
    (h : config.calculateDelay seed baseDelay ≤ config.maxDelayMs.toNat) :
    config.Room seed (min baseDelay config.maxDelayMs.toNat) := by
  have hcap : min baseDelay config.maxDelayMs.toNat ≤ config.maxDelayMs.toNat :=
    Nat.min_le_right _ _
  unfold calculateDelay at h
  intro hadd hfour
  dsimp only at h
  generalize min baseDelay config.maxDelayMs.toNat = d at h hcap hsmall hfour ⊢
  have hsum : min (d + jitter seed d) u64Max = d + jitter seed d := by
    have hcases := jitter_cases seed d
    rw [Nat.min_eq_left]
    unfold u64Max
    omega
  have hjitter : jitter seed d = seed % (d/4*2) - d/4 := by
    unfold jitter
    dsimp only
    rw [if_pos (by omega)]
  rw [if_pos hadd,hsum,hjitter] at h
  omega

theorem baseDelay_succ (i : ℕ) : config.baseDelay (i+1) = config.nextDelay (config.baseDelay i) :=
  Function.iterate_succ_apply' _ _ _

/-- A multiplier of one or more does not lead back below a number that has a double. -/
theorem le_nextDelay {n delayMs : ℕ} (hn : n ≤ 2^53) (hle : n ≤ delayMs)
    (hm : Extended.le 1 config.backoffMultiplier) : n ≤ config.nextDelay delayMs := by
  rcases Nat.eq_zero_or_pos n with rfl | hpos
  · exact Nat.zero_le _
  · have hdelay : (Extended.fin n).le (.fin delayMs) := decide_eq_true (by exact_mod_cast hle)
    have hdouble : (Extended.fin n).le (f64 (.fin delayMs)) :=
      Extended.le_round (by norm_num) hn hdelay
    have hproduct := Extended.le_mul hpos hdouble hm
    exact Extended.le_toUnsigned (Extended.le_round (by norm_num) hn hproduct)
      (hn.trans (by decide))

/-- The delay is the product, or both have reached the maximum. -/
theorem baseDelay_exact {i : ℕ} (h : ∀ j ≤ i, config.ExactAt j) :
    config.exactDelay i = .fin (config.baseDelay i) ∧ config.baseDelay i ≤ 2^53 ∨
      (Extended.le 1 config.backoffMultiplier ∧ config.maxDelayMs.toNat ≤ 2^53 ∧
        config.maxDelayMs.toNat ≤ config.baseDelay i ∧
        (Extended.fin config.maxDelayMs.toNat).le (config.exactDelay i)) := by
  induction i with
  | zero =>
    rcases h 0 (Nat.le_refl 0) with ⟨n,hn,hwhole⟩ | ⟨hm,hmax,hreached⟩
    · have hinit : (config.initialDelayMs.toNat : ℚ) = n := Extended.fin.inj hwhole
      have hbase : config.baseDelay 0 = n := by exact_mod_cast hinit
      exact .inl ⟨rfl,hbase.trans_le hn⟩
    · have hle : (config.maxDelayMs.toNat : ℚ) ≤ config.initialDelayMs.toNat :=
        of_decide_eq_true hreached
      exact .inr ⟨hm,hmax,by exact_mod_cast hle,hreached⟩
  | succ i ih =>
    have hnext := h (i+1) (Nat.le_refl _)
    rw [baseDelay_succ]
    rcases ih (fun j hj => h j (Nat.le_succ_of_le hj)) with ⟨hexact,hsmall⟩ | hcapped
    · have hdouble : f64 (.fin (config.baseDelay i)) = .fin (config.baseDelay i) :=
        Extended.round_natCast (by norm_num) hsmall (by norm_num)
      have hproduct : config.nextDelay (config.baseDelay i) =
          (f64 (config.exactDelay (i+1))).toUnsigned u64Max := by
        rw [nextDelay,hdouble,exactDelay,hexact]
      rw [hproduct]
      rcases hnext with ⟨n,hn,hwhole⟩ | ⟨hm,hmax,hreached⟩
      · have hround : f64 (.fin n) = .fin n :=
          Extended.round_natCast (by norm_num) hn (by norm_num)
        rw [hwhole,hround,Extended.toUnsigned_natCast (hn.trans (by decide))]
        exact .inl ⟨rfl,hn⟩
      · exact .inr ⟨hm,hmax,Extended.le_toUnsigned (Extended.le_round (by norm_num) hmax hreached)
          (hmax.trans (by decide)),hreached⟩
    · obtain ⟨hm,hmax,hbase,hreached⟩ := hcapped
      refine .inr ⟨hm,hmax,le_nextDelay hmax hbase hm,?_⟩
      rcases hnext with ⟨n,hn,hwhole⟩ | ⟨-,-,hreached'⟩
      · rcases Nat.eq_zero_or_pos config.maxDelayMs.toNat with hzero | hpos
        · rw [hwhole,hzero]
          exact decide_eq_true (by exact_mod_cast Nat.zero_le n)
        · exact Extended.le_mul hpos hreached hm
      · exact hreached'

/-! ## Delays that are truncated -/

section Truncated
variable {q : ℚ} {i : ℕ}

theorem exactDelay_fin (hm : config.backoffMultiplier = .fin q) (i : ℕ) :
    config.exactDelay i = .fin (config.initialDelayMs.toNat * q^i) := by
  induction i with
  | zero => rw [exactDelay,pow_zero,mul_one]
  | succ i ih =>
    rw [exactDelay,ih,hm,pow_succ,← mul_assoc]
    rfl

/-- A retry loses less than a millisecond, unless the maximum is reached. -/
theorem lt_nextDelay {delayMs : ℕ} (hm : config.backoffMultiplier = .fin q) (hq : 0 ≤ q)
    (hsmall : delayMs ≤ 2^53) :
    2^53 ≤ config.nextDelay delayMs ∨ delayMs * q - 1 ≤ config.nextDelay delayMs := by
  have hdouble : f64 (.fin delayMs) = .fin delayMs :=
    Extended.round_natCast (by norm_num) hsmall (by norm_num)
  have hproduct : (f64 (.fin delayMs)).mul config.backoffMultiplier = .fin (delayMs * q) := by
    rw [hdouble,hm]
    rfl
  have hnonneg : (0:ℚ) ≤ delayMs * q := mul_nonneg (Nat.cast_nonneg _) hq
  have hle {n : ℕ} (hn : n ≤ 2^53) (h : (n:ℚ) ≤ delayMs * q) : n ≤ config.nextDelay delayMs := by
    unfold nextDelay
    rw [hproduct]
    exact Extended.le_toUnsigned (Extended.le_round (by norm_num) hn (decide_eq_true h))
      (hn.trans (by decide))
  have hfloor := Nat.floor_le hnonneg
  rcases Nat.le_total ⌊(delayMs:ℚ) * q⌋₊ (2^53) with h | h
  · right
    have hcast : (⌊(delayMs:ℚ) * q⌋₊ : ℚ) ≤ config.nextDelay delayMs := by
      exact_mod_cast hle h hfloor
    have hlt := Nat.lt_floor_add_one ((delayMs:ℚ) * q)
    linarith
  · left
    have hcast : ((2^53 : ℕ) : ℚ) ≤ ⌊(delayMs:ℚ) * q⌋₊ := by exact_mod_cast h
    exact hle (Nat.le_refl _) (hcast.trans hfloor)

/-- The product is not exceeded by more than the rounding. -/
theorem nextDelay_le {delayMs : ℕ} (hm : config.backoffMultiplier = .fin q) (hq : 0 ≤ q)
    (hlargest : delayMs ≤ u64Max) :
    (config.nextDelay delayMs : ℚ) ≤ delayMs * q * (1 + 1/2^53)^2 := by
  have hnonneg : (0:ℚ) ≤ delayMs := Nat.cast_nonneg _
  have hround := roundTo_le (p := 53) hnonneg
  have hpos : 0 ≤ roundTo 53 (delayMs:ℚ) :=
    le_roundTo_of_eq (p := 53) (x := delayMs) (y := 0) (n := 0) (by simp) hnonneg
  have hbound : (delayMs:ℚ) ≤ 2^64 := by
    have hnat : delayMs ≤ 2^64 := hlargest.trans (by decide)
    exact_mod_cast hnat
  have hdouble : f64 (.fin delayMs) = .fin (roundTo 53 delayMs) := by
    have hscaled : (delayMs:ℚ) * (1 + 1/2^53) ≤ 2^64 * (1 + 1/2^53) :=
      mul_le_mul_of_nonneg_right hbound (by norm_num)
    have hlast : (2:ℚ)^64 * (1 + 1/2^53) < 2^65 := by norm_num
    have htop : (2:ℚ)^65 ≤ 2^1024 := pow_le_pow_right₀ (by norm_num) (by norm_num)
    have hsmall : roundTo 53 (delayMs:ℚ) < 2^1024 :=
      ((hround.trans hscaled).trans_lt hlast).trans_le htop
    have hnegative : -(2:ℚ)^1024 < roundTo 53 delayMs :=
      (neg_lt_zero.mpr (pow_pos (by norm_num) 1024)).trans_le hpos
    rw [f64,Extended.round,if_neg (not_le.mpr hsmall),if_neg (not_le.mpr hnegative)]
  have hproduct : (f64 (.fin delayMs)).mul config.backoffMultiplier =
      .fin (roundTo 53 delayMs * q) := by
    rw [hdouble,hm]
    rfl
  have hlargest' : u64Max ≤ 2^1024 :=
    (show u64Max ≤ 2^64 by decide).trans (pow_le_pow_right₀ one_le_two (by decide))
  have hresult := Extended.toUnsigned_round_le (p := 53) (mul_nonneg hpos hq) hlargest'
  unfold nextDelay
  rw [hproduct]
  refine hresult.trans ?_
  have hscaled := mul_le_mul_of_nonneg_right (mul_le_mul_of_nonneg_right hround hq)
    (show (0:ℚ) ≤ 1 + 1/2^53 by norm_num)
  calc roundTo 53 (delayMs:ℚ) * q * (1 + 1/2^53)
      ≤ delayMs * (1 + 1/2^53) * q * (1 + 1/2^53) := hscaled
    _ = delayMs * q * (1 + 1/2^53)^2 := by ring

theorem baseDelay_le_u64 (config : RecoveryConfig) (i : ℕ) : config.baseDelay i ≤ u64Max := by
  cases i with
  | zero =>
    have hlt := config.initialDelayMs.toNat_lt
    exact Nat.le_pred_of_lt hlt
  | succ i =>
    rw [baseDelay_succ]
    unfold nextDelay Extended.toUnsigned
    split
    · exact Nat.zero_le _
    · exact Nat.zero_le _
    · exact Nat.min_le_right _ _
    · exact Nat.le_refl _

theorem baseDelay_le (hm : config.backoffMultiplier = .fin q) (hq : 0 ≤ q) (i : ℕ) :
    (config.baseDelay i : ℚ) ≤ config.initialDelayMs.toNat * q^i * (1 + 1/2^53)^(2*i) := by
  induction i with
  | zero =>
    rw [pow_zero,mul_zero,pow_zero,mul_one,mul_one]
    exact le_refl _
  | succ i ih =>
    rw [baseDelay_succ]
    have hnext := nextDelay_le hm hq (baseDelay_le_u64 config i)
    have hscaled := mul_le_mul_of_nonneg_right (mul_le_mul_of_nonneg_right ih hq)
      (show (0:ℚ) ≤ (1 + 1/2^53)^2 by positivity)
    calc (config.nextDelay (config.baseDelay i) : ℚ)
        ≤ config.baseDelay i * q * (1 + 1/2^53)^2 := hnext
      _ ≤ config.initialDelayMs.toNat * q^i * (1 + 1/2^53)^(2*i) * q * (1 + 1/2^53)^2 := hscaled
      _ = config.initialDelayMs.toNat * q^(i+1) * (1 + 1/2^53)^(2*(i+1)) := by ring

/-- The rounding of so many products. -/
theorem rounding_le {n : ℕ} (h : (n:ℚ) ≤ 2^52) :
    (1 + 1/2^53 : ℚ)^n ≤ 1 + n/2^52 := by
  induction n with
  | zero => norm_num
  | succ n ih =>
    have hn : (n:ℚ) ≤ 2^52 := by
      push_cast at h
      linarith
    have hscaled := mul_le_mul_of_nonneg_right (ih hn) (show (0:ℚ) ≤ 1 + 1/2^53 by norm_num)
    rw [pow_succ]
    push_cast
    linarith

/-- Delays that do not grow stay below the numbers that a double skips. -/
theorem baseDelay_le_of_le_one (hm : config.backoffMultiplier = .fin q) (hq : 0 ≤ q) (hq' : q ≤ 1)
    (hinitial : config.initialDelayMs.toNat ≤ 2^52) (hi : i ≤ 2^32) :
    config.baseDelay i ≤ 2^53 := by
  have hcount : ((2*i : ℕ) : ℚ) ≤ 2^33 := by
    have hnat : 2*i ≤ 2^33 := by omega
    exact_mod_cast hnat
  have hrounding : (1 + 1/2^53 : ℚ)^(2*i) ≤ 2 := by
    have hle := rounding_le (n := 2*i) (hcount.trans (by norm_num))
    linarith
  have hpower : q^i ≤ 1 := pow_le_one₀ hq hq'
  have hinitial' : (config.initialDelayMs.toNat : ℚ) ≤ 2^52 := by exact_mod_cast hinitial
  have hbase : (config.baseDelay i : ℚ) ≤ 2^53 := by
    calc (config.baseDelay i : ℚ)
        ≤ config.initialDelayMs.toNat * q^i * (1 + 1/2^53)^(2*i) := baseDelay_le hm hq i
      _ ≤ 2^52 * 1 * 2 := by gcongr
      _ = 2^53 := by norm_num
  exact_mod_cast hbase

/-- A double that is too large for its whole numbers does not fall again where the multiplier is at
least one. -/
theorem le_baseDelay (hm : config.backoffMultiplier = .fin q) (hq : 0 ≤ q)
    (hgrows : 1 ≤ q ∨ config.initialDelayMs.toNat ≤ 2^52) (hi : i ≤ 2^32) :
    (1 ≤ q ∧ 0 < i ∧ 2^53 ≤ config.baseDelay i) ∨
      config.initialDelayMs.toNat * q^i - worstLoss q i ≤ config.baseDelay i := by
  induction i with
  | zero =>
    right
    rw [pow_zero,mul_one,worstLoss,sub_zero]
    exact le_refl _
  | succ i ih =>
    rw [baseDelay_succ]
    have hone (hq' : 1 ≤ q) : Extended.le 1 config.backoffMultiplier := by
      rw [hm]
      exact decide_eq_true (by exact_mod_cast hq')
    rcases ih (by omega) with ⟨hq',-,hbig⟩ | hlow
    · exact .inl ⟨hq',i.succ_pos,le_nextDelay (Nat.le_refl _) hbig (hone hq')⟩
    · have hkept (h : config.baseDelay i * q - 1 ≤ config.nextDelay (config.baseDelay i)) :
          config.initialDelayMs.toNat * q^(i+1) - worstLoss q (i+1) ≤
            config.nextDelay (config.baseDelay i) := by
        have hscaled := mul_le_mul_of_nonneg_right hlow hq
        rw [pow_succ,worstLoss]
        linarith
      rcases le_or_gt 1 q with hq' | hq'
      · rcases Nat.le_total (2^53) (config.baseDelay i) with hbig | hsmall
        · exact .inl ⟨hq',i.succ_pos,le_nextDelay (Nat.le_refl _) hbig (hone hq')⟩
        · rcases lt_nextDelay hm hq hsmall with hbig | hlost
          · exact .inl ⟨hq',i.succ_pos,hbig⟩
          · exact .inr (hkept hlost)
      · right
        have hsmall := baseDelay_le_of_le_one hm hq hq'.le
          (hgrows.resolve_left (not_le.mpr hq')) (Nat.le_of_succ_le hi)
        rcases lt_nextDelay hm hq hsmall with hbig | hlost
        · have hcast : ((2^53 : ℕ) : ℚ) ≤ config.nextDelay (config.baseDelay i) := by
            exact_mod_cast hbig
          have hsmall' : (config.baseDelay i : ℚ) ≤ (2^53 : ℕ) := by exact_mod_cast hsmall
          have hless : (config.baseDelay i : ℚ) * q ≤ config.baseDelay i :=
            mul_le_of_le_one_right (Nat.cast_nonneg _) hq'.le
          exact hkept (by linarith)
        · exact hkept hlost

theorem worstLoss_nonneg (hq : 0 ≤ q) (i : ℕ) : 0 ≤ worstLoss q i := by
  induction i with
  | zero => exact le_refl 0
  | succ i ih => exact add_nonneg (mul_nonneg ih hq) zero_le_one

/-! ## Delays that the truncation does not touch -/

theorem CappedAt.le_baseDelay (h : config.CappedAt i) (hi : i ≤ 2^32) :
    config.maxDelayMs.toNat ≤ config.baseDelay i := by
  obtain ⟨q,hm,hq,hmax,hreached⟩ := h
  rcases RecoveryConfig.le_baseDelay hm (zero_le_one.trans hq) (.inl hq) hi with
    ⟨-,-,hbig⟩ | hlow
  · exact hmax.trans hbig
  · have hcast : (config.maxDelayMs.toNat : ℚ) ≤ config.baseDelay i := hreached.trans hlow
    exact_mod_cast hcast

theorem CappedAt.targetDelay (h : config.CappedAt i) :
    config.targetDelay i = some (config.maxDelayMs.toNat : ℚ) := by
  obtain ⟨q,hm,hq,-,hreached⟩ := h
  have hloss := worstLoss_nonneg (zero_le_one.trans hq) i
  rw [RecoveryConfig.targetDelay,exactDelay_fin hm]
  exact congrArg some (min_eq_right (by linarith))

/-- The target is the whole number that the random part is added to. -/
theorem Untouched.targetDelay (h : config.Untouched i) (hi : i ≤ 2^32) :
    config.targetDelay i =
        some ((min (config.baseDelay i) config.maxDelayMs.toNat : ℕ) : ℚ) ∧
      min (config.baseDelay i) config.maxDelayMs.toNat ≤ 2^53 := by
  rcases h with hexact | hcapped
  · rcases baseDelay_exact hexact with ⟨hproduct,hsmall⟩ | ⟨-,hmax,hbase,hreached⟩
    · rw [RecoveryConfig.targetDelay,hproduct,Nat.cast_min]
      exact ⟨rfl,(Nat.min_le_left _ _).trans hsmall⟩
    · rw [RecoveryConfig.targetDelay,Nat.min_eq_right hbase]
      refine ⟨?_,hmax⟩
      cases hproduct : config.exactDelay i with
      | nan | negInf => rw [hproduct] at hreached; cases hreached
      | posInf => rfl
      | fin q =>
        rw [hproduct] at hreached
        exact congrArg some (min_eq_right (of_decide_eq_true hreached))
  · rw [Nat.min_eq_right (hcapped.le_baseDelay hi)]
    have hmax : config.maxDelayMs.toNat ≤ 2^53 := by
      obtain ⟨-,-,-,hmax,-⟩ := hcapped
      exact hmax
    exact ⟨hcapped.targetDelay,hmax⟩

/-- What is slept is within the bounds just where the random part finds room. -/
theorem Untouched.within_iff (h : config.Untouched i) (hi : i ≤ 2^32) (seed : ℕ) :
    config.Within i (config.calculateDelay seed (config.baseDelay i)) ↔ config.Fits i seed := by
  obtain ⟨htarget,hsmall⟩ := h.targetDelay hi
  obtain ⟨hlow,hhigh⟩ := calculateDelay_cases config seed (config.baseDelay i)
  have hfits : config.Fits i seed ↔
      config.Room seed (min (config.baseDelay i) config.maxDelayMs.toNat) := by
    unfold Fits
    rw [htarget]
    constructor
    · exact fun hall => hall _ rfl
    · intro hroom n hn
      have heq : min (config.baseDelay i) config.maxDelayMs.toNat = n := by
        exact_mod_cast Option.some.inj hn
      rwa [← heq]
  rw [hfits]
  constructor
  · rintro ⟨-,-,-,-,hcap⟩
    exact room_of_calculateDelay_le hsmall hcap
  · intro hroom
    refine ⟨_,htarget,?_,?_,calculateDelay_le_of_room hroom⟩
    · have hcast : ((min (config.baseDelay i) config.maxDelayMs.toNat : ℕ) : ℚ) ≤
          config.calculateDelay seed (config.baseDelay i) := by exact_mod_cast hlow
      have hnonneg : (0:ℚ) ≤ (min (config.baseDelay i) config.maxDelayMs.toNat : ℕ) :=
        Nat.cast_nonneg _
      linarith
    · have hnat : config.calculateDelay seed (config.baseDelay i) * 4 ≤
          min (config.baseDelay i) config.maxDelayMs.toNat * 5 := by omega
      have hcast : (config.calculateDelay seed (config.baseDelay i) : ℚ) * 4 ≤
          (min (config.baseDelay i) config.maxDelayMs.toNat : ℕ) * 5 := by exact_mod_cast hnat
      linarith

/-! ## Delays that the truncation does touch -/

/-- The truncation costs no more than a quarter of the delay, doubles are precise enough for it, and
whatever the truncation has made of it, the random part finds room beneath the maximum. -/
structure Mild (config : RecoveryConfig) (i seed : ℕ) (q : ℚ) : Prop where
  multiplier : config.backoffMultiplier = .fin q
  positive : 0 ≤ q
  grows : 1 ≤ q ∨ config.initialDelayMs.toNat ≤ 2^52
  precise : min (config.initialDelayMs.toNat * q^i) config.maxDelayMs.toNat * i ≤ 2^49
  loss : 4 * worstLoss q i ≤ config.initialDelayMs.toNat * q^i
  room : ∀ n : ℕ, n ≤ config.maxDelayMs.toNat →
    min (config.initialDelayMs.toNat * q^i - worstLoss q i) config.maxDelayMs.toNat ≤ (n:ℚ) →
    (n:ℚ) ≤ min (config.initialDelayMs.toNat * q^i) config.maxDelayMs.toNat + 1/4 →
      config.Room seed n

namespace Mild
variable {seed : ℕ}

/-- The rounding is a quarter at most. -/
theorem min_baseDelay_le (h : config.Mild i seed q) (hi : i ≤ 2^32) :
    ((min (config.baseDelay i) config.maxDelayMs.toNat : ℕ) : ℚ) ≤
        min (config.initialDelayMs.toNat * q^i) config.maxDelayMs.toNat + 1/4 ∧
      ((min (config.baseDelay i) config.maxDelayMs.toNat : ℕ) : ℚ) ≤
        5/4 * min (config.initialDelayMs.toNat * q^i) config.maxDelayMs.toNat := by
  have hmax : (0:ℚ) ≤ config.maxDelayMs.toNat := Nat.cast_nonneg _
  have hproduct : (0:ℚ) ≤ config.initialDelayMs.toNat * q^i :=
    mul_nonneg (Nat.cast_nonneg _) (pow_nonneg h.positive i)
  have hprecise := h.precise
  rw [Nat.cast_min]
  rcases le_total (config.initialDelayMs.toNat * q^i) (config.maxDelayMs.toNat : ℚ) with
    hbelow | habove
  · have hcount : ((2*i : ℕ) : ℚ) ≤ 2^33 := by
      have hnat : 2*i ≤ 2^33 := by omega
      exact_mod_cast hnat
    have hrounding := rounding_le (n := 2*i) (hcount.trans (by norm_num))
    have hbase := (baseDelay_le h.multiplier h.positive i).trans
      (mul_le_mul_of_nonneg_left hrounding hproduct)
    have hrelative : config.initialDelayMs.toNat * q^i * ((2*i : ℕ) : ℚ) ≤
        config.initialDelayMs.toNat * q^i * 2^33 := mul_le_mul_of_nonneg_left hcount hproduct
    push_cast at hbase hrelative
    have hmin : min (config.baseDelay i : ℚ) config.maxDelayMs.toNat ≤ config.baseDelay i :=
      min_le_left _ _
    rw [min_eq_left hbelow] at hprecise ⊢
    constructor <;> linarith
  · have hmin : min (config.baseDelay i : ℚ) config.maxDelayMs.toNat ≤ config.maxDelayMs.toNat :=
      min_le_right _ _
    rw [min_eq_right habove]
    constructor <;> linarith

theorem le_min_baseDelay (h : config.Mild i seed q) (hi : i ≤ 2^32) :
    min (config.initialDelayMs.toNat * q^i - worstLoss q i) config.maxDelayMs.toNat ≤
      ((min (config.baseDelay i) config.maxDelayMs.toNat : ℕ) : ℚ) := by
  rw [Nat.cast_min]
  refine le_min ?_ (min_le_right _ _)
  rcases RecoveryConfig.le_baseDelay h.multiplier h.positive h.grows hi with
    ⟨hq,hpos,hbig⟩ | hlow
  · have hbig' : ((2^53 : ℕ) : ℚ) ≤ config.baseDelay i := by exact_mod_cast hbig
    have hloss := worstLoss_nonneg h.positive i
    have hone : (1:ℚ) ≤ i := by exact_mod_cast hpos
    have hproduct : (0:ℚ) ≤ min (config.initialDelayMs.toNat * q^i) config.maxDelayMs.toNat :=
      le_min (mul_nonneg (Nat.cast_nonneg _) (pow_nonneg h.positive i)) (Nat.cast_nonneg _)
    have htarget := (le_mul_of_one_le_right hproduct hone).trans h.precise
    have hless : min (config.initialDelayMs.toNat * q^i - worstLoss q i)
        (config.maxDelayMs.toNat : ℚ) ≤
          min (config.initialDelayMs.toNat * q^i) config.maxDelayMs.toNat :=
      min_le_min_right _ (by linarith)
    push_cast at hbig'
    linarith
  · exact (min_le_left _ _).trans hlow

theorem within (h : config.Mild i seed q) (hi : i ≤ 2^32) :
    config.Within i (config.calculateDelay seed (config.baseDelay i)) := by
  obtain ⟨habsolute,hrelative⟩ := h.min_baseDelay_le hi
  have hleast := h.le_min_baseDelay hi
  have hroom := h.room _ (Nat.min_le_right _ _) hleast habsolute
  obtain ⟨hge,hcases⟩ := calculateDelay_cases config seed (config.baseDelay i)
  have hloss := h.loss
  have htarget : config.targetDelay i =
      some (min (config.initialDelayMs.toNat * q^i) (config.maxDelayMs.toNat : ℚ)) := by
    rw [targetDelay,exactDelay_fin h.multiplier]
  have hlow : 3/4 * min (config.initialDelayMs.toNat * q^i) (config.maxDelayMs.toNat : ℚ) ≤
      min (config.initialDelayMs.toNat * q^i - worstLoss q i) config.maxDelayMs.toNat := by
    have hproduct := min_le_left (config.initialDelayMs.toNat * q^i) (config.maxDelayMs.toNat : ℚ)
    have hcap := min_le_right (config.initialDelayMs.toNat * q^i) (config.maxDelayMs.toNat : ℚ)
    have hmax : (0:ℚ) ≤ config.maxDelayMs.toNat := Nat.cast_nonneg _
    refine le_min ?_ ?_ <;> linarith
  refine ⟨_,htarget,?_,?_,calculateDelay_le_of_room hroom⟩
  · have hge' : ((min (config.baseDelay i) config.maxDelayMs.toNat : ℕ) : ℚ) ≤
        config.calculateDelay seed (config.baseDelay i) := by exact_mod_cast hge
    linarith
  · rcases hcases with hsame | hmore
    · rw [hsame]
      exact hrelative
    · have hmore' : (config.calculateDelay seed (config.baseDelay i) : ℚ) * 4 + 4 ≤
          (min (config.baseDelay i) config.maxDelayMs.toNat : ℕ) * 5 := by exact_mod_cast hmore
      linarith

end Mild

/-- The truncation costs no more than a quarter of any delay, doubles are precise enough for the
maximum, and with the random part no delay comes near the maximum. -/
structure Ample (config : RecoveryConfig) (retries : ℕ) (q : ℚ) : Prop where
  multiplier : config.backoffMultiplier = .fin q
  grows : 1 ≤ q
  precise : config.maxDelayMs.toNat * retries ≤ 2^49
  loss : ∀ i < retries, 4 * worstLoss q i ≤ config.initialDelayMs.toNat * q^i
  calm : config.addJitter = true → ∀ i < retries,
    5/4 * (config.initialDelayMs.toNat * q^i) ≤ config.maxDelayMs.toNat

theorem Ample.mild {retries : ℕ} (h : config.Ample retries q) (hi : i < retries) (seed : ℕ) :
    config.Mild i seed q where
  multiplier := h.multiplier
  positive := zero_le_one.trans h.grows
  grows := .inl h.grows
  precise := by
    have hnat : config.maxDelayMs.toNat * i ≤ 2^49 :=
      (Nat.mul_le_mul_left _ (Nat.le_of_lt hi)).trans h.precise
    have hcast : (config.maxDelayMs.toNat : ℚ) * i ≤ 2^49 := by exact_mod_cast hnat
    exact (mul_le_mul_of_nonneg_right (min_le_right _ _) (Nat.cast_nonneg i)).trans hcast
  loss := h.loss i hi
  room n _ _ hn hadd hfour := by
    have hcalm := h.calm hadd i hi
    have hproduct := min_le_left (config.initialDelayMs.toNat * q^i) (config.maxDelayMs.toNat : ℚ)
    have hroom : (n:ℚ) * 5 < config.maxDelayMs.toNat * 4 + 4 := by linarith
    have hroom' : n * 5 < config.maxDelayMs.toNat * 4 + 4 := by exact_mod_cast hroom
    have hmod : seed % (n/4*2) < n/4*2 := Nat.mod_lt _ (by omega)
    omega

end Truncated
end RecoveryConfig

/-! ## The whole backoff -/

section Whole
variable {T : Type} (config : RecoveryConfig) (toLowercase : String → String)
  (results : ℕ → Except String T) (seeds : ℕ → ℕ)

/-- Both loops call the operation once more than they retry and sleep within the bounds. -/
structure BacksOff : Prop where
  calls : (withRetry config toLowercase results seeds).calls =
    retries config toLowercase results + 1
  callsContext : (withRetryContext config toLowercase results seeds).1.calls =
    (withRetry config toLowercase results seeds).calls
  sleeps : ∀ i slept, (withRetry config toLowercase results seeds).sleeps[i]? = some slept →
    config.Within i slept
  sleepsContext : ∀ i slept,
    (withRetryContext config toLowercase results seeds).1.sleeps[i]? = some slept →
      config.Within i slept

variable {config toLowercase results seeds}

theorem withRetry_sleeps : (withRetry config toLowercase results seeds).sleeps =
    (List.range (retries config toLowercase results)).map (fun i =>
      config.calculateDelay (seeds i) (config.baseDelay i)) := by
  rw [withRetry,(withRetryLoop_spec _ _).2]
  simp only [Nat.zero_add]
  rfl

/-- The calls are as they should be in any case, so that it is up to the sleeps. -/
theorem backsOff_iff_within : BacksOff config toLowercase results seeds ↔
    ∀ i < retries config toLowercase results,
      config.Within i (config.calculateDelay (seeds i) (config.baseDelay i)) := by
  have hcontext : (withRetryContext config toLowercase results seeds).1 =
      withRetry config toLowercase results seeds := (withRetryContextLoop_spec _ _).1
  have hget (i slept : ℕ) : (withRetry config toLowercase results seeds).sleeps[i]? = some slept ↔
      i < retries config toLowercase results ∧
        config.calculateDelay (seeds i) (config.baseDelay i) = slept := by
    rw [withRetry_sleeps,List.getElem?_map,Option.map_eq_some_iff]
    constructor
    · rintro ⟨j,hj,rfl⟩
      obtain ⟨hlt,heq⟩ := List.getElem?_eq_some_iff.mp hj
      rw [List.getElem_range] at heq
      rw [List.length_range] at hlt
      exact ⟨hlt,by rw [heq]⟩
    · rintro ⟨hlt,rfl⟩
      exact ⟨i,List.getElem?_range hlt,rfl⟩
  constructor
  · intro h i hi
    exact h.sleeps i _ ((hget i _).mpr ⟨hi,rfl⟩)
  · intro h
    have hsleeps : ∀ i slept, (withRetry config toLowercase results seeds).sleeps[i]? = some slept →
        config.Within i slept := by
      intro i slept hslept
      obtain ⟨hi,rfl⟩ := (hget i slept).mp hslept
      exact h i hi
    refine ⟨(withRetryLoop_spec _ _).1,?_,hsleeps,?_⟩
    · rw [hcontext]
    · rw [hcontext]
      exact hsleeps

theorem retries_le_two_pow : retries config toLowercase results ≤ 2^32 :=
  retries_le.trans config.maxRetries.toNat_lt.le

/-- Where the truncation does not touch a delay its random part has to fit, and this is enough. It
is also enough that the truncation is mild. -/
theorem backsOff_when (config : RecoveryConfig) (toLowercase : String → String)
    (results : ℕ → Except String T) (seeds : ℕ → ℕ) :
    (BacksOff config toLowercase results seeds →
      ∀ i < retries config toLowercase results, config.Untouched i → config.Fits i (seeds i)) ∧
    ((∀ i < retries config toLowercase results,
        (config.Untouched i ∧ config.Fits i (seeds i)) ∨ ∃ q, config.Mild i (seeds i) q) →
      BacksOff config toLowercase results seeds) := by
  have hcount {i : ℕ} (hi : i < retries config toLowercase results) : i ≤ 2^32 :=
    hi.le.trans retries_le_two_pow
  rw [backsOff_iff_within]
  constructor
  · intro h i hi huntouched
    exact (huntouched.within_iff (hcount hi) (seeds i)).mp (h i hi)
  · intro h i hi
    rcases h i hi with ⟨huntouched,hfits⟩ | ⟨q,hmild⟩
    · exact (huntouched.within_iff (hcount hi) (seeds i)).mpr hfits
    · exact hmild.within (hcount hi)

end Whole

theorem backsOff_when_doubled :
    BacksOff {} id (fun _ : ℕ => (.error "timeout" : Except String Unit)) (fun _ => 0) ∧
      RecoveryConfig.Fits {} 0 0 := by
  have hboth := backsOff_when {} id (fun _ => (.error "timeout" : Except String Unit)) (fun _ => 0)
  have hample : RecoveryConfig.Ample {} 3 2 :=
    ⟨congrArg Extended.fin Nat.cast_ofNat,by norm_num,by decide,by decide +kernel,
      fun _ => by decide +kernel⟩
  have hbacksOff := hboth.2 fun i hi => .inr ⟨2,hample.mild (hi.trans_le retries_le) 0⟩
  refine ⟨hbacksOff,hboth.1 hbacksOff 0 (by decide +kernel) (.inl fun j hj => ?_)⟩
  obtain rfl := Nat.le_zero.mp hj
  exact .inl ⟨100,by decide,congrArg Extended.fin Nat.cast_ofNat⟩

/-- With the presets the truncation costs little and no delay comes near the maximum. -/
theorem presets_ample {config : RecoveryConfig}
    (h : config ∈ [{},RecoveryConfig.quick,RecoveryConfig.patient,RecoveryConfig.aggressive]) :
    ∃ q, config.Ample config.maxRetries.toNat q := by
  have htwo : (2 : Extended) = .fin 2 := congrArg Extended.fin Nat.cast_ofNat
  simp only [List.mem_cons,List.not_mem_nil,or_false] at h
  rcases h with rfl | rfl | rfl | rfl
  · exact ⟨2,htwo,by norm_num,by decide,by decide +kernel,fun _ => by decide +kernel⟩
  · exact ⟨2,htwo,by norm_num,by decide,by decide +kernel,fun _ => by decide +kernel⟩
  · exact ⟨2,htwo,by norm_num,by decide,by decide +kernel,fun _ => by decide +kernel⟩
  · exact ⟨3/2,rfl,by norm_num,by decide,by decide +kernel,fun _ => by decide +kernel⟩

theorem presets_backOff {T : Type} {config : RecoveryConfig}
    (h : config ∈ [{},RecoveryConfig.quick,RecoveryConfig.patient,RecoveryConfig.aggressive])
    (toLowercase : String → String) (results : ℕ → Except String T) (seeds : ℕ → ℕ) :
    BacksOff config toLowercase results seeds := by
  obtain ⟨q,hq⟩ := presets_ample h
  rw [backsOff_iff_within]
  intro i hi
  exact (hq.mild (hi.trans_le retries_le) (seeds i)).within (hi.le.trans retries_le_two_pow)

/-- The first delay is the maximum itself. -/
def flat : RecoveryConfig := { maxRetries := 1, maxDelayMs := 100 }

/-- One timeout, then success. -/
def oneTimeout : ℕ → Except String Unit
  | 0 => .error "timeout"
  | _ => .ok ()

/-- A sleep of 124 ms with a maximum of 100 ms. -/
theorem flat_not_backsOff : ¬ BacksOff flat id oneTimeout (fun _ => 49) := by
  rw [backsOff_iff_within]
  intro h
  obtain ⟨t,-,-,-,hcap⟩ := h 0 (by decide +kernel)
  revert hcap
  decide +kernel

end Rullama.Utils
