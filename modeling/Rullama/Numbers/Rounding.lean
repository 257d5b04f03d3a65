import Mathlib.Algebra.Order.Floor.Ring
import Mathlib.Data.Int.Log
import Mathlib.Data.Rat.Floor
import Mathlib.Tactic.Linarith
import Mathlib.Tactic.Positivity
import Mathlib.Tactic.Ring

/-! # Rounding to a number of bits

The nearest number of so many significant bits, and of two nearest ones the even one, where the
exponents have no bound.
-/
namespace Rullama.Numbers

/-! ## To an integer -/

def roundHalfEven (x : ℚ) : ℤ :=
  if x - ⌊x⌋ < 1/2 then ⌊x⌋ else if 1/2 < x - ⌊x⌋ then ⌊x⌋+1
  else if ⌊x⌋ % 2 = 0 then ⌊x⌋ else ⌊x⌋+1

@[simp] theorem roundHalfEven_intCast (n : ℤ) : roundHalfEven n = n := by
  unfold roundHalfEven
  rw [Int.floor_intCast,sub_self,if_pos (by norm_num)]

theorem floor_le_roundHalfEven (x : ℚ) : ⌊x⌋ ≤ roundHalfEven x := by
  unfold roundHalfEven
  split_ifs <;> omega

theorem roundHalfEven_le (x : ℚ) : (roundHalfEven x : ℚ) ≤ x + 1/2 := by
  have hfloor := Int.floor_le x
  unfold roundHalfEven
  split_ifs with hlow hhigh
  · linarith
  · push_cast
    linarith
  · linarith
  · push_cast
    linarith

/-! ## To significant bits -/

/-- The distance of the numbers of `p` bits that are about as large as `x`. -/
def ulp (p : ℕ) (x : ℚ) : ℚ := 2^(Int.log 2 |x| - p + 1)

def roundTo (p : ℕ) (x : ℚ) : ℚ := roundHalfEven (x / ulp p x) * ulp p x

theorem ulp_pos (p : ℕ) (x : ℚ) : 0 < ulp p x := zpow_pos (by norm_num) _

/-- What is a multiple of its distance is not changed. -/
theorem roundTo_of_eq {p : ℕ} {x : ℚ} {n : ℤ} (h : x = n * ulp p x) : roundTo p x = x := by
  have hne := (ulp_pos p x).ne'
  have hquotient : x / ulp p x = n := (div_eq_iff hne).mpr h
  rw [roundTo,hquotient,roundHalfEven_intCast,← h]

/-- A number of `p` bits is not changed. -/
theorem roundTo_exact {p : ℕ} {m : ℤ} {e : ℤ} (hm : |m| < 2^p) :
    roundTo p (m * 2^e) = m * 2^e := by
  by_cases hzero : m = 0
  · subst hzero
    simp [roundTo,roundHalfEven]
  · have hpower : (0:ℚ) < 2^e := zpow_pos (by norm_num) e
    have hlog : Int.log 2 |(m * 2^e : ℚ)| < p + e := by
      have hx : (0:ℚ) < |(m * 2^e : ℚ)| :=
        abs_pos.mpr (mul_ne_zero (Int.cast_ne_zero.mpr hzero) hpower.ne')
      apply (Int.lt_zpow_iff_log_lt (by norm_num) hx).mp
      rw [abs_mul,abs_of_pos hpower,Nat.cast_ofNat,
        zpow_add₀ (by norm_num),zpow_natCast]
      have hcast : |(m:ℚ)| < 2^p := by exact_mod_cast hm
      exact mul_lt_mul_of_pos_right hcast hpower
    apply roundTo_of_eq (n := m * 2^(e - (Int.log 2 |(m * 2^e : ℚ)| - p + 1)).toNat)
    unfold ulp
    have hexp : (e - (Int.log 2 |(m * 2^e : ℚ)| - p + 1)).toNat =
        e - (Int.log 2 |(m * 2^e : ℚ)| - p + 1) := Int.toNat_of_nonneg (by omega)
    push_cast
    rw [mul_assoc,← zpow_natCast,hexp,← zpow_add₀ (by norm_num)]
    congr 2
    omega

/-- A natural number that is not too large is not changed. -/
theorem roundTo_natCast {p n : ℕ} (hp : 0 < p) (h : n ≤ 2^p) : roundTo p n = n := by
  rcases Nat.lt_or_eq_of_le h with hlt | rfl
  · have hexact := roundTo_exact (p := p) (m := n) (e := 0) (by
      rw [abs_of_nonneg (Int.natCast_nonneg n)]
      exact_mod_cast hlt)
    simpa using hexact
  · have hexact := roundTo_exact (p := p) (m := 1) (e := p) (by
      rw [abs_one]
      exact one_lt_pow₀ (by norm_num) hp.ne')
    simpa using hexact

/-- Nothing is rounded below a multiple of its distance that it is not below. -/
theorem le_roundTo_of_eq {p : ℕ} {x y : ℚ} {n : ℤ} (hy : y = n * ulp p x) (h : y ≤ x) :
    y ≤ roundTo p x := by
  have hpos := ulp_pos p x
  have hquotient : (n : ℚ) ≤ x / ulp p x := by
    rw [le_div_iff₀ hpos,← hy]
    exact h
  have hround : n ≤ roundHalfEven (x / ulp p x) :=
    (Int.le_floor.mpr hquotient).trans (floor_le_roundHalfEven _)
  rw [hy,roundTo]
  exact mul_le_mul_of_nonneg_right (by exact_mod_cast hround) hpos.le

/-- Nor below a natural number that is not too large. -/
theorem natCast_le_roundTo {p n : ℕ} {x : ℚ} (hp : 0 < p) (hn : n ≤ 2^p) (h : n ≤ x) :
    n ≤ roundTo p x := by
  by_cases hlog : Int.log 2 |x| ≤ p - 1
  · apply le_roundTo_of_eq (n := n * 2^((p:ℤ) - 1 - Int.log 2 |x|).toNat) _ h
    have hexp : (((p:ℤ) - 1 - Int.log 2 |x|).toNat : ℤ) = p - 1 - Int.log 2 |x| :=
      Int.toNat_of_nonneg (by omega)
    unfold ulp
    push_cast
    rw [mul_assoc,← zpow_natCast,hexp,← zpow_add₀ (by norm_num)]
    have hzero : (p:ℤ) - 1 - Int.log 2 |x| + (Int.log 2 |x| - p + 1) = 0 := by omega
    rw [hzero,zpow_zero,mul_one]
  · have hx : 0 < |x| := by
      by_contra hne
      have hzero := Int.log_of_right_le_zero 2 (not_lt.mp hne)
      omega
    have hnonneg : (0:ℚ) ≤ x := le_trans (Nat.cast_nonneg n) h
    have hbinade : (2:ℚ)^Int.log 2 |x| ≤ x := by
      have hself := Int.zpow_log_le_self (b := 2) (by norm_num) hx
      simpa only [abs_of_nonneg hnonneg,Nat.cast_ofNat] using hself
    have hbelow : (n:ℚ) ≤ 2^Int.log 2 |x| := by
      have hpower : (2:ℚ)^(p:ℤ) ≤ 2^Int.log 2 |x| :=
        zpow_le_zpow_right₀ (by norm_num) (by omega)
      rw [zpow_natCast] at hpower
      exact le_trans (by exact_mod_cast hn) hpower
    refine hbelow.trans (le_roundTo_of_eq (n := 2^(p-1)) ?_ hbinade)
    unfold ulp
    push_cast
    rw [← zpow_natCast,← zpow_add₀ (by norm_num)]
    congr 1
    omega

/-- The relative error upwards. -/
theorem roundTo_le {p : ℕ} {x : ℚ} (hx : 0 ≤ x) : roundTo p x ≤ x * (1 + 1/2^p) := by
  rcases hx.eq_or_lt with rfl | hpos
  · simp [roundTo,roundHalfEven]
  · have hulp := ulp_pos p x
    have hround := mul_le_mul_of_nonneg_right (roundHalfEven_le (x / ulp p x)) hulp.le
    have hcancel : (x / ulp p x + 1/2) * ulp p x = x + ulp p x / 2 := by
      rw [add_mul,div_mul_cancel₀ _ hulp.ne']
      ring
    have hhalf : ulp p x / 2 ≤ x * (1/2^p) := by
      have hself := Int.zpow_log_le_self (b := 2) (by norm_num) (abs_pos.mpr hpos.ne')
      rw [abs_of_pos hpos,Nat.cast_ofNat] at hself
      have hsplit : ulp p x / 2 = 2^Int.log 2 x * (1/2^p) := by
        rw [ulp,abs_of_pos hpos,zpow_add₀ (by norm_num),zpow_sub₀ (by norm_num),zpow_natCast,
          zpow_one]
        ring
      rw [hsplit]
      exact mul_le_mul_of_nonneg_right hself (by positivity)
    rw [hcancel] at hround
    rw [roundTo]
    linarith

end Rullama.Numbers
