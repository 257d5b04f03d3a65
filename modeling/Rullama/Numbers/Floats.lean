import Rullama.Numbers.Extended
import Rullama.Numbers.Rounding

/-! # Floating point

Rational numbers with infinities that are rounded to a number of bits and have a largest exponent,
and what the cast to an unsigned integer makes of them. Numbers that are too small for the format
are kept.
-/
namespace Rullama.Numbers.Extended

/-- The result of an operation in a format of `p` bits whose numbers are less than `2^top`. -/
def round (p top : ℕ) : Extended → Extended
  | fin q =>
    if 2^top ≤ roundTo p q then posInf else if roundTo p q ≤ -2^top then negInf
    else fin (roundTo p q)
  | x => x

/-- A saturating cast, which takes no number for zero. -/
def toUnsigned (largest : ℕ) : Extended → ℕ
  | nan | negInf => 0
  | fin q => min ⌊q⌋.toNat largest
  | posInf => largest

/-- What is at least a natural number. -/
theorem le_toUnsigned {n largest : ℕ} {x : Extended} (h : (fin n).le x) (hn : n ≤ largest) :
    n ≤ x.toUnsigned largest := by
  cases x with
  | nan | negInf => cases h
  | posInf => exact hn
  | fin q =>
    have hq : (n:ℚ) ≤ q := of_decide_eq_true h
    have hfloor : (n:ℤ) ≤ ⌊q⌋ := Int.le_floor.mpr (by exact_mod_cast hq)
    exact le_min (by omega) hn

theorem toUnsigned_natCast {n largest : ℕ} (h : n ≤ largest) :
    (fin n).toUnsigned largest = n := by
  rw [toUnsigned,Int.floor_natCast,Int.toNat_natCast,Nat.min_eq_left h]

theorem toUnsigned_le {largest : ℕ} {q : ℚ} (hq : 0 ≤ q) :
    ((fin q).toUnsigned largest : ℚ) ≤ q := by
  have hfloor : (⌊q⌋.toNat : ℤ) = ⌊q⌋ := Int.toNat_of_nonneg (Int.floor_nonneg.mpr hq)
  have hcast : ((⌊q⌋.toNat : ℤ) : ℚ) ≤ q := by
    rw [hfloor]
    exact Int.floor_le q
  have hmin : ((min ⌊q⌋.toNat largest : ℕ) : ℚ) ≤ ⌊q⌋.toNat := by
    exact_mod_cast Nat.min_le_left _ _
  exact hmin.trans (by exact_mod_cast hcast)

/-- A natural number of the format that is not above is not above after the rounding. -/
theorem le_round {p top n : ℕ} {x : Extended} (hp : 0 < p) (hn : n ≤ 2^p)
    (h : (fin n).le x) : (fin n).le (x.round p top) := by
  cases x with
  | nan | negInf => cases h
  | posInf => exact h
  | fin q =>
    have hround : (n:ℚ) ≤ roundTo p q := natCast_le_roundTo hp hn (of_decide_eq_true h)
    rw [round]
    split
    · rfl
    · split
      · rename_i hbelow
        have hpos : (0:ℚ) < 2^top := by positivity
        have hnonneg : (0:ℚ) ≤ n := Nat.cast_nonneg n
        exact absurd hbelow (by linarith)
      · exact decide_eq_true hround

theorem round_natCast {p top n : ℕ} (hp : 0 < p) (hn : n ≤ 2^p) (htop : p < top) :
    (fin n).round p top = fin n := by
  have hpower : (n:ℚ) < 2^top := by
    have hlt : (2:ℚ)^p < 2^top := pow_lt_pow_right₀ (by norm_num) htop
    exact lt_of_le_of_lt (by exact_mod_cast hn) hlt
  have hnonneg : (0:ℚ) ≤ n := Nat.cast_nonneg n
  rw [round,roundTo_natCast hp hn,if_neg (not_le.mpr hpower),if_neg (by linarith)]

/-- The rounding goes upwards by no more than the relative error. -/
theorem toUnsigned_round_le {p top largest : ℕ} {q : ℚ} (hq : 0 ≤ q) (hlargest : largest ≤ 2^top) :
    (((fin q).round p top).toUnsigned largest : ℚ) ≤ q * (1 + 1/2^p) := by
  have hround := roundTo_le (p := p) hq
  have hnonneg : 0 ≤ roundTo p q := by
    have hzero := le_roundTo_of_eq (p := p) (x := q) (y := 0) (n := 0) (by simp) hq
    exact hzero
  rw [round]
  split
  · rename_i htop
    have hcast : (largest:ℚ) ≤ 2^top := by exact_mod_cast hlargest
    exact hcast.trans (htop.trans hround)
  · split
    · rename_i hbelow
      have hpos : (0:ℚ) < 2^top := by positivity
      exact absurd hbelow (by linarith)
    · exact (toUnsigned_le hnonneg).trans hround

end Rullama.Numbers.Extended
