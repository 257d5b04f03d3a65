import Mathlib.Algebra.Order.Ring.Rat
import Mathlib.Data.Nat.Cast.Order.Ring

/-! # Rational numbers with infinities

What floating point numbers stand for: a rational number, one of the infinities or no number. The
two zeros are one. Nothing is rounded here.
-/
namespace Rullama.Numbers

inductive Extended where
  | nan
  | negInf
  | fin (q : ℚ)
  | posInf
  deriving DecidableEq

namespace Extended

instance (n : ℕ) : OfNat Extended n := ⟨fin n⟩

/-- No number compares to nothing. -/
def le : Extended → Extended → Bool
  | fin a,fin b => a ≤ b
  | negInf,negInf | negInf,fin _ | negInf,posInf | fin _,posInf | posInf,posInf => true
  | _,_ => false

def lt : Extended → Extended → Bool
  | fin a,fin b => a < b
  | negInf,fin _ | negInf,posInf | fin _,posInf => true
  | _,_ => false

/-- A zero takes the sign of no number. -/
def div : Extended → Extended → Extended
  | fin a,fin b =>
    if b = 0 then if a = 0 then nan else if 0 < a then posInf else negInf else fin (a/b)
  | fin _,posInf | fin _,negInf => fin 0
  | posInf,fin b => if b < 0 then negInf else posInf
  | negInf,fin b => if b < 0 then posInf else negInf
  | _,_ => nan

def mul : Extended → Extended → Extended
  | fin a,fin b => fin (a*b)
  | posInf,fin b | fin b,posInf =>
    if b = 0 then nan else if 0 < b then posInf else negInf
  | negInf,fin b | fin b,negInf =>
    if b = 0 then nan else if 0 < b then negInf else posInf
  | posInf,posInf | negInf,negInf => posInf
  | posInf,negInf | negInf,posInf => negInf
  | _,_ => nan

theorem le_trans {a b c : Extended} (hab : a.le b) (hbc : b.le c) : a.le c := by
  cases a with
  | nan => cases hab
  | posInf =>
    cases b with
    | posInf => exact hbc
    | nan | negInf | fin b => cases hab
  | negInf =>
    cases b with
    | nan => cases hab
    | negInf | fin b | posInf =>
      cases c with
      | nan => cases hbc
      | negInf | fin c | posInf => rfl
  | fin a =>
    cases b with
    | nan | negInf => cases hab
    | posInf => cases c <;> first | rfl | cases hbc
    | fin b =>
      cases c with
      | nan | negInf => cases hbc
      | posInf => rfl
      | fin c =>
        have hab' : a ≤ b := of_decide_eq_true hab
        have hbc' : b ≤ c := of_decide_eq_true hbc
        exact decide_eq_true (hab'.trans hbc')

/-- A factor of one or more keeps what is at least a positive number. -/
theorem le_mul {n : ℕ} {a b : Extended} (hn : 0 < n) (ha : (fin n).le a) (hb : le 1 b) :
    (fin n).le (a.mul b) := by
  have hpos : (0:ℚ) < n := Nat.cast_pos.mpr hn
  cases b with
  | nan | negInf => cases hb
  | posInf =>
    cases a with
    | nan | negInf => cases ha
    | posInf => rfl
    | fin a =>
      have ha' : (n:ℚ) ≤ a := of_decide_eq_true ha
      have hapos := hpos.trans_le ha'
      rw [mul,if_neg hapos.ne',if_pos hapos]
      rfl
  | fin b =>
    have hb' : (1:ℚ) ≤ b := of_decide_eq_true hb
    have hbpos : (0:ℚ) < b := lt_of_lt_of_le zero_lt_one hb'
    cases a with
    | nan | negInf => cases ha
    | posInf =>
      rw [mul,if_neg hbpos.ne',if_pos hbpos]
      rfl
    | fin a =>
      have ha' : (n:ℚ) ≤ a := of_decide_eq_true ha
      have hproduct : a ≤ a*b := le_mul_of_one_le_right (hpos.le.trans ha') hb'
      exact decide_eq_true (ha'.trans hproduct)

end Extended
end Rullama.Numbers
