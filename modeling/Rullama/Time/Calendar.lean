import Mathlib.Algebra.Order.Group.Int
import Mathlib.Data.Int.ConditionallyCompleteOrder
import Mathlib.Order.Monotone.Basic
import Mathlib.Tactic.IntervalCases

/-! # Days, months and instants

Days are counted from 1970-01-01 and months from January of the year 0, in the proleptic Gregorian
calendar. A date lies in the period that starts last before it.
-/
namespace Rullama.Time

/-! ## Periods by their first days -/

section Periods
variable {start : ℤ → ℤ}

/-- A day is in the period from `start i` up to the next start. -/
def InPeriod (start : ℤ → ℤ) (i d : ℤ) : Prop := start i ≤ d ∧ d < start (i+1)

theorem InPeriod.lt_of_lt (hstart : StrictMono start) {i j d e : ℤ} (hi : InPeriod start i d)
    (hj : InPeriod start j e) (h : i < j) : d < e := by
  have hnext : start (i+1) ≤ start j := hstart.monotone (by omega)
  exact lt_of_lt_of_le hi.2 (hnext.trans hj.1)

theorem InPeriod.unique (hstart : StrictMono start) {i j d : ℤ} (hi : InPeriod start i d)
    (hj : InPeriod start j d) : i = j := by
  rcases lt_trichotomy i j with h | h | h
  · exact absurd (hi.lt_of_lt hstart hj h) (lt_irrefl d)
  · exact h
  · exact absurd (hj.lt_of_lt hstart hi h) (lt_irrefl d)

/-- Periods that are made of smaller ones. -/
theorem InPeriod.comp {inner : ℤ → ℤ} (hinner : StrictMono inner) {i d t : ℤ}
    (hd : InPeriod start i d) (ht : InPeriod inner d t) : InPeriod (inner ∘ start) i t := by
  have hlow : inner (start i) ≤ inner d := hinner.monotone hd.1
  have hhigh : inner (d+1) ≤ inner (start (i+1)) := hinner.monotone hd.2
  exact ⟨hlow.trans ht.1,lt_of_lt_of_le ht.2 hhigh⟩

end Periods

/-! ## Months -/

/-- The first of March of a year, in days from 1970-01-01. -/
def marchStart (y : ℤ) : ℤ := 365*(y-1970) + y/4 - y/100 + y/400 - 418

/-- The days from the first of March to the first of a month that comes `m` months later. -/
def daysFromMarch (m : ℤ) : ℤ := (153*m+2)/5

/-- The first day of a month; the year is taken to start in March, so that a leap day ends it. -/
def monthStart (i : ℤ) : ℤ := marchStart ((i-2)/12) + daysFromMarch ((i-2)%12)

/-- The year from March by its mean length is wrong by one at most. -/
def marchYearOf (d : ℤ) : ℤ :=
  let y := 1970 + 400*(d-59)/146097
  if d < marchStart y then y-1 else if marchStart (y+1) ≤ d then y+1 else y

def monthOf (d : ℤ) : ℤ :=
  12*marchYearOf d + (5*(d - marchStart (marchYearOf d)) + 2)/153 + 2

def isLeap (y : ℤ) : Bool := y % 4 == 0 && (y % 100 != 0 || y % 400 == 0)

/-- January is the month 0. -/
def daysInMonth (y m : ℤ) : ℤ :=
  if m = 1 then if isLeap y then 29 else 28
  else if m = 3 ∨ m = 5 ∨ m = 8 ∨ m = 10 then 30 else 31

theorem isLeap_iff (y : ℤ) : isLeap y ↔ y % 4 = 0 ∧ (y % 100 ≠ 0 ∨ y % 400 = 0) := by
  simp only [isLeap,Bool.and_eq_true,Bool.or_eq_true,beq_iff_eq,bne_iff_ne]

/-- A year from March ends with the leap day of the next. -/
theorem marchStart_succ (y : ℤ) :
    marchStart (y+1) = marchStart y + if isLeap (y+1) then 366 else 365 := by
  unfold marchStart
  split
  · rename_i h
    have hleap := (isLeap_iff (y+1)).mp h
    omega
  · rename_i h
    have hleap := mt (isLeap_iff (y+1)).mpr h
    omega

theorem monthStart_of {y m : ℤ} (h0 : 0 ≤ m) (h12 : m < 12) :
    monthStart (12*y+m+2) = marchStart y + daysFromMarch m := by
  have hyear : (12*y+m+2-2)/12 = y := by omega
  have hmonth : (12*y+m+2-2)%12 = m := by omega
  rw [monthStart,hyear,hmonth]

/-- Behind February comes the next first of March. -/
theorem monthStart_succ_of {y m : ℤ} (h0 : 0 ≤ m) (h12 : m < 12) :
    monthStart (12*y+m+2+1) =
      if m = 11 then marchStart (y+1) else marchStart y + daysFromMarch (m+1) := by
  split
  · rename_i h
    have hnext : 12*y+m+2+1 = 12*(y+1)+0+2 := by omega
    rw [hnext,monthStart_of (le_refl 0) (by decide)]
    exact add_zero _
  · have hnext : 12*y+m+2+1 = 12*y+(m+1)+2 := by omega
    rw [hnext,monthStart_of (by omega) (by omega)]

theorem exists_marchMonth (i : ℤ) : ∃ y m : ℤ, 0 ≤ m ∧ m < 12 ∧ i = 12*y+m+2 :=
  ⟨(i-2)/12,(i-2)%12,by omega,by omega,by omega⟩

/-- Each month starts where the month before it ends. -/
theorem monthStart_succ (i : ℤ) :
    monthStart (i+1) = monthStart i + daysInMonth (i/12) (i%12) := by
  obtain ⟨y,m,h0,h12,rfl⟩ := exists_marchMonth i
  rw [monthStart_of h0 h12,monthStart_succ_of h0 h12]
  split
  · rename_i h
    subst h
    have hyear : (12*y+11+2)/12 = y+1 := by omega
    have hmonth : (12*y+11+2)%12 = 1 := by omega
    rw [hyear,hmonth,marchStart_succ]
    unfold daysInMonth daysFromMarch
    split <;> simp <;> omega
  · have hmonth : (12*y+m+2)%12 = (m+2)%12 := by omega
    rw [hmonth]
    have hm : m < 11 := by omega
    have hlength : daysFromMarch (m+1) = daysFromMarch m +
        daysInMonth ((12*y+m+2)/12) ((m+2)%12) := by
      interval_cases m <;> rfl
    omega

theorem daysInMonth_pos (y m : ℤ) : 0 < daysInMonth y m := by
  unfold daysInMonth
  split_ifs <;> decide

theorem monthStart_strictMono : StrictMono monthStart := by
  apply strictMono_int_of_lt_succ
  intro i
  have h := daysInMonth_pos (i/12) (i%12)
  rw [monthStart_succ]
  omega

/-- A year starts within four days of where its mean length puts it. -/
theorem marchStart_near (y : ℤ) : 146097*(y-1970) + 22000 ≤ 400*marchStart y ∧
    400*marchStart y ≤ 146097*(y-1970) + 25200 := by
  unfold marchStart
  omega

theorem marchYearOf_spec (d : ℤ) : InPeriod marchStart (marchYearOf d) d := by
  have hestimate := marchStart_near (1970 + 400*(d-59)/146097)
  have hbefore := marchStart_near (1970 + 400*(d-59)/146097 - 1)
  have hnext := marchStart_near (1970 + 400*(d-59)/146097 + 1 + 1)
  unfold InPeriod marchYearOf
  dsimp only
  split
  · rw [sub_add_cancel]
    omega
  · split <;> omega

theorem monthOf_spec (d : ℤ) : InPeriod monthStart (monthOf d) d := by
  obtain ⟨hlow,hhigh⟩ := marchYearOf_spec d
  have hlength : marchStart (marchYearOf d + 1) ≤ marchStart (marchYearOf d) + 366 := by
    rw [marchStart_succ]
    split <;> omega
  unfold InPeriod monthOf
  rw [monthStart_of (by omega) (by omega),monthStart_succ_of (by omega) (by omega)]
  unfold daysFromMarch
  refine ⟨by omega,?_⟩
  split <;> omega

example : monthOf 0 = 12*1970 ∧ monthStart (12*2024+2) = 19783 := by decide

/-! ## Instants -/

/-- Nanoseconds of a day. -/
def dayLength : ℤ := 86400 * 10^9

/-- The midnight that starts the day. -/
def midnight (d : ℤ) : ℤ := d * dayLength

def dayOf (t : ℤ) : ℤ := t / dayLength

/-- Days from Monday. -/
def weekday (d : ℤ) : ℤ := (d+3) % 7

/-- The difference of local time and UTC, in seconds, which is less than a day. -/
structure UtcOffset where
  seconds : ℤ
  lower : -86400 < seconds
  upper : seconds < 86400

/-- What a clock at this offset shows. -/
def UtcOffset.localTime (offset : UtcOffset) (t : ℤ) : ℤ := t + offset.seconds * 10^9

def UtcOffset.localDay (offset : UtcOffset) (t : ℤ) : ℤ := dayOf (offset.localTime t)

def UtcOffset.localMonth (offset : UtcOffset) (t : ℤ) : ℤ := monthOf (offset.localDay t)

theorem midnight_succ (d : ℤ) : midnight (d+1) = midnight d + dayLength := by
  rw [midnight,midnight,add_mul,one_mul]

theorem midnight_strictMono : StrictMono midnight := by
  apply strictMono_int_of_lt_succ
  intro d
  rw [midnight_succ]
  exact lt_add_of_pos_right _ (by decide)

theorem dayOf_spec (t : ℤ) : InPeriod midnight (dayOf t) t := by
  unfold InPeriod midnight dayOf dayLength
  omega

/-- A month is no shorter than a day. -/
theorem monthMidnight_succ (i : ℤ) :
    midnight (monthStart i) + dayLength ≤ midnight (monthStart (i+1)) := by
  rw [← midnight_succ]
  exact midnight_strictMono.monotone (monthStart_strictMono (lt_add_one i))

namespace UtcOffset
variable (offset : UtcOffset)

theorem localDay_spec (t : ℤ) : InPeriod midnight (offset.localDay t) (offset.localTime t) :=
  dayOf_spec (offset.localTime t)

theorem localMonth_spec (t : ℤ) :
    InPeriod (midnight ∘ monthStart) (offset.localMonth t) (offset.localTime t) :=
  (monthOf_spec (offset.localDay t)).comp midnight_strictMono (offset.localDay_spec t)

end UtcOffset
end Rullama.Time
