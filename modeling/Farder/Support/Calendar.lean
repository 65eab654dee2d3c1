import Mathlib.Algebra.Order.BigOperators.Group.Finset
import Mathlib.Tactic.Common

/-! # The proleptic Gregorian calendar

The dates of the calendar, the day after each, and the number of days from the first day of
1970, which identifies a date. -/
namespace Calendar

def IsLeap (year : ℤ) : Prop := 4 ∣ year ∧ (¬100 ∣ year ∨ 400 ∣ year)

instance (year : ℤ) : Decidable (IsLeap year) := inferInstanceAs (Decidable (_ ∧ (_ ∨ _)))

def daysInYear (year : ℤ) : ℤ := if IsLeap year then 366 else 365

def daysInMonth (year : ℤ) (month : ℕ) : ℕ :=
  match month with
  | 2 => if IsLeap year then 29 else 28
  | 4 | 6 | 9 | 11 => 30
  | _ => 31

@[ext] structure Date where
  year : ℤ
  month : ℕ
  day : ℕ
  month_mem : 1 ≤ month ∧ month ≤ 12
  day_mem : 1 ≤ day ∧ day ≤ daysInMonth year month
  deriving DecidableEq, Repr

theorem daysInMonth_pos (year : ℤ) (month : ℕ) : 1 ≤ daysInMonth year month := by
  unfold daysInMonth
  split
  · split_ifs <;> decide
  all_goals decide

namespace Date

/-- The first day of 1970. -/
def epoch : Date := ⟨1970, 1, 1, by decide, by decide⟩

/-- The day after. -/
def next (d : Date) : Date :=
  if hday : d.day < daysInMonth d.year d.month then
    ⟨d.year, d.month, d.day + 1, d.month_mem, ⟨Nat.le_add_left 1 _, hday⟩⟩
  else if hmonth : d.month < 12 then
    ⟨d.year, d.month + 1, 1, ⟨Nat.le_add_left 1 _, hmonth⟩, ⟨le_rfl, daysInMonth_pos _ _⟩⟩
  else
    ⟨d.year + 1, 1, 1, by decide, ⟨le_rfl, daysInMonth_pos _ _⟩⟩

end Date

/-- The days from the first one of year 0 to the first one of a year. -/
def daysBeforeYear (year : ℤ) : ℤ :=
  365 * year + (year + 3) / 4 - (year + 99) / 100 + (year + 399) / 400

/-- The days of a year before a month of it. -/
def daysBeforeMonth (year : ℤ) (month : ℕ) : ℕ :=
  ∑ m ∈ Finset.range (month - 1), daysInMonth year (m + 1)

/-- The days from the first one of 1970 to a date. -/
def Date.dayNumber (d : Date) : ℤ :=
  daysBeforeYear d.year - daysBeforeYear 1970 + daysBeforeMonth d.year d.month + (d.day - 1)

/-! ## Years and months -/

theorem daysBeforeYear_succ (year : ℤ) :
    daysBeforeYear (year + 1) = daysBeforeYear year + daysInYear year := by
  unfold daysBeforeYear daysInYear IsLeap
  split_ifs with h <;> omega

theorem daysBeforeYear_mono {year year' : ℤ} (h : year ≤ year') :
    daysBeforeYear year ≤ daysBeforeYear year' := by
  refine monotone_int_of_le_succ (fun year => ?_) h
  have hpos : 0 < daysInYear year := by
    unfold daysInYear
    split_ifs <;> decide
  rw [daysBeforeYear_succ]
  omega

theorem daysBeforeMonth_succ (year : ℤ) {month : ℕ} (h : 1 ≤ month) :
    daysBeforeMonth year (month + 1) = daysBeforeMonth year month + daysInMonth year month := by
  obtain ⟨m, rfl⟩ := Nat.exists_eq_add_of_le' h
  exact Finset.sum_range_succ _ _

theorem daysBeforeMonth_mono (year : ℤ) : Monotone (daysBeforeMonth year) := fun _ _ h =>
  Finset.sum_le_sum_of_subset (Finset.range_mono (Nat.sub_le_sub_right h 1))

theorem daysBeforeMonth_end (year : ℤ) : (daysBeforeMonth year 13 : ℤ) = daysInYear year := by
  unfold daysInYear
  split_ifs with h <;> simp [daysBeforeMonth, Finset.sum_range_succ, daysInMonth, h]

/-! ## The number of a day -/

theorem dayNumber_epoch : Date.epoch.dayNumber = 0 := by
  simp [Date.dayNumber, Date.epoch, daysBeforeMonth]

theorem dayNumber_next (d : Date) : d.next.dayNumber = d.dayNumber + 1 := by
  have hmonth := daysBeforeMonth_succ d.year d.month_mem.1
  obtain ⟨hfirst, hlast⟩ := d.day_mem
  unfold Date.next
  split_ifs with hday hyear
  · simp only [Date.dayNumber]
    push_cast
    omega
  · simp only [Date.dayNumber, hmonth]
    push_cast
    omega
  · have hdecember : d.month = 12 := Nat.le_antisymm d.month_mem.2 (Nat.not_lt.mp hyear)
    have hjanuary : daysBeforeMonth (d.year + 1) 1 = 0 := rfl
    have hend := daysBeforeMonth_end d.year
    rw [hdecember] at hmonth hday hlast
    rw [hmonth] at hend
    simp only [Date.dayNumber, daysBeforeYear_succ, hjanuary, hdecember]
    push_cast
    omega

theorem dayNumber_iterate (n : ℕ) : (Date.next^[n] Date.epoch).dayNumber = n := by
  induction n with
  | zero => exact dayNumber_epoch
  | succ n ih =>
    rw [Function.iterate_succ_apply', dayNumber_next, ih]
    push_cast
    rfl

theorem dayOfYear_lt (d : Date) {month : ℕ} (h : d.month < month) :
    daysBeforeMonth d.year d.month + d.day ≤ daysBeforeMonth d.year month := by
  have hmonth := daysBeforeMonth_succ d.year d.month_mem.1
  have hle := daysBeforeMonth_mono d.year h
  have hday := d.day_mem.2
  rw [Nat.succ_eq_add_one, hmonth] at hle
  omega

variable {d d' : Date}

theorem dayNumber_lt_of_year (h : d.year < d'.year) : d.dayNumber < d'.dayNumber := by
  have hyears := daysBeforeYear_mono (Int.add_one_le_of_lt h)
  have hend := daysBeforeMonth_end d.year
  have hlt := dayOfYear_lt d (Nat.lt_of_le_of_lt d.month_mem.2 (by decide : 12 < 13))
  have hone := d'.day_mem.1
  rw [daysBeforeYear_succ] at hyears
  unfold Date.dayNumber
  omega

theorem dayNumber_lt_of_month (hyear : d.year = d'.year) (h : d.month < d'.month) :
    d.dayNumber < d'.dayNumber := by
  have hlt := dayOfYear_lt d h
  have hone := d'.day_mem.1
  unfold Date.dayNumber
  rw [← hyear]
  omega

theorem dayNumber_injective : Function.Injective Date.dayNumber := by
  intro d d' h
  have hyear : d.year = d'.year := by
    rcases lt_trichotomy d.year d'.year with hlt | heq | hlt
    · exact absurd h (dayNumber_lt_of_year hlt).ne
    · exact heq
    · exact absurd h (dayNumber_lt_of_year hlt).ne'
  have hmonth : d.month = d'.month := by
    rcases lt_trichotomy d.month d'.month with hlt | heq | hlt
    · exact absurd h (dayNumber_lt_of_month hyear hlt).ne
    · exact heq
    · exact absurd h (dayNumber_lt_of_month hyear.symm hlt).ne'
  have hday : d.day = d'.day := by
    simp only [Date.dayNumber, hyear, hmonth] at h
    omega
  exact Date.ext hyear hmonth hday

end Calendar
