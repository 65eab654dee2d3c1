import Farder.Support.Calendar
import Farder.Support.Guarded
import Mathlib.Tactic.IntervalCases

/-! # The dates on cards

The fallback text of a giveaway's card says when it ends, on the calendar and without any
library for dates. -/
namespace CardDates

open Guarded Calendar

/-- The result of an operation on 64-bit signed words; one that does not fit panics. -/
def i64 (operation : String) (x : ℤ) : Checked ℤ :=
  expect (if -2 ^ 63 ≤ x ∧ x < 2 ^ 63 then some x else none)
    s!"attempt to {operation} with overflow"

def add (a b : ℤ) : Checked ℤ := i64 "add" (a + b)
def subtract (a b : ℤ) : Checked ℤ := i64 "subtract" (a - b)
def multiply (a b : ℤ) : Checked ℤ := i64 "multiply" (a * b)

def zeroPadded (width n : ℕ) : String :=
  String.ofList ((Nat.toDigits 10 n).leftpad width '0')

/-- The format `0width` of a signed word: the sign counts towards the width. -/
def signedPadded (width : ℕ) (i : ℤ) : String :=
  match i with
  | .ofNat n => zeroPadded width n
  | .negSucc n => "-" ++ zeroPadded (width - 1) (n + 1)

/-- Year, month and day of a number of days: years are counted from the first of March. -/
def civilFromDays (days : ℤ) : Checked (ℤ × ℤ × ℤ) := do
  let z ← add days 719468
  let era := z / 146097
  let doe := z % 146097
  let yoe ← subtract doe (doe.tdiv 1460)
  let yoe ← add yoe (doe.tdiv 36524)
  let yoe ← subtract yoe (doe.tdiv 146096)
  let yoe := yoe.tdiv 365
  let before ← multiply 365 yoe
  let before ← add before (yoe.tdiv 4)
  let before ← subtract before (yoe.tdiv 100)
  let doy ← subtract doe before
  let mp ← multiply 5 doy
  let mp ← add mp 2
  let mp := mp.tdiv 153
  let start ← multiply 153 mp
  let start ← add start 2
  let d ← subtract doy (start.tdiv 5)
  let d ← add d 1
  let m ← if mp < 10 then add mp 3 else subtract mp 9
  let y ← multiply era 400
  let y ← add yoe y
  let y ← add y (if m ≤ 2 then 1 else 0)
  return (y, m, d)

def formatUtc (secs : UInt64) : Checked String := do
  let days := (secs / 86400).toInt64.toInt
  let rem := secs % 86400
  let hh := (rem / 3600).toNat
  let mm := (rem % 3600 / 60).toNat
  let (y, m, d) ← civilFromDays days
  return s!"{signedPadded 4 y}-{signedPadded 2 m}-{signedPadded 2 d} " ++
    s!"{zeroPadded 2 hh}:{zeroPadded 2 mm} UTC"

example : formatUtc 1785110400 = .ok "2026-07-27 00:00 UTC" := by decide +kernel

/-! ## Years that begin in March -/

theorem i64_eq_ok {operation : String} {x : ℤ} (hlow : -2 ^ 63 ≤ x) (hhigh : x < 2 ^ 63) :
    i64 operation x = .ok x := by
  rw [i64, if_pos ⟨hlow, hhigh⟩]
  rfl

theorem i64_bind {α : Type} {operation : String} {x : ℤ} {f : ℤ → Checked α}
    (hlow : -2 ^ 63 ≤ x) (hhigh : x < 2 ^ 63) : (i64 operation x >>= f) = f x := by
  rw [i64_eq_ok hlow hhigh]
  rfl

/-- A day of an era lies in a century, in a cycle of four years of it, and in a year of that. -/
theorem eraDay_split {doe : ℤ} (hlow : 0 ≤ doe) (hhigh : doe < 146096) :
    ∃ c j k s, doe = 36524 * c + 1461 * j + s ∧ 0 ≤ c ∧ c ≤ 3 ∧ 0 ≤ j ∧ j ≤ 24 ∧
      0 ≤ k ∧ k ≤ 3 ∧ 365 * k ≤ s ∧ s ≤ 365 * k + 365 ∧
      (s = 365 * k + 365 → k = 3 ∧ j ≠ 24) := by
  obtain ⟨s, hs⟩ : ∃ s, s = (doe - 36524 * (doe / 36524)) % 1461 := ⟨_, rfl⟩
  refine ⟨doe / 36524, (doe - 36524 * (doe / 36524)) / 1461, if s < 1460 then s / 365 else 3, s, ?_⟩
  split_ifs <;> omega

/-- The year of an era that a day of the era lies in. -/
def yearOfEra (doe : ℤ) : ℤ := (doe - doe / 1460 + doe / 36524 - doe / 146096) / 365

/-- The day of that year. -/
def dayOfYear (doe : ℤ) : ℤ :=
  doe - (365 * yearOfEra doe + yearOfEra doe / 4 - yearOfEra doe / 100)

theorem yearOfEra_spec {doe : ℤ} (hlow : 0 ≤ doe) (hhigh : doe < 146097) :
    0 ≤ yearOfEra doe ∧ yearOfEra doe < 400 ∧ 0 ≤ dayOfYear doe ∧
      dayOfYear doe < 365 + if IsLeap (yearOfEra doe + 1) then 1 else 0 := by
  unfold dayOfYear
  by_cases hend : doe = 146096
  · subst hend
    decide
  obtain ⟨c, j, k, s, hdoe, hc, hc', hj, hj', hk, hk', hs, hs', hlast⟩ :=
    eraDay_split hlow (by omega : doe < 146096)
  have hcentury : doe / 36524 = c := by omega
  have hera : doe / 146096 = 0 := by omega
  -- Centuries are longer than 25 cycles of 1460 days, so that the quotient may be one more.
  have hquot : doe / 1460 = 25 * c + j + if 24 * c + j + s < 1460 then 0 else 1 := by
    split_ifs <;> omega
  have hyear : yearOfEra doe = 100 * c + 4 * j + k := by
    rw [yearOfEra, hcentury, hera, hquot]
    split_ifs <;> omega
  have hcycles : (100 * c + 4 * j + k) / 4 = 25 * c + j := by omega
  have hcenturies : (100 * c + 4 * j + k) / 100 = c := by omega
  rw [hyear, hcycles, hcenturies, hdoe]
  unfold IsLeap
  split_ifs with h <;> omega

structure IsMarchMonth (year mp m y : ℤ) : Prop where
  low : 0 ≤ mp
  high : mp < 12
  month : m = if mp < 10 then mp + 3 else mp - 9
  year : y = year + if m ≤ 2 then 1 else 0

theorem daysBefore_march {year mp m y : ℤ} (h : IsMarchMonth year mp m y) :
    daysBeforeYear y + daysBeforeMonth y m.toNat =
      365 * year + year / 4 - year / 100 + year / 400 + 60 + (153 * mp + 2) / 5 := by
  obtain ⟨hlow, hhigh, rfl, rfl⟩ := h
  by_cases hleap : IsLeap year <;> interval_cases mp <;>
    simp [daysBeforeMonth, Finset.sum_range_succ, daysInMonth, daysBeforeYear, hleap] <;>
    unfold IsLeap at hleap <;> omega

theorem daysInMonth_march {year mp m y : ℤ} (h : IsMarchMonth year mp m y) :
    (daysInMonth y m.toNat : ℤ) =
      if mp = 11 then 28 + if IsLeap y then 1 else 0
      else (153 * (mp + 1) + 2) / 5 - (153 * mp + 2) / 5 := by
  obtain ⟨hlow, hhigh, rfl, rfl⟩ := h
  interval_cases mp <;> simp [daysInMonth]
  split_ifs <;> rfl

theorem isLeap_era {year era : ℤ} : IsLeap (year + era * 400) ↔ IsLeap year := by
  unfold IsLeap
  omega

theorem dayOfMonth {year doy mp m y : ℤ} (h : IsMarchMonth year mp m y) (hlow : 0 ≤ doy)
    (hhigh : doy < 365 + if IsLeap (year + 1) then 1 else 0) (hmp : mp = (5 * doy + 2) / 153) :
    1 ≤ doy - (153 * mp + 2) / 5 + 1 ∧
      doy - (153 * mp + 2) / 5 + 1 ≤ (daysInMonth y m.toNat : ℤ) := by
  rw [daysInMonth_march h]
  have hnext : mp = 11 → y = year + 1 := by
    rintro rfl
    rw [h.year, h.month]
    rfl
  split_ifs with hlast hleap
  · rw [hnext hlast] at hleap
    rw [if_pos hleap] at hhigh
    omega
  · rw [hnext hlast] at hleap
    rw [if_neg hleap] at hhigh
    omega
  · split_ifs at hhigh <;> omega

theorem add_bind {α : Type} {a b : ℤ} {f : ℤ → Checked α}
    (hlow : -2 ^ 63 ≤ a + b) (hhigh : a + b < 2 ^ 63) : (add a b >>= f) = f (a + b) :=
  i64_bind hlow hhigh

theorem subtract_bind {α : Type} {a b : ℤ} {f : ℤ → Checked α}
    (hlow : -2 ^ 63 ≤ a - b) (hhigh : a - b < 2 ^ 63) : (subtract a b >>= f) = f (a - b) :=
  i64_bind hlow hhigh

theorem multiply_bind {α : Type} {a b : ℤ} {f : ℤ → Checked α}
    (hlow : -2 ^ 63 ≤ a * b) (hhigh : a * b < 2 ^ 63) : (multiply a b >>= f) = f (a * b) :=
  i64_bind hlow hhigh

theorem civilFromDays_run {days era doe yoe doy mp m : ℤ} (hlow : 0 ≤ days) (hhigh : days < 2 ^ 62)
    (hera : (days + 719468) / 146097 = era) (hdoe : (days + 719468) % 146097 = doe)
    (hyoe : yearOfEra doe = yoe) (hdoy : dayOfYear doe = doy) (hmp : (5 * doy + 2) / 153 = mp)
    (hm : (if mp < 10 then mp + 3 else mp - 9) = m) :
    civilFromDays days = .ok (yoe + era * 400 + (if m ≤ 2 then 1 else 0), m,
      doy - (153 * mp + 2) / 5 + 1) := by
  obtain ⟨hdoe₀, hdoe₁, hera₀, hera₁⟩ : 0 ≤ doe ∧ doe < 146097 ∧ 0 ≤ era ∧ era < 2 ^ 46 := by omega
  obtain ⟨hyoe₀, hyoe₁, hdoy₀, hdoy₁⟩ := yearOfEra_spec hdoe₀ hdoe₁
  have hdoy₁ : dayOfYear doe < 366 := by split_ifs at hdoy₁ <;> omega
  rw [hyoe] at hyoe₀ hyoe₁
  rw [hdoy] at hdoy₀ hdoy₁
  rw [civilFromDays, add_bind (by omega) (by omega)]
  dsimp only
  rw [hera, hdoe]
  clear hera hdoe hlow hhigh
  rw [Int.tdiv_eq_ediv_of_nonneg hdoe₀, subtract_bind (by omega) (by omega),
    Int.tdiv_eq_ediv_of_nonneg hdoe₀, add_bind (by omega) (by omega),
    Int.tdiv_eq_ediv_of_nonneg hdoe₀, subtract_bind (by omega) (by omega),
    Int.tdiv_eq_ediv_of_nonneg (by omega),
    show (doe - doe / 1460 + doe / 36524 - doe / 146096) / 365 = yoe from hyoe,
    multiply_bind (by omega) (by omega), Int.tdiv_eq_ediv_of_nonneg hyoe₀,
    add_bind (by omega) (by omega), Int.tdiv_eq_ediv_of_nonneg hyoe₀,
    subtract_bind (by omega) (by omega), subtract_bind (by omega) (by omega),
    show doe - (365 * yoe + yoe / 4 - yoe / 100) = doy from hdoy ▸ hyoe ▸ rfl]
  clear hyoe hdoy
  rw [multiply_bind (by omega) (by omega), add_bind (by omega) (by omega),
    Int.tdiv_eq_ediv_of_nonneg (by omega), hmp]
  have hmp₁ : 0 ≤ mp ∧ mp ≤ 11 := by omega
  clear hmp
  rw [multiply_bind (by omega) (by omega), add_bind (by omega) (by omega),
    Int.tdiv_eq_ediv_of_nonneg (by omega), subtract_bind (by omega) (by omega),
    add_bind (by omega) (by omega)]
  have hyears (d : ℤ) : (do
      let y ← multiply era 400
      let y ← add yoe y
      let y ← add y (if m ≤ 2 then 1 else 0)
      return (y, m, d)) = .ok (yoe + era * 400 + (if m ≤ 2 then 1 else 0), m, d) := by
    rw [multiply_bind (by omega) (by omega), add_bind (by omega) (by omega),
      add_bind (by split_ifs <;> omega) (by split_ifs <;> omega)]
    rfl
  by_cases hearly : mp < 10
  · rw [if_pos hearly, add_bind (by omega) (by omega)]
    rw [if_pos hearly] at hm
    rw [hm]
    exact hyears _
  · rw [if_neg hearly, subtract_bind (by omega) (by omega)]
    rw [if_neg hearly] at hm
    rw [hm]
    exact hyears _

theorem civilFromDays_eq {days : ℤ} (hlow : 0 ≤ days) (hhigh : days < 2 ^ 62) :
    ∃ d : Date, d.dayNumber = days ∧ civilFromDays days = .ok (d.year, d.month, d.day) := by
  obtain ⟨era, hera⟩ : ∃ era, (days + 719468) / 146097 = era := ⟨_, rfl⟩
  obtain ⟨doe, hdoe⟩ : ∃ doe, (days + 719468) % 146097 = doe := ⟨_, rfl⟩
  obtain ⟨yoe, hyoe⟩ : ∃ yoe, yearOfEra doe = yoe := ⟨_, rfl⟩
  obtain ⟨doy, hdoy⟩ : ∃ doy, dayOfYear doe = doy := ⟨_, rfl⟩
  obtain ⟨mp, hmp⟩ : ∃ mp, (5 * doy + 2) / 153 = mp := ⟨_, rfl⟩
  obtain ⟨m, hm⟩ : ∃ m, (if mp < 10 then mp + 3 else mp - 9) = m := ⟨_, rfl⟩
  obtain ⟨y, hy⟩ : ∃ y, yoe + era * 400 + (if m ≤ 2 then 1 else 0) = y := ⟨_, rfl⟩
  have hrun := civilFromDays_run hlow hhigh hera hdoe hyoe hdoy hmp hm
  obtain ⟨hyoe_low, hyoe_high, hdoy_low, hdoy_high⟩ :=
    yearOfEra_spec (show 0 ≤ doe by omega) (by omega)
  have hdoe' : doe = doy + (365 * yoe + yoe / 4 - yoe / 100) := by
    rw [← hdoy, ← hyoe, dayOfYear]
    omega
  rw [hyoe] at hyoe_low hyoe_high
  rw [hyoe, hdoy] at hdoy_high
  rw [hdoy] at hdoy_low
  rw [hy] at hrun
  clear hyoe hdoy
  have hdoy_max : doy < 366 := by split_ifs at hdoy_high <;> omega
  have hmarch : IsMarchMonth (yoe + era * 400) mp m y := ⟨by omega, by omega, hm.symm, hy.symm⟩
  have hleap : IsLeap (yoe + era * 400 + 1) ↔ IsLeap (yoe + 1) := by
    rw [add_right_comm]
    exact isLeap_era
  simp only [← hleap] at hdoy_high
  obtain ⟨hday, hday'⟩ := dayOfMonth hmarch hdoy_low hdoy_high hmp.symm
  have hmonth : 1 ≤ m ∧ m ≤ 12 := by
    rw [← hm]
    split_ifs <;> omega
  refine ⟨⟨y, m.toNat, (doy - (153 * mp + 2) / 5 + 1).toNat, by omega, by omega⟩, ?_, ?_⟩
  · have hdays := daysBefore_march hmarch
    have hcycles : (yoe + era * 400) / 4 = yoe / 4 + era * 100 := by omega
    have hcenturies : (yoe + era * 400) / 100 = yoe / 100 + era * 4 := by omega
    have heras : (yoe + era * 400) / 400 = era := by omega
    have hepoch : daysBeforeYear 1970 = 719528 := by decide
    rw [hcycles, hcenturies, heras] at hdays
    simp only [Date.dayNumber, hepoch, Int.toNat_of_nonneg (Int.le_trans Int.one_nonneg hday)]
    omega
  · rw [hrun, Int.toNat_of_nonneg (by omega), Int.toNat_of_nonneg (by omega)]

/-- Calendar rendering is correct: for every number of seconds since the epoch the text is that
of the one date whose number of days since 1970 the seconds amount to, with a month and a day
that the calendar has, and of the hour and minute of that day; and no intermediate result
overflows. -/
theorem card_date (secs : UInt64) :
    ∃ d : Date, d.dayNumber = (secs.toNat / 86400 : ℕ) ∧
      (∀ d' : Date, d'.dayNumber = (secs.toNat / 86400 : ℕ) → d' = d) ∧
      Date.next^[secs.toNat / 86400] Date.epoch = d ∧
      formatUtc secs = .ok (signedPadded 4 d.year ++ "-" ++ zeroPadded 2 d.month ++ "-" ++
        zeroPadded 2 d.day ++ " " ++ (zeroPadded 2 (secs.toNat % 86400 / 3600) ++ ":" ++
        zeroPadded 2 (secs.toNat % 3600 / 60) ++ " UTC")) := by
  have hsecs := secs.toNat_lt
  have hdays : (secs / 86400).toInt64.toInt = (secs.toNat / 86400 : ℕ) := by
    have hquot : (secs / 86400).toBitVec.toNat = secs.toNat / 86400 := UInt64.toNat_div secs 86400
    have hint := BitVec.toInt_eq_toNat_of_lt (x := (secs / 86400).toBitVec) (by omega)
    rw [hquot] at hint
    exact hint
  obtain ⟨d, hnumber, hrun⟩ := civilFromDays_eq
    (show 0 ≤ ((secs.toNat / 86400 : ℕ) : ℤ) by omega) (by omega)
  refine ⟨d, hnumber, fun d' hd' => dayNumber_injective (hd'.trans hnumber.symm), ?_, ?_⟩
  · exact dayNumber_injective ((dayNumber_iterate _).trans hnumber.symm)
  · simp only [formatUtc, hdays, hrun]
    have hmin : (secs % 86400 % 3600 / 60).toNat = secs.toNat % 3600 / 60 :=
      congrArg (· / 60) (Nat.mod_mod_of_dvd secs.toNat (by decide : 3600 ∣ 86400))
    rw [hmin]
    rfl

end CardDates
