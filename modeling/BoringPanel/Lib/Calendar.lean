import Mathlib.Algebra.Order.Ring.Int

/-!
# The calendar

Days are counted from January 1 of the year 1, which is day 0, in both directions. `Date.ofDays` is the
date of a day and `Date.toDays` the day of a date; they are inverse to each other on the dates of the
calendar (`toDays_ofDays`, `ofDays_toDays`), and the day after a date is the next one of the month or the
first of the next month (`day_ofDays_succ`).
-/

namespace Calendar

/-- 1 in leap years. -/
def leapDay (year : Int) : Int :=
  if year % 4 = 0 ∧ (year % 100 ≠ 0 ∨ year % 400 = 0) then 1 else 0

/-- The days before a year. -/
def daysBeforeYear (year : Int) : Int :=
  365 * (year - 1) + (year - 1) / 4 - (year - 1) / 100 + (year - 1) / 400

/-- The days of a year before a month, as if February had 30 days, without those it does not have. -/
def daysBeforeMonth (year month : Int) : Int :=
  (367 * month - 362) / 12 - if month ≤ 2 then 0 else 2 - leapDay year

def monthLength (year month : Int) : Int := daysBeforeMonth year (month + 1) - daysBeforeMonth year month

example : [1, 2, 3, 4, 5, 6, 7, 8, 9, 10, 11, 12].map (monthLength 2023) =
    [31, 28, 31, 30, 31, 30, 31, 31, 30, 31, 30, 31] := by decide

structure Date where
  year : Int
  month : Int
  day : Int
deriving DecidableEq, Repr

/-- A date of the calendar. -/
structure Date.Valid (d : Date) : Prop where
  month : 1 ≤ d.month ∧ d.month ≤ 12
  day : 1 ≤ d.day ∧ d.day ≤ monthLength d.year d.month

/-- The day of a date, also if it is one after the end of the month. -/
def Date.toDays (d : Date) : Int :=
  daysBeforeYear d.year + daysBeforeMonth d.year d.month + (d.day - 1)

/-- The year of a day. -/
def yearOf (n : Int) : Int :=
  let year := 400 * n / 146097 + 1
  if daysBeforeYear (year + 1) ≤ n then year + 1 else year

/-- The month of a day of a year, from 0. -/
def monthOf (year dayOfYear : Int) : Int :=
  let correction := if dayOfYear < 59 + leapDay year then 0 else 2 - leapDay year
  (12 * (dayOfYear + correction) + 373) / 367

/-- The date of a day. -/
def Date.ofDays (n : Int) : Date :=
  let dayOfYear := n - daysBeforeYear (yearOf n)
  let month := monthOf (yearOf n) dayOfYear
  ⟨yearOf n, month, dayOfYear - daysBeforeMonth (yearOf n) month + 1⟩

/-! ### Years -/

theorem leapDay_cases (year : Int) : leapDay year = 0 ∨ leapDay year = 1 := by
  unfold leapDay
  split
  · exact .inr rfl
  · exact .inl rfl

theorem daysBeforeYear_succ (year : Int) :
    daysBeforeYear (year + 1) = daysBeforeYear year + 365 + leapDay year := by
  unfold daysBeforeYear leapDay
  split <;> omega

theorem daysBeforeYear_mono {year year' : Int} (h : year ≤ year') :
    daysBeforeYear year ≤ daysBeforeYear year' := by
  rcases h.eq_or_lt with rfl | hlt
  · exact le_refl _
  · unfold daysBeforeYear
    omega

theorem yearOf_le (n : Int) : daysBeforeYear (yearOf n) ≤ n := by
  unfold yearOf
  dsimp only
  split
  · assumption
  · unfold daysBeforeYear
    omega

theorem lt_yearOf_succ (n : Int) : n < daysBeforeYear (yearOf n + 1) := by
  unfold yearOf
  dsimp only
  split
  · unfold daysBeforeYear
    omega
  · omega

/-- The year is the one that the day lies in. -/
theorem yearOf_eq {n year : Int} (hle : daysBeforeYear year ≤ n) (hlt : n < daysBeforeYear (year + 1)) :
    yearOf n = year := by
  have hfirst := yearOf_le n
  have hlast := lt_yearOf_succ n
  rcases lt_trichotomy (yearOf n) year with h | h | h
  · have hmono := daysBeforeYear_mono (Int.add_one_le_of_lt h)
    omega
  · exact h
  · have hmono := daysBeforeYear_mono (Int.add_one_le_of_lt h)
    omega

/-! ### Months -/

theorem daysBeforeMonth_one (year : Int) : daysBeforeMonth year 1 = 0 := by
  unfold daysBeforeMonth
  rw [if_pos (by omega)]
  rfl

theorem daysBeforeMonth_thirteen (year : Int) : daysBeforeMonth year 13 = 365 + leapDay year := by
  unfold daysBeforeMonth
  rw [if_neg (by omega)]
  omega

theorem monthLength_bounds (year : Int) {month : Int} (h : 1 ≤ month ∧ month ≤ 12) :
    28 ≤ monthLength year month ∧ monthLength year month ≤ 31 := by
  unfold monthLength daysBeforeMonth
  rcases leapDay_cases year with hleap | hleap <;> rw [hleap] <;> split <;> split <;> omega

theorem daysBeforeMonth_mono (year : Int) {month month' : Int} (h : month ≤ month') :
    daysBeforeMonth year month ≤ daysBeforeMonth year month' := by
  unfold daysBeforeMonth
  rcases leapDay_cases year with hleap | hleap <;> rw [hleap] <;> split <;> split <;> omega

variable {year r : Int}

theorem monthOf_bounds (h0 : 0 ≤ r) (h : r < 365 + leapDay year) :
    (1 ≤ monthOf year r ∧ monthOf year r ≤ 12) ∧ daysBeforeMonth year (monthOf year r) ≤ r ∧
      r < daysBeforeMonth year (monthOf year r + 1) := by
  unfold monthOf daysBeforeMonth
  rcases leapDay_cases year with hleap | hleap <;> rw [hleap] at h ⊢ <;> dsimp only <;> split <;>
    split <;> split <;> omega

theorem monthOf_eq {month : Int} (hle : daysBeforeMonth year month ≤ r)
    (hlt : r < daysBeforeMonth year (month + 1)) (h0 : 0 ≤ r) (h : r < 365 + leapDay year) :
    monthOf year r = month := by
  obtain ⟨-, hfirst, hlast⟩ := monthOf_bounds h0 h
  rcases lt_trichotomy (monthOf year r) month with hm | hm | hm
  · have hmono := daysBeforeMonth_mono year (Int.add_one_le_of_lt hm)
    omega
  · exact hm
  · have hmono := daysBeforeMonth_mono year (Int.add_one_le_of_lt hm)
    omega

/-! ### Dates -/

/-- The day of the year. -/
theorem dayOfYear_bounds (n : Int) :
    0 ≤ n - daysBeforeYear (yearOf n) ∧ n - daysBeforeYear (yearOf n) < 365 + leapDay (yearOf n) := by
  have hfirst := yearOf_le n
  have hlast := lt_yearOf_succ n
  rw [daysBeforeYear_succ] at hlast
  omega

/-- **The date of a day is that of the day.** -/
theorem toDays_ofDays (n : Int) : (Date.ofDays n).toDays = n := by
  unfold Date.ofDays Date.toDays
  dsimp only
  omega

theorem ofDays_valid (n : Int) : (Date.ofDays n).Valid := by
  obtain ⟨h0, h⟩ := dayOfYear_bounds n
  obtain ⟨hmonth, hfirst, hlast⟩ := monthOf_bounds h0 h
  refine ⟨hmonth, ?_⟩
  unfold Date.ofDays monthLength
  dsimp only
  omega

/-- **A date of the calendar is that of its day.** -/
theorem ofDays_toDays {d : Date} (h : d.Valid) : Date.ofDays d.toDays = d := by
  obtain ⟨year, month, day⟩ := d
  obtain ⟨hmonth, hday⟩ := h
  dsimp only at hmonth hday
  have hfirst := daysBeforeMonth_mono year hmonth.1
  have hlast := daysBeforeMonth_mono year (show month + 1 ≤ 13 by omega)
  have hsucc := daysBeforeYear_succ year
  rw [daysBeforeMonth_one] at hfirst
  rw [daysBeforeMonth_thirteen] at hlast
  unfold monthLength at hday
  -- the day of the year lies in the month
  have hyear : yearOf (Date.toDays ⟨year, month, day⟩) = year := by
    unfold Date.toDays
    exact yearOf_eq (by dsimp only; omega) (by dsimp only; omega)
  have hrest : Date.toDays ⟨year, month, day⟩ - daysBeforeYear year =
      daysBeforeMonth year month + (day - 1) := by
    unfold Date.toDays
    dsimp only
    omega
  have hmonthOf : monthOf year (daysBeforeMonth year month + (day - 1)) = month :=
    monthOf_eq (by omega) (by omega) (by omega) (by omega)
  unfold Date.ofDays
  rw [hyear, hrest]
  dsimp only
  rw [hmonthOf]
  congr 1
  omega

/-- **The day after** is the next of the month, or the first of the next one. -/
theorem day_ofDays_succ (n : Int) : (Date.ofDays (n + 1)).day =
    if (Date.ofDays n).day < monthLength (Date.ofDays n).year (Date.ofDays n).month
    then (Date.ofDays n).day + 1 else 1 := by
  have hvalid := ofDays_valid n
  have hdays := toDays_ofDays n
  generalize Date.ofDays n = d at hvalid hdays ⊢
  obtain ⟨year, month, day⟩ := d
  obtain ⟨hmonth, hday⟩ := hvalid
  unfold Date.toDays at hdays
  dsimp only at hmonth hday hdays ⊢
  split
  · next hlt =>
    have hnext := ofDays_toDays (d := ⟨year, month, day + 1⟩) ⟨hmonth, by dsimp only; omega⟩
    have heq : Date.toDays ⟨year, month, day + 1⟩ = n + 1 := by
      unfold Date.toDays
      dsimp only
      omega
    rw [heq] at hnext
    rw [hnext]
  · next hge =>
    unfold monthLength at hday hge
    by_cases hlast : month = 12
    · have hlength := monthLength_bounds (year + 1) (show (1 : Int) ≤ 1 ∧ (1 : Int) ≤ 12 by omega)
      have hnext := ofDays_toDays (d := ⟨year + 1, 1, 1⟩) ⟨by dsimp only; omega, by dsimp only; omega⟩
      have heq : Date.toDays ⟨year + 1, 1, 1⟩ = n + 1 := by
        have hthirteen := daysBeforeMonth_thirteen year
        unfold Date.toDays
        dsimp only
        rw [daysBeforeYear_succ, daysBeforeMonth_one]
        rw [hlast, show (12 : Int) + 1 = 13 by rfl, hthirteen] at hge hday
        rw [hlast] at hdays
        omega
      rw [heq] at hnext
      rw [hnext]
    · have hlength := monthLength_bounds year (show 1 ≤ month + 1 ∧ month + 1 ≤ 12 by omega)
      have hnext := ofDays_toDays (d := ⟨year, month + 1, 1⟩) ⟨by dsimp only; omega, by dsimp only; omega⟩
      have heq : Date.toDays ⟨year, month + 1, 1⟩ = n + 1 := by
        unfold Date.toDays
        dsimp only
        omega
      rw [heq] at hnext
      rw [hnext]

/-- No two days in a row are the same of their months. -/
theorem day_ofDays_succ_ne (n : Int) : (Date.ofDays (n + 1)).day ≠ (Date.ofDays n).day := by
  have hvalid := ofDays_valid n
  have hlength := monthLength_bounds (Date.ofDays n).year hvalid.month
  rw [day_ofDays_succ]
  split <;> omega

end Calendar
