import BabyLuigi.Cron.CalendarProperties
import Mathlib.Logic.Function.Iterate

/-! The conversions of a date against counting: the date of a day is reached
from 1970-01-01 by going to the next day as often as its number says. -/

set_option autoImplicit false

namespace BabyLuigi.Cron

/-! ### The calendar, day by day -/

/-- The length of a month by the rule for leap years. -/
def daysInMonth (year month : Int) : Int :=
  if month = 2 then
    if year % 4 = 0 ∧ (year % 100 ≠ 0 ∨ year % 400 = 0) then 29 else 28
  else if month = 4 ∨ month = 6 ∨ month = 9 ∨ month = 11 then 30
  else 31

/-- The day after, as year, month and day. -/
def nextDate : Int × Int × Int → Int × Int × Int
  | (year, month, day) =>
    if day < daysInMonth year month then (year, month, day + 1)
    else if month < 12 then (year, month + 1, 1)
    else (year + 1, 1, 1)

/-- The date after a number of days from 1970-01-01 on. -/
def countedDate (days : Nat) : Int × Int × Int := nextDate^[days] (1970, 1, 1)

/-- The day of the week after a number of days, Sunday being 0; 1970-01-01 was
a Thursday. -/
def countedWeekday (days : Nat) : Nat := (fun weekday => (weekday + 1) % 7)^[days] 4

theorem daysInMonth_eq {year : Int} (nonneg : 0 ≤ year) (month : Int) :
    daysInMonth year month = lengthOfMonth year month := by
  simp only [daysInMonth, lengthOfMonth, ← isLeap_iff nonneg]
  rfl

/-- The next day is a day of the calendar, with the next number. -/
theorem ValidDate.nextDate {year month day : Int} (valid : ValidDate year month day)
    (since : 1970 ≤ year) :
    let next := Cron.nextDate (year, month, day)
    ValidDate next.1 next.2.1 next.2.2 ∧ 1970 ≤ next.1 ∧
      toDays next.1 next.2.1 next.2.2 = toDays year month day + 1 := by
  obtain ⟨firstMonth, lastMonth, firstDay, lastDay⟩ := valid
  have length := daysInMonth_eq (by omega : 0 ≤ year) month
  rw [Cron.nextDate, length]
  by_cases inside : day < lengthOfMonth year month
  · rw [if_pos inside]
    have later := toDays_day year month (day + 1)
    have today := toDays_day year month day
    dsimp only
    exact ⟨⟨firstMonth, lastMonth, by omega, inside⟩, since, by omega⟩
  · obtain rfl : day = lengthOfMonth year month := by omega
    have today := toDays_day year month (lengthOfMonth year month)
    rw [if_neg inside]
    by_cases earlier : month < 12
    · rw [if_pos earlier]
      have nextMonth := toDays_nextMonth (by omega : 1 ≤ year) firstMonth earlier
      dsimp only
      exact ⟨.first (by omega) (by omega), since, by omega⟩
    · obtain rfl : month = 12 := by omega
      rw [if_neg earlier]
      have nextYear := toDays_nextYear (by omega : 1 ≤ year)
      dsimp only
      exact ⟨.first le_rfl (by decide), by omega, nextYear.symm⟩

theorem countedDate_spec (days : Nat) :
    let date := countedDate days
    ValidDate date.1 date.2.1 date.2.2 ∧ 1970 ≤ date.1 ∧
      toDays date.1 date.2.1 date.2.2 = days := by
  induction days with
  | zero => exact ⟨⟨by decide, by decide, by decide, by decide⟩, by decide, by decide⟩
  | succ days ih =>
      obtain ⟨valid, since, counted⟩ := ih
      obtain ⟨nextValid, nextSince, next⟩ := valid.nextDate since
      rw [countedDate, Function.iterate_succ_apply']
      exact ⟨nextValid, nextSince, next.trans (by rw [counted]; rfl)⟩

theorem yearMonthDayFromDays_counted (days : Nat) :
    yearMonthDayFromDays days = countedDate days := by
  obtain ⟨valid, since, counted⟩ := countedDate_spec days
  rw [← counted]
  exact yearMonthDayFromDays_toDays valid (by omega)

theorem countedWeekday_eq (days : Nat) : countedWeekday days = (days + 4) % 7 := by
  induction days with
  | zero => rfl
  | succ days ih =>
      rw [countedWeekday, Function.iterate_succ_apply', ← countedWeekday, ih]
      omega

/-- Every date of the calendar since 1970 is counted, on the day of its number. -/
theorem exists_countedDate {year month day : Int} (valid : ValidDate year month day)
    (since : 1970 ≤ year) : ∃ days : Nat, countedDate days = (year, month, day) := by
  have newYear := newYear_mono (by decide : (1 : Int) ≤ 1970) since
  have inYear := newYear_le_month (by omega : 1 ≤ year) valid.firstMonth valid.lastMonth
  have inMonth := toDays_day year month day
  have epoch : toDays 1970 1 1 = 0 := by decide
  have nonneg : 0 ≤ toDays year month day := by
    have first := valid.firstDay
    omega
  obtain ⟨days, isDays⟩ := Int.eq_ofNat_of_zero_le nonneg
  refine ⟨days, ?_⟩
  rw [← yearMonthDayFromDays_counted, ← isDays]
  exact yearMonthDayFromDays_toDays valid (by omega)

/-! ### Dates -/

open DateTime

variable {time : DateTime}

/-- The parts of a time of day, by division. -/
theorem timeOfDay_parts (nonneg : 0 ≤ time.timePoint) :
    time.daysSinceEpoch = time.timePoint / dayTicks ∧
      time.hour = time.timePoint / hourTicks % 24 ∧
      time.minute = time.timePoint / minuteTicks % 60 := by
  obtain ⟨rest, split, days, hour, hourBound, minute, minuteBound, first, last⟩ :=
    exists_rest nonneg
  simp only [dayTicks, hourTicks, minuteTicks, secondTicks] at *
  exact ⟨by omega, by omega, by omega⟩

/-- A system time is broken down as counting days, hours and minutes would do,
and the dates up to the last whole year whose ticks fit into 64 bits lead back
to their days. -/
theorem date_time_counts :
    (∀ ticks : Nat, let time := ofTimePoint ticks
      (time.year, time.month, time.day) = countedDate (ticks / 86400000000000) ∧
      time.dayOfWeek = countedWeekday (ticks / 86400000000000) ∧
      time.lastDayOfMonth = daysInMonth time.year time.month ∧
      time.hour = (ticks / 3600000000000 % 24 : Nat) ∧
      time.minute = (ticks / 60000000000 % 60 : Nat)) ∧
    ∀ year month day, 1970 ≤ year → year ≤ 2261 → 1 ≤ month → month ≤ 12 → 1 ≤ day →
      day ≤ daysInMonth year month →
      ∃ days : Nat, countedDate days = (year, month, day) ∧
        ofDate year month day = .ok (ofTimePoint (days * dayTicks)) := by
  constructor
  · intro ticks
    have seconds := timePoint_ofTimePoint_of_nonneg (Int.natCast_nonneg ticks)
    have nonneg : (0 : Int) ≤ (ofTimePoint ticks).timePoint := by
      rw [seconds]
      exact Int.mul_nonneg (Int.ediv_nonneg (Int.natCast_nonneg ticks) (by decide)) (by decide)
    obtain ⟨days, hour, minute⟩ := timeOfDay_parts nonneg
    simp only [seconds, dayTicks, hourTicks, minuteTicks, secondTicks] at days hour minute
    have number : (ofTimePoint ticks).daysSinceEpoch = (ticks / 86400000000000 : Nat) := by omega
    refine ⟨?_, ?_, ?_, by omega, by omega⟩
    · rw [← yearMonthDayFromDays_counted, ← number]
      rfl
    · rw [dayOfWeek_eq, number, countedWeekday_eq]
      rfl
    · have year : 0 ≤ (ofTimePoint ticks).year :=
        (by decide : (0 : Int) ≤ 1970).trans (year_ge nonneg)
      rw [daysInMonth_eq year]
      rfl
  · intro year month day since upTo firstMonth lastMonth firstDay lastDay
    rw [daysInMonth_eq (by omega)] at lastDay
    have valid : ValidDate year month day := ⟨firstMonth, lastMonth, firstDay, lastDay⟩
    obtain ⟨days, counted⟩ := exists_countedDate valid since
    refine ⟨days, counted, ?_⟩
    have number := (countedDate_spec days).2.2
    rw [counted] at number
    have short := (lengthOfMonth_bounds year month).2
    have fits := toDays_le_lastFit (by omega) upTo firstMonth lastMonth (show day ≤ 31 by omega)
    rw [number] at fits
    rw [ofDate_ok since (by omega) firstMonth lastMonth firstDay (by omega), number,
      wrap_of_fits (midnight_fits (Int.natCast_nonneg days) fits)]

/-- The leap day of 2024. -/
theorem date_time_counts_leapDay :
    ∃ days : Nat, countedDate days = (2024, 2, 29) ∧
      ofDate 2024 2 29 = .ok (ofTimePoint (days * dayTicks)) :=
  date_time_counts.2 2024 2 29 (by decide) (by decide) (by decide) (by decide) (by decide)
    (by decide)

end BabyLuigi.Cron
