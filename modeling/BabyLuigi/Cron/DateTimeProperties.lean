import BabyLuigi.Cron.DateTime
import Mathlib.Data.Int.ModEq
import Mathlib.Tactic.IntervalCases
import Mathlib.Tactic.Linarith

/-! The conversions between day numbers and dates are inverse, and dates follow
one another as their day numbers do. -/

set_option autoImplicit false

namespace BabyLuigi.Cron

def lengthOfMonth (year month : Int) : Int :=
  if month = 2 then (if DateTime.isLeap year then 29 else 28) else DateTime.lastDays month

structure ValidDate (year month day : Int) : Prop where
  firstMonth : 1 ≤ month
  lastMonth : month ≤ 12
  firstDay : 1 ≤ day
  lastDay : day ≤ lengthOfMonth year month

theorem isLeap_iff {year : Int} (nonneg : 0 ≤ year) :
    DateTime.isLeap year = true ↔ year % 4 = 0 ∧ (year % 100 ≠ 0 ∨ year % 400 = 0) := by
  simp [DateTime.isLeap, Int.tmod_eq_emod_of_nonneg nonneg]

/-! ### The 400-year cycle -/

/-- A day of the cycle by its century, four-year cycle, year and day of the
year. Years start in March, so a leap day is the last day of its year. -/
structure CyclePosition where
  century : Int
  leapCycle : Int
  year : Int
  doy : Int
  centuries : 0 ≤ century ∧ century ≤ 3
  leapCycles : 0 ≤ leapCycle ∧ leapCycle ≤ 24
  years : 0 ≤ year ∧ year ≤ 3
  days : 0 ≤ doy ∧ doy ≤ 365
  leapDay : doy = 365 → year = 3 ∧ (leapCycle < 24 ∨ century = 3)

namespace CyclePosition

def yoe (position : CyclePosition) : Int :=
  100 * position.century + 4 * position.leapCycle + position.year

def doe (position : CyclePosition) : Int :=
  36524 * position.century + 1461 * position.leapCycle + 365 * position.year + position.doy

theorem doe_bounds (position : CyclePosition) : 0 ≤ position.doe ∧ position.doe < 146097 := by
  obtain ⟨century, leapCycle, year, doy, centuries, leapCycles, years, days, leapDay⟩ := position
  simp only [doe]
  omega

theorem yoe_bounds (position : CyclePosition) : 0 ≤ position.yoe ∧ position.yoe < 400 := by
  obtain ⟨century, leapCycle, year, doy, centuries, leapCycles, years, days, leapDay⟩ := position
  simp only [yoe]
  omega

theorem exists_doe {day : Int} (first : 0 ≤ day) (last : day < 146097) :
    ∃ position : CyclePosition, position.doe = day := by
  let century := min (day / 36524) 3
  let leapCycle := (day - 36524 * century) / 1461
  let year := min ((day - 36524 * century - 1461 * leapCycle) / 365) 3
  refine ⟨⟨century, leapCycle, year, day - 36524 * century - 1461 * leapCycle - 365 * year,
    ?_, ?_, ?_, ?_, ?_⟩, ?_⟩
  any_goals omega
  simp only [doe]
  omega

/-- The correction terms of the year formula cancel the leap days. -/
theorem yearOfEra (position : CyclePosition) :
    (position.doe - position.doe / 1460 + position.doe / 36524 - position.doe / 146096) / 365 =
      position.yoe := by
  obtain ⟨century, leapCycle, year, doy, centuries, leapCycles, years, days, leapDay⟩ := position
  simp only [doe, yoe]
  generalize split : 36524 * century + 1461 * leapCycle + 365 * year + doy = day
  by_cases lastOfCycle : day = 146096
  · omega
  · have wholeCenturies : day / 36524 = century := by omega
    have wholeCycles : day / 146096 = 0 := by omega
    have shortCycles : day / 1460 = 25 * century + leapCycle +
        (if 24 * century + leapCycle + 365 * year + doy ≥ 1460 then 1 else 0) := by
      split <;> omega
    rw [wholeCenturies, wholeCycles, shortCycles]
    split <;> omega

theorem dayOfYear (position : CyclePosition) :
    position.doe - (365 * position.yoe + position.yoe / 4 - position.yoe / 100) = position.doy := by
  obtain ⟨century, leapCycle, year, doy, centuries, leapCycles, years, days, leapDay⟩ := position
  simp only [doe, yoe]
  omega

theorem leap_of_leapDay {position : CyclePosition} (last : position.doy = 365) (era : Int) :
    (position.yoe + era * 400 + 1) % 4 = 0 ∧ ((position.yoe + era * 400 + 1) % 100 ≠ 0 ∨
      (position.yoe + era * 400 + 1) % 400 = 0) := by
  have leapDay := position.leapDay last
  have centuries := position.centuries
  have leapCycles := position.leapCycles
  simp only [yoe]
  omega

end CyclePosition

/-! ### Day numbers -/

/-- Days before March of a year, counted from March of year 0. -/
def daysBefore (year : Int) : Int := 365 * year + year / 4 - year / 100 + year / 400

/-- The year that starts in March and holds the month. -/
def marchYear (year month : Int) : Int := year - (if month ≤ 2 then 1 else 0)

def daysBeforeMonth (month : Int) : Int :=
  (153 * (if month > 2 then month - 3 else month + 9) + 2) / 5

theorem toDays_eq {year month : Int} (nonneg : 0 ≤ marchYear year month) (day : Int) :
    toDays year month day =
      daysBefore (marchYear year month) + daysBeforeMonth month + day - 1 - 719468 := by
  simp only [toDays, daysBefore, daysBeforeMonth]
  simp only [marchYear] at nonneg ⊢
  rw [if_pos nonneg, Int.tdiv_eq_ediv_of_nonneg nonneg]
  omega

theorem yearMonthDay_of_position {era : Int} (nonneg : 0 ≤ era) (position : CyclePosition) :
    yearMonthDayFromDays (era * 146097 + position.doe - 719468) =
      let mp := (5 * position.doy + 2) / 153
      let m := if mp < 10 then mp + 3 else mp - 9
      (position.yoe + era * 400 + (if m ≤ 2 then 1 else 0), m,
        position.doy - (153 * mp + 2) / 5 + 1) := by
  have inCycle := position.doe_bounds
  have z : era * 146097 + position.doe - 719468 + 719468 = era * 146097 + position.doe := by omega
  have positive : era * 146097 + position.doe ≥ 0 := by omega
  have quotient : (era * 146097 + position.doe).tdiv 146097 = era := by
    rw [Int.tdiv_eq_ediv_of_nonneg positive]
    omega
  have remainder : era * 146097 + position.doe - era * 146097 = position.doe := by omega
  simp only [yearMonthDayFromDays, z, positive, if_true, quotient, remainder, position.yearOfEra,
    position.dayOfYear]

theorem daysBefore_cycle (era : Int) (position : CyclePosition) :
    daysBefore (position.yoe + era * 400) = era * 146097 + (position.doe - position.doy) := by
  have dayOfYear := position.dayOfYear
  have yearBounds := position.yoe_bounds
  simp only [daysBefore]
  omega

/-- Every day has a valid date, from which its number comes back. -/
theorem yearMonthDayFromDays_spec {days : Int} (nonneg : 0 ≤ days) :
    let date := yearMonthDayFromDays days
    ValidDate date.1 date.2.1 date.2.2 ∧ 1 ≤ date.1 ∧ toDays date.1 date.2.1 date.2.2 = days := by
  obtain ⟨position, same⟩ : ∃ position : CyclePosition, position.doe = (days + 719468) % 146097 :=
    CyclePosition.exists_doe (by omega) (by omega)
  obtain ⟨era, eraNonneg, rfl⟩ : ∃ era : Int, 4 ≤ era ∧ days = era * 146097 + position.doe - 719468 :=
    ⟨(days + 719468) / 146097, by omega, by omega⟩
  rw [yearMonthDay_of_position (by omega)]
  have yearBounds := position.yoe_bounds
  have dayBounds := position.days
  dsimp only
  generalize month : (5 * position.doy + 2) / 153 = mp
  have monthBounds : 0 ≤ mp ∧ mp ≤ 11 := by omega
  by_cases winter : mp < 10
  · have later : ¬ mp + 3 ≤ 2 := by omega
    simp only [winter, if_true, later, if_false, add_zero]
    refine ⟨⟨by omega, by omega, by omega, ?_⟩, by omega, ?_⟩
    · have notFebruary : mp + 3 ≠ 2 := by omega
      simp only [lengthOfMonth, notFebruary, if_false, DateTime.lastDays]
      split <;> omega
    · have march : marchYear (position.yoe + era * 400) (mp + 3) = position.yoe + era * 400 := by
        simp [marchYear, later]
      have after : mp + 3 > 2 := by omega
      rw [toDays_eq (by omega), march, daysBefore_cycle]
      simp only [daysBeforeMonth, after, if_true]
      omega
  · have early : mp - 9 ≤ 2 := by omega
    simp only [winter, early, if_true, if_false]
    refine ⟨⟨by omega, by omega, by omega, ?_⟩, by omega, ?_⟩
    · obtain rfl | rfl : mp = 10 ∨ mp = 11 := by omega
      · simp only [lengthOfMonth, DateTime.lastDays]
        norm_num
        omega
      · have leap : position.doy = 365 →
            DateTime.isLeap (position.yoe + era * 400 + 1) = true := fun last =>
          (isLeap_iff (by omega)).mpr (CyclePosition.leap_of_leapDay last era)
        simp only [lengthOfMonth]
        norm_num
        split
        · omega
        · have notLast : position.doy ≠ 365 := fun last => ‹¬ _› (leap last)
          omega
    · have march : marchYear (position.yoe + era * 400 + 1) (mp - 9) =
          position.yoe + era * 400 := by
        simp [marchYear, early]
      have before : ¬ mp - 9 > 2 := by omega
      rw [toDays_eq (by omega), march, daysBefore_cycle]
      simp only [daysBeforeMonth, before, if_false]
      omega

theorem ValidDate.dayInMonth {year month day : Int} (valid : ValidDate year month day) :
    (5 * (daysBeforeMonth month + day - 1) + 2) / 153 =
      (if month > 2 then month - 3 else month + 9) ∧
    0 ≤ daysBeforeMonth month + day - 1 ∧ daysBeforeMonth month + day - 1 ≤ 365 ∧
    (daysBeforeMonth month + day - 1 = 365 → month = 2 ∧ DateTime.isLeap year = true) := by
  obtain ⟨firstMonth, lastMonth, firstDay, lastDay⟩ := valid
  by_cases february : month = 2
  · subst february
    simp only [lengthOfMonth, if_true] at lastDay
    norm_num [daysBeforeMonth]
    split at lastDay
    · exact ⟨by omega, by omega, by omega, fun _ => ‹_›⟩
    · exact ⟨by omega, by omega, by omega, fun _ => by omega⟩
  · simp only [lengthOfMonth, february, if_false, DateTime.lastDays] at lastDay
    have short : month = 4 ∨ month = 6 ∨ month = 9 ∨ month = 11 → day ≤ 30 := fun short => by
      simpa [short] using lastDay
    have long : day ≤ 31 := by
      split at lastDay <;> omega
    clear lastDay
    simp only [daysBeforeMonth]
    interval_cases month <;> norm_num at * <;> omega

theorem yearMonthDayFromDays_toDays {year month day : Int} (valid : ValidDate year month day)
    (positive : 1 ≤ year) :
    yearMonthDayFromDays (toDays year month day) = (year, month, day) := by
  obtain ⟨inMonth, firstDay, lastDay, leapDay⟩ := valid.dayInMonth
  have march : 0 ≤ marchYear year month := by
    simp only [marchYear]
    omega
  have leap : daysBeforeMonth month + day - 1 = 365 →
      (marchYear year month + 1) % 4 = 0 ∧ ((marchYear year month + 1) % 100 ≠ 0 ∨
        (marchYear year month + 1) % 400 = 0) := by
    intro last
    obtain ⟨rfl, leapYear⟩ := leapDay last
    simpa [marchYear] using (isLeap_iff (by omega)).mp leapYear
  let position : CyclePosition := {
    century := marchYear year month % 400 / 100
    leapCycle := marchYear year month % 100 / 4
    year := marchYear year month % 4
    doy := daysBeforeMonth month + day - 1
    centuries := by omega
    leapCycles := by omega
    years := by omega
    days := ⟨firstDay, lastDay⟩
    leapDay := by omega }
  have yoe : position.yoe = marchYear year month % 400 := by
    simp only [CyclePosition.yoe, position]
    omega
  have number : toDays year month day =
      marchYear year month / 400 * 146097 + position.doe - 719468 := by
    have cycle := daysBefore_cycle (marchYear year month / 400) position
    rw [yoe, show marchYear year month % 400 + marchYear year month / 400 * 400 =
      marchYear year month by omega] at cycle
    rw [toDays_eq march, cycle]
    simp only [position]
    omega
  rw [number, yearMonthDay_of_position (by omega), yoe]
  simp only [position, inMonth]
  have bounds := valid.lastMonth
  have lower := valid.firstMonth
  by_cases winter : month ≤ 2
  · have notAfter : ¬ month > 2 := by omega
    have wraps : ¬ month + 9 < 10 := by omega
    have back : month + 9 - 9 = month := by omega
    simp only [notAfter, if_false, wraps, back, winter, if_true, Prod.mk.injEq, true_and]
    simp only [marchYear, daysBeforeMonth, winter, if_true, notAfter, if_false]
    exact ⟨by omega, by omega⟩
  · have after : month > 2 := by omega
    have direct : month - 3 < 10 := by omega
    have back : month - 3 + 3 = month := by omega
    simp only [after, if_true, direct, back, winter, if_false, Prod.mk.injEq, true_and]
    simp only [marchYear, daysBeforeMonth, winter, if_false, after, if_true]
    exact ⟨by omega, by omega⟩

theorem toDays_nextMonth {year month : Int} (positive : 1 ≤ year) (first : 1 ≤ month)
    (last : month < 12) :
    toDays year month 1 + lengthOfMonth year month = toDays year (month + 1) 1 := by
  have march : 0 ≤ marchYear year month ∧ 0 ≤ marchYear year (month + 1) := by
    simp only [marchYear]
    omega
  rw [toDays_eq march.1, toDays_eq march.2]
  by_cases february : month = 2
  · subst february
    have nonneg : 0 ≤ year := by omega
    have leap := isLeap_iff nonneg
    simp only [lengthOfMonth, daysBeforeMonth, marchYear, daysBefore]
    norm_num
    split
    · have divisible := leap.mp ‹_›
      omega
    · have indivisible := mt leap.mpr ‹_›
      omega
  · have same : marchYear year month = marchYear year (month + 1) := by
      simp only [marchYear]
      omega
    rw [same]
    generalize daysBefore (marchYear year (month + 1)) = before
    simp only [lengthOfMonth, february, if_false, DateTime.lastDays, daysBeforeMonth]
    clear same march
    interval_cases month <;> norm_num at * <;> omega

theorem toDays_nextYear {year : Int} (positive : 1 ≤ year) :
    toDays year 12 31 + 1 = toDays (year + 1) 1 1 := by
  have march : 0 ≤ marchYear year 12 ∧ 0 ≤ marchYear (year + 1) 1 := by
    simp only [marchYear]
    omega
  rw [toDays_eq march.1, toDays_eq march.2]
  simp only [marchYear, daysBeforeMonth]
  norm_num
  omega

theorem toDays_laterMonth {year month later : Int} (positive : 1 ≤ year) (first : 1 ≤ month)
    (after : month < later) (last : later ≤ 12) :
    toDays year month 1 + lengthOfMonth year month ≤ toDays year later 1 := by
  induction later, after using Int.leInduction with
  | base => exact (toDays_nextMonth positive first (by omega)).le
  | succ between after ih =>
      have betweenFirst : 1 ≤ between := by omega
      have next := toDays_nextMonth positive betweenFirst (by omega)
      have length : 0 ≤ lengthOfMonth year between := by
        simp only [lengthOfMonth, DateTime.lastDays]
        split_ifs <;> decide
      linarith [ih (by omega)]

theorem toDays_day (year month day : Int) :
    toDays year month day = toDays year month 1 + (day - 1) := by
  simp only [toDays]
  omega

theorem toDays_laterYear {year month day : Int} (positive : 1 ≤ year)
    (valid : ValidDate year month day) : toDays year month day < toDays (year + 1) 1 1 := by
  have next := toDays_nextYear positive
  rw [toDays_day year 12 31] at next
  rw [toDays_day year month day]
  obtain ⟨first, last, _, lastDay⟩ := valid
  rcases last.eq_or_lt with december | earlier
  · subst month
    have length : lengthOfMonth year 12 = 31 := rfl
    omega
  · have before := toDays_laterMonth positive first earlier le_rfl
    omega

/-! ### Dates -/

/-- The counts of ticks that 64 bits hold. -/
def Fits (ticks : Int) : Prop := -2 ^ 63 ≤ ticks ∧ ticks < 2 ^ 63

theorem wrap_of_fits {ticks : Int} (fits : Fits ticks) : wrap ticks = ticks := by
  obtain ⟨low, high⟩ := fits
  exact Int.bmod_eq_of_le_mul_two (by omega) (by omega)

theorem wrap_fits (ticks : Int) : Fits (wrap ticks) :=
  ⟨Int.le_bmod (by decide), Int.bmod_lt (by decide)⟩

namespace DateTime

theorem timePoint_ofTimePoint {timePoint : Int} (whole : secondTicks ∣ timePoint) :
    (ofTimePoint timePoint).timePoint = timePoint := Int.tdiv_mul_cancel whole

/-- Since the epoch, dropping what lies below a second rounds down. -/
theorem timePoint_ofTimePoint_of_nonneg {timePoint : Int} (nonneg : 0 ≤ timePoint) :
    (ofTimePoint timePoint).timePoint = timePoint / secondTicks * secondTicks :=
  congrArg (· * secondTicks) (Int.tdiv_eq_ediv_of_nonneg nonneg)

theorem timePoint_plus {time : DateTime} {duration : Int} (whole : secondTicks ∣ duration)
    (fits : Fits (time.timePoint + duration)) :
    (time.plus duration).timePoint = time.timePoint + duration := by
  rw [plus, wrap_of_fits fits]
  exact timePoint_ofTimePoint (Int.dvd_add time.wholeSeconds whole)

theorem timePoint_minus {time : DateTime} {duration : Int} (whole : secondTicks ∣ duration)
    (fits : Fits (time.timePoint - duration)) :
    (time.minus duration).timePoint = time.timePoint - duration := by
  rw [minus, wrap_of_fits fits]
  exact timePoint_ofTimePoint (Int.dvd_sub time.wholeSeconds whole)

theorem second_dvd_minute : secondTicks ∣ minuteTicks := ⟨60, rfl⟩

theorem second_dvd_hour : secondTicks ∣ hourTicks := ⟨3600, rfl⟩

theorem second_dvd_day : secondTicks ∣ dayTicks := ⟨86400, rfl⟩

theorem second_dvd_minutes (minutes : Int) : secondTicks ∣ minutes * minuteTicks :=
  second_dvd_minute.mul_left minutes

theorem second_dvd_hours (hours : Int) : secondTicks ∣ hours * hourTicks :=
  second_dvd_hour.mul_left hours

theorem second_dvd_days (days : Int) : secondTicks ∣ days * dayTicks :=
  second_dvd_day.mul_left days

theorem exists_rest {time : DateTime} (nonneg : 0 ≤ time.timePoint) :
    ∃ rest, time.timePoint = time.daysSinceEpoch * dayTicks + time.hour * hourTicks +
        time.minute * minuteTicks + rest ∧
      0 ≤ time.daysSinceEpoch ∧ 0 ≤ time.hour ∧ time.hour < 24 ∧ 0 ≤ time.minute ∧
      time.minute < 60 ∧ 0 ≤ rest ∧ rest < minuteTicks := by
  have days : time.daysSinceEpoch = time.timePoint / dayTicks := Int.tdiv_eq_ediv_of_nonneg nonneg
  have dayBounds : 0 ≤ time.timeOfDay ∧ time.timeOfDay < dayTicks := by
    simp only [timeOfDay, days, dayTicks, hourTicks, minuteTicks, secondTicks]
    omega
  have hours : time.hour = time.timeOfDay / hourTicks := Int.tdiv_eq_ediv_of_nonneg dayBounds.1
  have hourBounds : 0 ≤ time.timeOfDay - time.hour * hourTicks ∧
      time.timeOfDay - time.hour * hourTicks < hourTicks := by
    simp only [hours, hourTicks, minuteTicks, secondTicks]
    omega
  have minutes : time.minute = (time.timeOfDay - time.hour * hourTicks) / minuteTicks :=
    Int.tdiv_eq_ediv_of_nonneg hourBounds.1
  refine ⟨time.timeOfDay - time.hour * hourTicks - time.minute * minuteTicks, ?_, ?_, ?_, ?_, ?_,
    ?_, ?_, ?_⟩
  · simp only [timeOfDay]
    omega
  all_goals
    simp only [days, hours, minutes, dayTicks, hourTicks, minuteTicks, secondTicks] at *
    omega

theorem validDate {time : DateTime} (nonneg : 0 ≤ time.timePoint) :
    ValidDate time.year time.month time.day ∧ 1 ≤ time.year ∧
      toDays time.year time.month time.day = time.daysSinceEpoch := by
  obtain ⟨_, _, days, _⟩ := exists_rest nonneg
  exact yearMonthDayFromDays_spec days

theorem ofDate_eq_ok {year month day : Int} {time : DateTime}
    (built : ofDate year month day = .ok time) :
    1970 ≤ year ∧ 1 ≤ month ∧ month ≤ 12 ∧ 1 ≤ day ∧ day ≤ 31 ∧
      time = ofTimePoint (wrap (toDays year month day * dayTicks)) := by
  unfold ofDate at built
  split at built
  · cases built
  · split at built
    · cases built
    · split at built
      · cases built
      · cases built
        exact ⟨by omega, by omega, by omega, by omega, by omega, rfl⟩

end DateTime

end BabyLuigi.Cron
