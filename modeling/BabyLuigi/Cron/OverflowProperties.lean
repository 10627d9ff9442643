import BabyLuigi.Cron.FittingProperties

/-! A search that has passed a time never comes back to it: its times grow until
the ticks wrap around, and centuries before 1970 no date can be built. -/

set_option autoImplicit false

namespace BabyLuigi.Cron

open DateTime

variable {field : CronFieldPos} {value : Str} {time next : DateTime}

/-- A time of the first days that 64-bit ticks hold, from 21 September 1677 on. -/
structure Lost (days : Int) (time : DateTime) : Prop where
  low : -2 ^ 63 ≤ time.timePoint
  high : time.timePoint < -2 ^ 63 + days * dayTicks

theorem exists_rest_of_negative (negative : time.timePoint ≤ 0) :
    ∃ rest, time.timePoint = time.daysSinceEpoch * dayTicks + time.hour * hourTicks +
        time.minute * minuteTicks + rest ∧
      -24 < time.hour ∧ time.hour ≤ 0 ∧ -60 < time.minute ∧ time.minute ≤ 0 ∧
      -minuteTicks < rest ∧ rest ≤ 0 := by
  have days := daysSinceEpoch_of_negative negative
  have inDay : -dayTicks < time.timeOfDay ∧ time.timeOfDay ≤ 0 := by
    simp only [timeOfDay, days, dayTicks, hourTicks, minuteTicks, secondTicks]
    omega
  have hours : time.hour = -(-time.timeOfDay / hourTicks) := tdiv_of_nonpos inDay.2 _
  have inHour : -hourTicks < time.timeOfDay - time.hour * hourTicks ∧
      time.timeOfDay - time.hour * hourTicks ≤ 0 := by
    simp only [hours, hourTicks, minuteTicks, secondTicks]
    omega
  have minutes : time.minute = -(-(time.timeOfDay - time.hour * hourTicks) / minuteTicks) :=
    tdiv_of_nonpos inHour.2 _
  refine ⟨time.timeOfDay - time.hour * hourTicks - time.minute * minuteTicks, ?_, ?_⟩
  · simp only [timeOfDay]
    omega
  · simp only [minutes, dayTicks, hourTicks, minuteTicks, secondTicks] at *
    omega

theorem Lost.year (lost : Lost 3000 time) : time.year < 1969 := by
  obtain ⟨low, high⟩ := lost
  have days : time.daysSinceEpoch = -(-time.timePoint / dayTicks) := by
    refine daysSinceEpoch_of_negative ?_
    simp only [dayTicks, hourTicks, minuteTicks, secondTicks] at high
    omega
  have bounds : -106752 ≤ time.daysSinceEpoch ∧ time.daysSinceEpoch < -103000 := by
    simp only [days, dayTicks, hourTicks, minuteTicks, secondTicks] at *
    omega
  simp only [DateTime.year, yearMonthDayFromDays]
  generalize time.daysSinceEpoch = number at bounds
  rw [if_pos (show number + 719468 ≥ 0 by omega), Int.tdiv_eq_ediv_of_nonneg (by omega)]
  have era : (number + 719468) / 146097 = 4 := by omega
  rw [era]
  split_ifs <;> omega

theorem ofDate_before {year month day : Int} (early : year < 1970) :
    ofDate year month day = .error .invalidArgument := if_pos (.inl early)

/-- The hour and the day that a lost time is cut to lie less than a day ahead. -/
theorem Lost.starts (lost : Lost 3000 time) :
    let start := time.minus (time.minute * minuteTicks)
    start.hour = time.hour ∧ start.timePoint = hourStart time ∧
      (start.minus (time.hour * hourTicks)).timePoint = dayStart time ∧
      time.timePoint ≤ hourStart time ∧ hourStart time < time.timePoint + hourTicks ∧
      time.timePoint ≤ dayStart time ∧ dayStart time < time.timePoint + dayTicks := by
  obtain ⟨low, high⟩ := lost
  have negative : time.timePoint ≤ -2 ^ 62 := by
    simp only [dayTicks, hourTicks, minuteTicks, secondTicks] at high
    omega
  obtain ⟨rest, split, hourLow, hourHigh, minuteLow, minuteHigh, restLow, restHigh⟩ :=
    exists_rest_of_negative (show time.timePoint ≤ 0 by omega)
  have minutes : (time.minus (time.minute * minuteTicks)).timePoint = hourStart time := by
    refine timePoint_minus (second_dvd_minutes _) ?_
    simp only [Fits, minuteTicks, secondTicks]
    omega
  dsimp only
  generalize time.minus (time.minute * minuteTicks) = start at *
  have bounds : time.timePoint ≤ hourStart time ∧ hourStart time < time.timePoint + hourTicks ∧
      time.timePoint ≤ dayStart time ∧ dayStart time < time.timePoint + dayTicks := by
    simp only [hourStart, dayStart, dayTicks, hourTicks, minuteTicks, secondTicks] at *
    omega
  have startNegative : start.timePoint ≤ 0 := by
    simp only [minutes, hourTicks, minuteTicks, secondTicks] at *
    omega
  obtain ⟨startRest, startSplit, startBounds⟩ := exists_rest_of_negative startNegative
  have hours : (start.minus (time.hour * hourTicks)).timePoint = dayStart time := by
    rw [timePoint_minus (second_dvd_hours _), minutes, dayStart]
    simp only [Fits, minutes, hourTicks, minuteTicks, secondTicks] at *
    omega
  refine ⟨?_, minutes, hours, bounds⟩
  simp only [minutes, hourStart, dayTicks, hourTicks, minuteTicks, secondTicks] at *
  omega

/-- The next time lies less than two days ahead. -/
def GoesOn (time next : DateTime) : Prop :=
  time.timePoint ≤ next.timePoint ∧ next.timePoint < time.timePoint + 2 * dayTicks

theorem Lost.plus (lost : Lost 3000 time) {start : DateTime} {duration : Int}
    (whole : secondTicks ∣ duration) (forward : time.timePoint ≤ start.timePoint + duration)
    (near : start.timePoint + duration < time.timePoint + 2 * dayTicks) :
    GoesOn time (start.plus duration) := by
  obtain ⟨low, high⟩ := lost
  have fits : Fits (start.timePoint + duration) := by
    simp only [Fits, dayTicks, hourTicks, minuteTicks, secondTicks] at *
    omega
  rw [GoesOn, timePoint_plus whole fits]
  exact ⟨forward, near⟩

theorem Lost.nextDay (lost : Lost 3000 time) : GoesOn time (Cron.nextDay time) := by
  obtain ⟨sameHour, hourAt, dayAt, _, _, daySince, dayNear⟩ := lost.starts
  have tick : 0 < dayTicks := by decide
  rw [Cron.nextDay, sameHour]
  exact lost.plus second_dvd_day (by omega) (by omega)

theorem Lost.incrementHour (lost : Lost 3000 time) (validated : Validated .hour value)
    (notEvery : value ≠ ascii "*") (result : incrementHour value time = .ok next) :
    GoesOn time next := by
  obtain ⟨sameHour, hourAt, dayAt, hourSince, hourNear, daySince, dayNear⟩ := lost.starts
  obtain ⟨element, chosen, within⟩ :=
    chooseElement_of_validated (plain_of_numbers (by decide)).unsuffixed validated time.hour
  simp only [Cron.incrementHour, if_neg notEvery, bind_of_ok chosen, sameHour] at result
  simp only [CronFieldPos.rangeEnd] at within
  split at result
  · obtain rfl := pure_eq_ok.mp result
    have tick : 0 < dayTicks := by decide
    exact lost.plus second_dvd_day (by omega) (by omega)
  · rename_i later
    obtain rfl := pure_eq_ok.mp result
    refine lost.plus (second_dvd_hours _) ?_ ?_ <;> rw [dayAt] <;>
      simp only [dayStart, dayTicks, hourTicks, minuteTicks, secondTicks] at * <;> omega

theorem Lost.incrementMinute (lost : Lost 3000 time) (validated : Validated .minute value)
    (result : incrementMinute value time = .ok next) : GoesOn time next := by
  obtain ⟨_, hourAt, _, hourSince, hourNear, _, _⟩ := lost.starts
  simp only [Cron.incrementMinute] at result
  split at result
  · obtain rfl := pure_eq_ok.mp result
    refine lost.plus second_dvd_minute ?_ ?_ <;>
      simp only [dayTicks, hourTicks, minuteTicks, secondTicks] <;> omega
  · obtain ⟨element, chosen, within⟩ :=
      chooseElement_of_validated (plain_of_numbers (by decide)).unsuffixed validated time.minute
    simp only [bind_of_ok chosen] at result
    simp only [CronFieldPos.rangeEnd] at within
    split at result
    · obtain rfl := pure_eq_ok.mp result
      refine lost.plus second_dvd_hour ?_ ?_ <;> rw [hourAt] <;>
        simp only [hourStart, dayTicks, hourTicks, minuteTicks, secondTicks] at * <;> omega
    · obtain rfl := pure_eq_ok.mp result
      refine lost.plus (second_dvd_minutes _) ?_ ?_ <;> rw [hourAt] <;>
        simp only [hourStart, dayTicks, hourTicks, minuteTicks, secondTicks] at * <;> omega

/-- Where a search is lost, a step goes on by less than two days or throws. -/
theorem Lost.increment (lost : Lost 3000 time) (validated : Validated field value)
    (stepped : field = .minute ∨ value ≠ ascii "*") (result : increment field value time = .ok next) :
    GoesOn time next := by
  have year := lost.year
  cases field with
  | dayOfWeek =>
      obtain rfl := pure_eq_ok.mp result
      exact lost.nextDay
  | month =>
      have notEvery := stepped.resolve_left (by decide)
      obtain ⟨element, chosen, _⟩ :=
        chooseElement_of_validated (plain_of_numbers (by decide)).unsuffixed validated time.month
      simp only [Cron.increment, incrementMonth, if_neg notEvery, bind_of_ok chosen] at result
      -- No month of these years can be built.
      split at result
      · cases (ofDate_before (by omega)).symm.trans result
      · cases (ofDate_before (by omega)).symm.trans result
  | dayOfMonth =>
      simp only [Cron.increment, incrementDayOfMonth] at result
      split at result
      · obtain rfl := pure_eq_ok.mp result
        exact lost.nextDay
      · obtain ⟨element, _, result⟩ := bind_eq_ok.mp result
        split at result
        · obtain ⟨first, built, _⟩ := bind_eq_ok.mp result
          cases (ofDate_before (by omega)).symm.trans built
        · cases (ofDate_before (by omega)).symm.trans result
  | hour => exact lost.incrementHour validated (stepped.resolve_left (by decide)) result
  | minute => exact lost.incrementMinute validated result

namespace CronExpression

variable {expression : CronExpression} {text : Str} {timePoint : Int} {due : DateTime}

end CronExpression

end BabyLuigi.Cron
