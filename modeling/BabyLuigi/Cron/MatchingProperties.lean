import BabyLuigi.Cron.CalendarProperties
import BabyLuigi.Cron.CronExpression
import BabyLuigi.Support.Except

/-! What a text is matched by. -/

set_option autoImplicit false

namespace BabyLuigi.Cron

open DateTime

variable {time : DateTime}

namespace DateTime

theorem ext {time other : DateTime} (same : time.timePoint = other.timePoint) : time = other := by
  cases time
  cases other
  cases same
  rfl

theorem ofTimePoint_timePoint (time : DateTime) : ofTimePoint time.timePoint = time :=
  ext (timePoint_ofTimePoint time.wholeSeconds)

theorem lastDayOfMonth_eq (time : DateTime) :
    time.lastDayOfMonth = lengthOfMonth time.year time.month := rfl

theorem date_of_ofDate {year month day : Int} (built : ofDate year month day = .ok time)
    (inMonth : day ≤ lengthOfMonth year month) (fits : toDays year month day ≤ lastFit) :
    time.year = year ∧ time.month = month ∧ time.day = day := by
  obtain ⟨since, firstMonth, lastMonth, firstDay, _⟩ := ofDate_eq_ok built
  exact date_of_midnight ⟨firstMonth, lastMonth, firstDay, inMonth⟩ (by omega)
    (midnight_ofDate built fits).2

/-- The days of a month before the ticks end are in it. -/
theorem inClock_of_sameMonth {other : DateTime} (inClock : InClock time)
    (nonneg : 0 ≤ other.timePoint) (year : other.year = time.year) (month : other.month = time.month) :
    InClock other := by
  have within := (month_bounds nonneg).2
  rw [year, month] at within
  exact ⟨nonneg, within.trans_le inClock.monthEnd_le⟩

end DateTime

/-! ### What a text is matched by -/

theorem matchDayOfMonth_workday {value : Str} (weekday : parseNearestWeekday value ≠ []) :
    matchDayOfMonth value time = stoi (parseNearestWeekday value) >>= fun wanted =>
      ofDate time.year time.month (min wanted time.lastDayOfMonth) >>= fun target =>
        calcNearestWeekday target >>= fun nearest => .ok (decide (time.day = nearest)) := by
  have notAny : value ≠ ascii "?" := by
    rintro rfl
    exact weekday rfl
  have notLast : value ≠ ascii "L" := by
    rintro rfl
    exact weekday rfl
  have nonempty : (parseNearestWeekday value).isEmpty = false := by simpa using weekday
  simp only [matchDayOfMonth, if_neg notAny, if_neg notLast, nonempty, Bool.not_false, if_true]
  rfl

theorem matchDayOfMonth_number {value : Str} (notAny : value ≠ ascii "?")
    (notLast : value ≠ ascii "L") (noWeekday : parseNearestWeekday value = []) :
    matchDayOfMonth value time = matchNumber .dayOfMonth value time.day := by
  simp only [matchDayOfMonth, if_neg notAny, if_neg notLast, noWeekday, List.isEmpty_nil,
    Bool.not_true, Bool.false_eq_true, if_false]

theorem matchDayOfWeek_lastOfMonth {value : Str} (isLast : parseLastDayOfWeek value ≠ []) :
    matchDayOfWeek value time = stoi (parseLastDayOfWeek value) >>= fun target =>
      ofDate time.year time.month time.lastDayOfMonth >>= fun last =>
        backToWeekday target 7 last >>= fun found => .ok (decide (time.day = found.day)) := by
  have notAny : value ≠ ascii "?" := by
    rintro rfl
    exact isLast rfl
  have nonempty : (parseLastDayOfWeek value).isEmpty = false := by simpa using isLast
  simp only [matchDayOfWeek, if_neg notAny, nonempty, Bool.not_false, if_true]
  rfl

theorem matchDayOfWeek_nthOfMonth {value : Str} (noLast : parseLastDayOfWeek value = [])
    (isNth : (parseNthDayOfWeek value).1 ≠ []) :
    matchDayOfWeek value time = stoi (parseNthDayOfWeek value).1 >>= fun target =>
      stoi (parseNthDayOfWeek value).2 >>= fun targetCount =>
        if time.dayOfWeek ≠ target then .ok false
        else ofDate time.year time.month 1 >>= fun first =>
          forwardToWeekday target targetCount first.lastDayOfMonth (14 * (targetCount.toNat + 1))
            first 0 >>= fun found => .ok (decide (time.day = found.day)) := by
  have notAny : value ≠ ascii "?" := by
    rintro rfl
    exact isNth rfl
  have nonempty : (parseNthDayOfWeek value).1.isEmpty = false := by simpa using isNth
  simp only [matchDayOfWeek, if_neg notAny, noLast, nonempty, List.isEmpty_nil, Bool.not_true,
    Bool.not_false, Bool.false_eq_true, if_false, if_true]
  rfl

theorem matchDayOfWeek_number {value : Str} (notAny : value ≠ ascii "?")
    (noLast : parseLastDayOfWeek value = []) (noNth : (parseNthDayOfWeek value).1 = []) :
    matchDayOfWeek value time = matchNumber .dayOfWeek value time.dayOfWeek := by
  simp only [matchDayOfWeek, if_neg notAny, noLast, noNth, List.isEmpty_nil, Bool.not_true,
    Bool.false_eq_true, if_false]

/-! ### The loop back -/

theorem room_for_dayBefore {fuel : Nat} (room : ((fuel + 1 : Nat) : Int) * dayTicks ≤ time.timePoint)
    (fits : time.timePoint < 2 ^ 63) :
    0 ≤ time.timePoint ∧ dayTicks ≤ time.timePoint ∧
      fuel * dayTicks ≤ (time.minus dayTicks).timePoint ∧ (time.minus dayTicks).timePoint < 2 ^ 63 := by
  have fuelRoom : 0 ≤ fuel * dayTicks := Int.mul_nonneg (by omega) (by decide)
  have tick : 0 ≤ dayTicks := by decide
  rw [Nat.cast_succ, Int.add_mul, Int.one_mul] at room
  rw [timePoint_minus second_dvd_day ⟨by omega, by omega⟩]
  omega

theorem backToWeekday_spec {target : Int} (fuel : Nat) : ∀ {time found : DateTime},
    fuel * dayTicks ≤ time.timePoint → time.timePoint < 2 ^ 63 →
      backToWeekday target fuel time = .ok found →
      0 ≤ found.timePoint ∧ found.dayOfWeek = target := by
  induction fuel with
  | zero =>
      intro time found room fits result
      cases result
  | succ fuel ih =>
      intro time found room fits result
      obtain ⟨nonneg, _, before, beforeFits⟩ := room_for_dayBefore room fits
      rw [backToWeekday] at result
      split at result
      · exact ih before beforeFits result
      · rename_i same
        obtain rfl := pure_eq_ok.mp result
        exact ⟨nonneg, not_not.mp same⟩

end BabyLuigi.Cron
