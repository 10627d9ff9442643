import BabyLuigi.Cron.ConversionProperties
import BabyLuigi.Cron.SimpleScheduleProperties
import Mathlib.Data.Int.ConditionallyCompleteOrder
import Mathlib.Data.Int.Interval
import Mathlib.Order.Interval.Finset.Basic

/-! The days that the notations for weekdays of a month match. -/

set_option autoImplicit false

namespace BabyLuigi.Cron

open DateTime

/-! ### Weekdays of a month -/

/-- The weekday of a day of the month, Sunday being 0. -/
def weekdayOf (year month day : Int) : Int := weekdayFromDays (toDays year month day)

/-- As many days of the month up to this date fall on the weekday. -/
structure IsNthWeekday (time : DateTime) (weekday n : Int) : Prop where
  fallsOn : time.dayOfWeek = weekday
  count : ((Finset.Icc 1 time.day).filter fun day =>
    weekdayOf time.year time.month day = weekday).card = n

/-- No later day of the month falls on the weekday. -/
structure IsLastWeekday (time : DateTime) (weekday : Int) : Prop where
  fallsOn : time.dayOfWeek = weekday
  last : ∀ day, time.day < day → day ≤ lengthOfMonth time.year time.month →
    weekdayOf time.year time.month day ≠ weekday

/-- A day of the month from Monday to Friday. -/
structure IsWorkday (year month day : Int) : Prop where
  first : 1 ≤ day
  last : day ≤ lengthOfMonth year month
  notSunday : weekdayOf year month day ≠ 0
  notSaturday : weekdayOf year month day ≠ 6

/-- The workday of the month that is closest to the wanted day, or to the last
day of the month where that comes earlier. -/
structure IsNearestWorkday (year month day wanted : Int) : Prop where
  workday : IsWorkday year month day
  closest : ∀ other, IsWorkday year month other → other ≠ day →
    |day - min wanted (lengthOfMonth year month)| < |other - min wanted (lengthOfMonth year month)|

variable {time : DateTime} {year month weekday n : Int}

theorem weekdayOf_eq {day : Int} (since : 1970 ≤ year) (firstMonth : 1 ≤ month)
    (lastMonth : month ≤ 12) (firstDay : 1 ≤ day) :
    weekdayOf year month day = (toDays year month 1 + day + 3) % 7 := by
  have nonneg := toDays_nonneg since firstMonth lastMonth day
  rw [weekdayOf, weekdayFromDays, if_pos (by omega), Int.tmod_eq_emod_of_nonneg (by omega),
    toDays_day]
  congr 1
  omega

theorem weekdayOf_time (nonneg : 0 ≤ time.timePoint) {day : Int} (firstDay : 1 ≤ day) :
    weekdayOf time.year time.month day = (time.dayOfWeek + day - time.day) % 7 := by
  obtain ⟨valid, _, days⟩ := validDate nonneg
  have inMonth := toDays_day time.year time.month time.day
  rw [weekdayOf_eq (year_ge nonneg) valid.firstMonth valid.lastMonth firstDay,
    dayOfWeek_eq time, ← days]
  omega

/-- Going back from a day by weeks passes every day of its weekday in the month. -/
theorem card_sameWeekday {shift day : Int} (firstDay : 1 ≤ day) :
    (((Finset.Icc 1 day).filter fun other => (shift + other - day) % 7 = shift % 7).card : Int) =
      (day - 1) / 7 + 1 := by
  have weeks : (Finset.Icc 1 day).filter (fun other => (shift + other - day) % 7 = shift % 7) =
      (Finset.range ((day - 1) / 7 + 1).toNat).image fun week : Nat => day - 7 * week := by
    ext other
    simp only [Finset.mem_filter, Finset.mem_Icc, Finset.mem_image, Finset.mem_range]
    constructor
    · rintro ⟨bounds, same⟩
      exact ⟨((day - other) / 7).toNat, by omega, by omega⟩
    · rintro ⟨week, before, rfl⟩
      omega
  have injective : Function.Injective fun week : Nat => day - 7 * (week : Int) := by
    intro first second same
    dsimp only at same
    omega
  rw [weeks, Finset.card_image_of_injective _ injective, Finset.card_range]
  omega

theorem isNthWeekday_iff (nonneg : 0 ≤ time.timePoint) :
    IsNthWeekday time weekday n ↔ time.dayOfWeek = weekday ∧ (time.day - 1) / 7 + 1 = n := by
  have firstDay := (validDate nonneg).1.firstDay
  have bounds := dayOfWeek_bounds time
  have counted : (((Finset.Icc 1 time.day).filter fun day =>
      weekdayOf time.year time.month day = time.dayOfWeek).card : Int) = (time.day - 1) / 7 + 1 := by
    have same : (Finset.Icc 1 time.day).filter (fun day =>
        weekdayOf time.year time.month day = time.dayOfWeek) =
        (Finset.Icc 1 time.day).filter fun day =>
          (time.dayOfWeek + day - time.day) % 7 = time.dayOfWeek % 7 := by
      refine Finset.filter_congr fun day member => ?_
      rw [weekdayOf_time nonneg (Finset.mem_Icc.mp member).1]
      omega
    rw [same, card_sameWeekday firstDay]
  constructor
  · rintro ⟨rfl, count⟩
    exact ⟨rfl, counted.symm.trans count⟩
  · rintro ⟨rfl, count⟩
    exact ⟨rfl, counted.trans count⟩

theorem isLastWeekday_iff (nonneg : 0 ≤ time.timePoint) :
    IsLastWeekday time weekday ↔
      time.dayOfWeek = weekday ∧ lengthOfMonth time.year time.month < time.day + 7 := by
  have firstDay := (validDate nonneg).1.firstDay
  have bounds := dayOfWeek_bounds time
  constructor
  · rintro ⟨rfl, last⟩
    refine ⟨rfl, ?_⟩
    by_contra later
    refine last (time.day + 7) (by omega) (by omega) ?_
    rw [weekdayOf_time nonneg (by omega)]
    omega
  · rintro ⟨rfl, last⟩
    refine ⟨rfl, ?_⟩
    intro day later inMonth
    rw [weekdayOf_time nonneg (by omega)]
    omega

/-! ### The loops over the days -/

theorem DateTime.plus_zero (nonneg : 0 ≤ time.timePoint) (fits : time.timePoint < 2 ^ 63) :
    time.plus (0 * dayTicks) = time := by
  apply DateTime.ext
  rw [timePoint_plus (second_dvd_days _) ⟨by omega, by omega⟩, Int.zero_mul, Int.add_zero]

theorem DateTime.plus_day_plus {days : Int} (nonneg : 0 ≤ time.timePoint) (forward : 0 ≤ days)
    (fits : time.timePoint + (days + 1) * dayTicks < 2 ^ 63) :
    (time.plus dayTicks).plus (days * dayTicks) = time.plus ((days + 1) * dayTicks) := by
  have tick : 0 < dayTicks := by decide
  have rest : 0 ≤ days * dayTicks := Int.mul_nonneg forward (by decide)
  have split : (days + 1) * dayTicks = days * dayTicks + dayTicks := by rw [Int.add_mul, Int.one_mul]
  have day : (time.plus dayTicks).timePoint = time.timePoint + dayTicks :=
    timePoint_plus second_dvd_day ⟨by omega, by omega⟩
  apply DateTime.ext
  rw [timePoint_plus (second_dvd_days _) ⟨by omega, by omega⟩,
    timePoint_plus (second_dvd_days _) ⟨by omega, by omega⟩, day, split]
  omega

theorem DateTime.minus_day_minus {days : Int} (back : 0 ≤ days)
    (stays : (days + 1) * dayTicks ≤ time.timePoint) (fits : time.timePoint < 2 ^ 63) :
    (time.minus dayTicks).plus (-days * dayTicks) = time.plus (-(days + 1) * dayTicks) := by
  have tick : 0 < dayTicks := by decide
  have rest : 0 ≤ days * dayTicks := Int.mul_nonneg back (by decide)
  have split : (days + 1) * dayTicks = days * dayTicks + dayTicks := by rw [Int.add_mul, Int.one_mul]
  have day : (time.minus dayTicks).timePoint = time.timePoint - dayTicks :=
    timePoint_minus second_dvd_day ⟨by omega, by omega⟩
  apply DateTime.ext
  rw [timePoint_plus (second_dvd_days _) (by rw [Int.neg_mul]; exact ⟨by omega, by omega⟩),
    timePoint_plus (second_dvd_days _) (by rw [Int.neg_mul]; exact ⟨by omega, by omega⟩), day,
    Int.neg_mul, Int.neg_mul, split]
  omega

/-- The loop back ends at the last day of the wanted weekday. -/
theorem backToWeekday_found {target : Int} (first : 0 ≤ target) (last : target ≤ 6) (fuel : Nat) :
    ∀ {time : DateTime}, fuel * dayTicks ≤ time.timePoint → time.timePoint < 2 ^ 63 →
      (time.dayOfWeek - target) % 7 < fuel →
      backToWeekday target fuel time =
        .ok (time.plus (-((time.dayOfWeek - target) % 7) * dayTicks)) := by
  induction fuel with
  | zero =>
      intro time room fits near
      omega
  | succ fuel ih =>
      intro time room fits near
      obtain ⟨nonneg, day, before, beforeFits⟩ := room_for_dayBefore room fits
      have bounds := dayOfWeek_bounds time
      have previous := dayOfWeek_minus_day day fits
      by_cases same : time.dayOfWeek = target
      · rw [backToWeekday, if_neg (not_not.mpr same), same, Int.sub_self]
        exact congrArg Except.ok (plus_zero nonneg fits).symm
      · have stays : (((time.minus dayTicks).dayOfWeek - target) % 7 + 1) * dayTicks ≤
            time.timePoint :=
          (Int.mul_le_mul_of_nonneg_right (by rw [previous]; omega) (by decide)).trans room
        rw [backToWeekday, if_pos same, ih before beforeFits (by rw [previous]; omega),
          minus_day_minus (Int.emod_nonneg _ (by decide)) stays fits, previous]
        congr 4
        omega

/-- The loop forward ends at the wanted occurrence, if no day on the way has a
number above the last day of the month it began in. -/
theorem forwardToWeekday_found {target targetCount lastDay : Int} (first : 0 ≤ target)
    (last : target ≤ 6) (fuel : Nat) : ∀ {time : DateTime} {count distance : Int},
      0 ≤ time.timePoint → time.timePoint + distance * dayTicks < 2 ^ 63 → count < targetCount →
      distance = (target - time.dayOfWeek) % 7 + 7 * (targetCount - count - 1) →
      distance < fuel →
      (∀ days, 0 < days → days ≤ distance → (time.plus (days * dayTicks)).day ≤ lastDay) →
      forwardToWeekday target targetCount lastDay fuel time count =
        .ok (time.plus (distance * dayTicks)) := by
  induction fuel with
  | zero =>
      intro time count distance nonneg fits more split near onTheWay
      omega
  | succ fuel ih =>
      intro time count distance nonneg fits more split near onTheWay
      have bounds := dayOfWeek_bounds time
      have within {days : Int} (upTo : days ≤ distance) : time.timePoint + days * dayTicks < 2 ^ 63 := by
        have shorter := Int.mul_le_mul_of_nonneg_right upTo (show 0 ≤ dayTicks by decide)
        omega
      have next (seen : Int) (later : seen < targetCount) (away : 0 < distance)
          (rest : distance - 1 =
            (target - (time.dayOfWeek + 1) % 7) % 7 + 7 * (targetCount - seen - 1)) :
          (if (time.plus dayTicks).day < lastDay + 1 then
            forwardToWeekday target targetCount lastDay fuel (time.plus dayTicks) seen
            else .ok (time.plus dayTicks)) = .ok (time.plus (distance * dayTicks)) := by
        have tick : 0 < dayTicks := by decide
        have dayFits : time.timePoint + dayTicks < 2 ^ 63 := by
          rw [← Int.one_mul dayTicks]
          exact within (show 1 ≤ distance by omega)
        have moved : (time.plus dayTicks).timePoint = time.timePoint + dayTicks :=
          timePoint_plus second_dvd_day ⟨by omega, dayFits⟩
        have inMonth := onTheWay 1 (by decide) (by omega)
        rw [Int.one_mul] at inMonth
        have split : distance * dayTicks = (distance - 1) * dayTicks + dayTicks := by
          rw [Int.sub_mul, Int.one_mul]
          omega
        have restFits : (time.plus dayTicks).timePoint + (distance - 1) * dayTicks < 2 ^ 63 := by omega
        rw [if_pos (by omega), ih (by omega) restFits later
          (by rw [dayOfWeek_plus_day nonneg dayFits]; exact rest) (by omega) ?_,
          plus_day_plus nonneg (by omega) (by rw [Int.sub_add_cancel]; exact fits),
          Int.sub_add_cancel]
        intro days after upTo
        rw [plus_day_plus nonneg after.le (within (by omega))]
        exact onTheWay _ (by omega) (by omega)
      simp only [forwardToWeekday]
      by_cases same : time.dayOfWeek = target
      · rw [if_pos same]
        by_cases reached : targetCount ≤ count + 1
        · have here : distance = 0 := by omega
          have fits := within (show 0 ≤ distance by omega)
          rw [if_pos ⟨same, reached⟩, here, plus_zero nonneg (by omega)]
          rfl
        · rw [if_neg (by omega)]
          exact next (count + 1) (by omega) (by omega) (by omega)
      · rw [if_neg same, if_neg (by omega)]
        exact next count more (by omega) (by omega)

/-! ### Days counted from the first of a month -/

theorem day_in_month {offset : Int} (since : 1970 ≤ year) (firstMonth : 1 ≤ month)
    (lastMonth : month ≤ 12) (days : time.daysSinceEpoch = toDays year month 1 + offset)
    (first : 0 ≤ offset) (inMonth : offset < lengthOfMonth year month) :
    time.day = offset + 1 := by
  have valid : ValidDate year month (offset + 1) := ⟨firstMonth, lastMonth, by omega, by omega⟩
  refine (date_of_days valid (by omega) ?_).2.2
  rw [days, toDays_day year month (offset + 1)]
  omega

/-- The days after the end of a month are counted anew. -/
theorem day_in_nextMonth {offset : Int} (since : 1970 ≤ year) (firstMonth : 1 ≤ month)
    (lastMonth : month ≤ 12) (days : time.daysSinceEpoch = toDays year month 1 + offset)
    (past : lengthOfMonth year month ≤ offset) (near : offset < lengthOfMonth year month + 28) :
    time.day = offset - lengthOfMonth year month + 1 := by
  rcases lastMonth.eq_or_lt with rfl | earlier
  · have length : lengthOfMonth year 12 = 31 := rfl
    have start := toDays_nextYear (show 1 ≤ year by omega)
    rw [toDays_day year 12 31] at start
    rw [length] at past near ⊢
    refine day_in_month (show 1970 ≤ year + 1 by omega) le_rfl (by decide) ?_ (by omega) ?_
    · rw [days]
      omega
    · have next := lengthOfMonth_bounds (year + 1) 1
      omega
  · have start := toDays_nextMonth (show 1 ≤ year by omega) firstMonth earlier
    have next := lengthOfMonth_bounds year (month + 1)
    refine day_in_month since (show 1 ≤ month + 1 by omega) (by omega) ?_ (by omega) (by omega)
    rw [days]
    omega

/-- The number that the loop for the n-th weekday compares with: a fifth weekday
that the month does not have is looked for in the month after it. -/
def nthDay (time : DateTime) (weekday n : Int) : Int :=
  let offset := (weekday - weekdayOf time.year time.month 1) % 7 + 7 * (n - 1)
  if offset < lengthOfMonth time.year time.month then offset + 1
  else offset - lengthOfMonth time.year time.month + 1

theorem forwardToWeekday_nthDay (inClock : InClock time) (firstWeekday : 0 ≤ weekday)
    (lastWeekday : weekday ≤ 6) (firstCount : 1 ≤ n) (lastCount : n ≤ 5) :
    ∃ first found, ofDate time.year time.month 1 = .ok first ∧
      forwardToWeekday weekday n first.lastDayOfMonth (14 * (n.toNat + 1)) first 0 = .ok found ∧
      found.day = nthDay time weekday n := by
  obtain ⟨valid, _, _⟩ := validDate inClock.nonneg
  have since := year_ge inClock.nonneg
  have length := lengthOfMonth_bounds time.year time.month
  obtain ⟨built, fits⟩ := inClock.ofDate_ok le_rfl (show (1 : Int) ≤ 31 by decide)
  generalize ofTimePoint (toDays time.year time.month 1 * dayTicks) = first at built
  obtain ⟨firstNonneg, midnight⟩ := midnight_ofDate built fits
  have firstDays := days_of_midnight midnight
  have firstDayOfWeek : first.dayOfWeek = weekdayOf time.year time.month 1 := by
    rw [dayOfWeek, firstDays, weekdayOf]
  have near {offset : Int} (positive : 0 ≤ offset) (upTo : offset ≤ 34) :
      first.timePoint + offset * dayTicks < 2 ^ 63 := by
    have start := toDays_nonneg since valid.firstMonth valid.lastMonth 1
    have ends := inClock.monthEnd_le
    have number : clockEnd = 106741 := rfl
    have last : toDays time.year time.month 1 + offset ≤ lastFit := by
      simp only [monthEnd, lastFit] at *
      omega
    rw [midnight, ← Int.add_mul]
    exact (midnight_fits (by omega) last).2
  have days {offset : Int} (positive : 0 ≤ offset) (upTo : offset ≤ 34) :
      (first.plus (offset * dayTicks)).daysSinceEpoch = toDays time.year time.month 1 + offset := by
    have added : 0 ≤ offset * dayTicks := Int.mul_nonneg positive (by decide)
    rw [daysSinceEpoch_plus_days firstNonneg (by omega) (near positive upTo), firstDays]
  have number {offset : Int} (positive : 0 ≤ offset) (upTo : offset ≤ 34) :
      (first.plus (offset * dayTicks)).day =
        if offset < lengthOfMonth time.year time.month then offset + 1
        else offset - lengthOfMonth time.year time.month + 1 := by
    split
    · exact day_in_month since valid.firstMonth valid.lastMonth (days positive upTo) positive ‹_›
    · exact day_in_nextMonth since valid.firstMonth valid.lastMonth (days positive upTo)
        (by omega) (by omega)
  refine ⟨first, _, built, forwardToWeekday_found firstWeekday lastWeekday _ firstNonneg
    (near (by omega) (by omega)) (by omega) rfl (by omega) ?_, ?_⟩
  · intro offset after before
    rw [number after.le (by omega), lastDayOfMonth_ofDate built fits]
    split <;> omega
  · rw [number (by omega) (by omega), firstDayOfWeek]
    simp only [nthDay, Int.sub_zero]

/-- The last day of the month on a weekday is less than a week before its end. -/
theorem backToWeekday_lastDay (inClock : InClock time) (firstWeekday : 0 ≤ weekday)
    (lastWeekday : weekday ≤ 6) :
    ∃ last found, ofDate time.year time.month time.lastDayOfMonth = .ok last ∧
      backToWeekday weekday 7 last = .ok found ∧
      found.day = lengthOfMonth time.year time.month -
        (weekdayOf time.year time.month (lengthOfMonth time.year time.month) - weekday) % 7 := by
  obtain ⟨valid, _, _⟩ := validDate inClock.nonneg
  have since := year_ge inClock.nonneg
  have length := lengthOfMonth_bounds time.year time.month
  obtain ⟨last, built, lastInClock, weekRoom⟩ := inClock.exists_lastDay
  have lastFits := lastInClock.fits
  have lastNonneg := lastInClock.nonneg
  rw [lastDayOfMonth_eq] at built
  have fits := (inClock.ofDate_ok (show 1 ≤ lengthOfMonth time.year time.month by omega)
    (by omega)).2
  have lastDays := days_of_midnight (midnight_ofDate built fits).2
  have lastDayOfWeek : last.dayOfWeek = weekdayOf time.year time.month
      (lengthOfMonth time.year time.month) := by
    rw [dayOfWeek, lastDays, weekdayOf]
  refine ⟨last, _, built,
    backToWeekday_found firstWeekday lastWeekday 7 weekRoom lastFits (by omega), ?_⟩
  have back : (last.dayOfWeek - weekday) % 7 * dayTicks ≤ 7 * dayTicks :=
    Int.mul_le_mul_of_nonneg_right (by omega) (by decide)
  have forward : 0 ≤ (last.dayOfWeek - weekday) % 7 * dayTicks :=
    Int.mul_nonneg (by omega) (by decide)
  have inMonth := toDays_day time.year time.month (lengthOfMonth time.year time.month)
  have days : (last.plus (-((last.dayOfWeek - weekday) % 7) * dayTicks)).daysSinceEpoch =
      toDays time.year time.month 1 +
        (lengthOfMonth time.year time.month - 1 - (last.dayOfWeek - weekday) % 7) := by
    rw [daysSinceEpoch_plus_days lastNonneg (by rw [Int.neg_mul]; omega)
      (by rw [Int.neg_mul]; omega), lastDays]
    omega
  rw [day_in_month since valid.firstMonth valid.lastMonth days (by omega) (by omega), lastDayOfWeek]
  omega

/-! ### The three notations -/

/-- The call returns, and returns whether this holds. -/
def Answers (call : Except Fault Bool) (holds : Prop) : Prop :=
  ∃ answer, call = .ok answer ∧ (answer = true ↔ holds)

theorem answers_congr {call : Except Fault Bool} {holds other : Prop} (answers : Answers call holds) :
    Answers call other ↔ (holds ↔ other) := by
  obtain ⟨answer, returned, correct⟩ := answers
  constructor
  · rintro ⟨again, returnedAgain, correctAgain⟩
    cases returned.symm.trans returnedAgain
    exact correct.symm.trans correctAgain
  · intro same
    exact ⟨answer, returned, correct.trans same⟩

section Notations

variable {day count : Str}

theorem matchDayOfWeek_nth (inClock : InClock time)
    (isDay : IsNumber day weekday) (isCount : IsNumber count n) (firstWeekday : 0 ≤ weekday)
    (lastWeekday : weekday ≤ 6) (firstCount : 1 ≤ n) (lastCount : n ≤ 5) :
    Answers (matchDayOfWeek (day ++ 35 :: count) time)
      (time.dayOfWeek = weekday ∧ time.day = nthDay time weekday n) := by
  have noCount : 35 ∉ day := isDay.absent rfl
  have noLast : parseLastDayOfWeek (day ++ 35 :: count) = [] := by
    have dayPart : 76 ∉ day := isDay.absent rfl
    have countPart : 76 ∉ count := isCount.absent rfl
    simp [parseLastDayOfWeek, before, dayPart, countPart]
  have parsed : parseNthDayOfWeek (day ++ 35 :: count) = (day, count) := by
    obtain ⟨front, back⟩ := takeWhile_append_stop (ne_of_absent noCount)
      (show ∀ char ∈ (35 :: count).head?, (char != 35) = false by simp)
    simp only [parseNthDayOfWeek, before, List.contains_eq_mem, List.mem_append, List.mem_cons,
      true_or, or_true, decide_true, if_true, front, back, List.drop_one, List.tail_cons]
  have isNth : (parseNthDayOfWeek (day ++ 35 :: count)).1 ≠ [] := by
    rw [parsed]
    exact isDay.nonempty
  obtain ⟨first, found, built, forward, number⟩ := forwardToWeekday_nthDay inClock firstWeekday
    lastWeekday firstCount lastCount
  rw [matchDayOfWeek_nthOfMonth noLast isNth, parsed, bind_of_ok isDay.stoi, bind_of_ok isCount.stoi]
  by_cases same : time.dayOfWeek = weekday
  · rw [if_neg (not_not.mpr same), bind_of_ok built, bind_of_ok forward, number]
    exact ⟨_, rfl, by simp [same]⟩
  · rw [if_pos same]
    exact ⟨false, rfl, by simp [same]⟩

/-- A fifth weekday is found in the first week of a month of 28 days, and there only. -/
theorem nthDay_correct_iff (nonneg : 0 ≤ time.timePoint) (firstCount : 1 ≤ n) (lastCount : n ≤ 5) :
    ((time.dayOfWeek = weekday ∧ time.day = nthDay time weekday n) ↔ IsNthWeekday time weekday n) ↔
      ¬ (n = 5 ∧ lengthOfMonth time.year time.month = 28 ∧ time.dayOfWeek = weekday ∧
        time.day ≤ 7) := by
  obtain ⟨valid, _, _⟩ := validDate nonneg
  have length := lengthOfMonth_bounds time.year time.month
  have firstDay := valid.firstDay
  have lastDay := valid.lastDay
  have bounds := dayOfWeek_bounds time
  rw [isNthWeekday_iff nonneg, nthDay, weekdayOf_time nonneg le_rfl]
  by_cases same : time.dayOfWeek = weekday
  · subst same
    simp only [true_and]
    split <;> omega
  · simp only [same, false_and, and_false, not_false_eq_true]

theorem matchDayOfWeek_last (inClock : InClock time) (isDay : IsNumber day weekday)
    (firstWeekday : 0 ≤ weekday) (lastWeekday : weekday ≤ 6) :
    Answers (matchDayOfWeek (day ++ [76]) time) (IsLastWeekday time weekday) := by
  have parsed : parseLastDayOfWeek (day ++ [76]) = day := by
    rw [parseLastDayOfWeek, before, if_pos (by simp), takeWhile_piece (isDay.absent rfl)]
  have isLast : parseLastDayOfWeek (day ++ [76]) ≠ [] := by
    rw [parsed]
    exact isDay.nonempty
  obtain ⟨last, found, built, back, number⟩ :=
    backToWeekday_lastDay inClock firstWeekday lastWeekday
  rw [matchDayOfWeek_lastOfMonth isLast, parsed, bind_of_ok isDay.stoi, bind_of_ok built,
    bind_of_ok back, number]
  refine ⟨_, rfl, ?_⟩
  obtain ⟨valid, _, _⟩ := validDate inClock.nonneg
  have length := lengthOfMonth_bounds time.year time.month
  have firstDay := valid.firstDay
  have lastDay := valid.lastDay
  have bounds := dayOfWeek_bounds time
  rw [decide_eq_true_iff, isLastWeekday_iff inClock.nonneg, weekdayOf_time inClock.nonneg (by omega)]
  omega

theorem nearestOffset_cons (inClock : InClock time) (offset : Int) (rest : List Int) :
    nearestOffset time (offset :: rest) =
      if 0 < time.day + offset ∧ time.day + offset ≤ lengthOfMonth time.year time.month ∧
          (time.dayOfWeek + offset) % 7 ≠ 0 ∧ (time.dayOfWeek + offset) % 7 ≠ 6 then
        .ok (time.day + offset)
      else nearestOffset time rest := by
  have length := lengthOfMonth_bounds time.year time.month
  rw [nearestOffset, lastDayOfMonth_eq]
  by_cases inMonth : 0 < time.day + offset ∧ time.day + offset ≤ lengthOfMonth time.year time.month
  · obtain ⟨built, fits⟩ :=
      inClock.ofDate_ok (show 1 ≤ time.day + offset by omega) (show time.day + offset ≤ 31 by omega)
    generalize ofTimePoint (toDays time.year time.month (time.day + offset) * dayTicks) = other at built
    have otherDayOfWeek : other.dayOfWeek = (time.dayOfWeek + offset) % 7 := by
      have midnight := weekdayOf_time inClock.nonneg (show 1 ≤ time.day + offset by omega)
      rw [dayOfWeek, days_of_midnight (midnight_ofDate built fits).2]
      rw [weekdayOf] at midnight
      rw [midnight]
      congr 1
      omega
    have otherWeekend : other.isWeekend = true ↔
        (time.dayOfWeek + offset) % 7 = 0 ∨ (time.dayOfWeek + offset) % 7 = 6 := by
      simp only [isWeekend, otherDayOfWeek, Bool.or_eq_true, decide_eq_true_eq]
    rw [if_pos inMonth, bind_of_ok built]
    by_cases weekend : other.isWeekend = true
    · rw [weekend, if_neg (by decide), if_neg (by tauto)]
    · rw [if_pos (by simpa using weekend), if_pos (by tauto)]
      rfl
  · rw [if_neg inMonth, if_neg (by tauto)]

/-- The day that the loop over the offsets comes to. -/
theorem calcNearestWeekday_found (inClock : InClock time) :
    ∃ nearest, calcNearestWeekday time = .ok nearest ∧
      IsNearestWorkday time.year time.month nearest time.day := by
  have nonneg := inClock.nonneg
  obtain ⟨valid, _, _⟩ := validDate nonneg
  have length := lengthOfMonth_bounds time.year time.month
  have firstDay := valid.firstDay
  have lastDay := valid.lastDay
  have bounds := dayOfWeek_bounds time
  have closest (nearest : Int) (first : 1 ≤ nearest)
      (last : nearest ≤ lengthOfMonth time.year time.month)
      (workday : (time.dayOfWeek + nearest - time.day) % 7 ≠ 0 ∧
        (time.dayOfWeek + nearest - time.day) % 7 ≠ 6)
      (least : ∀ other, 1 ≤ other → other ≤ lengthOfMonth time.year time.month →
        (time.dayOfWeek + other - time.day) % 7 ≠ 0 ∧ (time.dayOfWeek + other - time.day) % 7 ≠ 6 →
        other ≠ nearest → (nearest - time.day).natAbs < (other - time.day).natAbs) :
      IsNearestWorkday time.year time.month nearest time.day := by
    refine ⟨⟨first, last, ?_, ?_⟩, ?_⟩
    · rw [weekdayOf_time nonneg first]
      exact workday.1
    · rw [weekdayOf_time nonneg first]
      exact workday.2
    · rintro other ⟨otherFirst, otherLast, notSunday, notSaturday⟩ differ
      rw [weekdayOf_time nonneg otherFirst] at notSunday notSaturday
      rw [min_eq_left lastDay, Int.abs_eq_natAbs, Int.abs_eq_natAbs, Int.ofNat_lt]
      exact least other otherFirst otherLast ⟨notSunday, notSaturday⟩ differ
  have weekend : time.isWeekend = true ↔ time.dayOfWeek = 0 ∨ time.dayOfWeek = 6 := by
    simp only [isWeekend, Bool.or_eq_true, decide_eq_true_eq]
  unfold calcNearestWeekday
  split
  · rename_i isWorkday
    have notWeekend : ¬ (time.dayOfWeek = 0 ∨ time.dayOfWeek = 6) := by
      rw [← weekend]
      simpa using isWorkday
    exact ⟨_, rfl, closest _ firstDay lastDay (by omega) (by omega)⟩
  · rename_i isWeekend
    have onWeekend : time.dayOfWeek = 0 ∨ time.dayOfWeek = 6 := weekend.mp (by simpa using isWeekend)
    simp only [nearestOffset_cons inClock]
    split
    · exact ⟨_, rfl, closest _ (by omega) (by omega) (by omega) (by omega)⟩
    · split
      · exact ⟨_, rfl, closest _ (by omega) (by omega) (by omega) (by omega)⟩
      · split
        · exact ⟨_, rfl, closest _ (by omega) (by omega) (by omega) (by omega)⟩
        · split
          · exact ⟨_, rfl, closest _ (by omega) (by omega) (by omega) (by omega)⟩
          · omega

theorem IsNearestWorkday.unique {first second wanted : Int}
    (isFirst : IsNearestWorkday year month first wanted)
    (isSecond : IsNearestWorkday year month second wanted) : first = second := by
  by_contra differ
  have before := isFirst.closest second isSecond.workday (Ne.symm differ)
  have after := isSecond.closest first isFirst.workday differ
  exact lt_asymm before after

/-- The workday that the code comes to from the wanted day of a month. -/
theorem exists_nearestWorkday {wanted : Int} (inClock : InClock time) (firstDay : 1 ≤ wanted) :
    ∃ target nearest,
      ofDate time.year time.month (min wanted (lengthOfMonth time.year time.month)) = .ok target ∧
      calcNearestWeekday target = .ok nearest ∧
      IsNearestWorkday time.year time.month nearest wanted := by
  have length := lengthOfMonth_bounds time.year time.month
  have dayBounds : 1 ≤ min wanted (lengthOfMonth time.year time.month) ∧
      min wanted (lengthOfMonth time.year time.month) ≤ 31 := by omega
  have built := (inClock.ofDate_ok dayBounds.1 dayBounds.2).1
  obtain ⟨targetInClock, targetYear, targetMonth, targetDay⟩ :=
    inClock.date_of_ofDate built (min_le_right _ _)
  obtain ⟨nearest, found, isNearest⟩ := calcNearestWeekday_found targetInClock
  rw [targetYear, targetMonth, targetDay] at isNearest
  refine ⟨_, nearest, built, found, isNearest.workday, ?_⟩
  intro other workday differ
  have closer := isNearest.closest other workday differ
  rwa [min_assoc, min_self] at closer

theorem matchDayOfMonth_weekday {wanted : Int} (isDay : IsNumber day wanted) :
    matchDayOfMonth (day ++ [87]) time =
      ofDate time.year time.month (min wanted time.lastDayOfMonth) >>= fun target =>
        calcNearestWeekday target >>= fun nearest => .ok (decide (time.day = nearest)) := by
  have parsed : parseNearestWeekday (day ++ [87]) = day := by
    rw [parseNearestWeekday, before, if_pos (by simp), takeWhile_piece (isDay.absent rfl)]
  have weekday : parseNearestWeekday (day ++ [87]) ≠ [] := by
    rw [parsed]
    exact isDay.nonempty
  rw [matchDayOfMonth_workday weekday, parsed, bind_of_ok isDay.stoi]

theorem matchDayOfMonth_nearest {wanted : Int} (inClock : InClock time)
    (isDay : IsNumber day wanted) (firstDay : 1 ≤ wanted) :
    Answers (matchDayOfMonth (day ++ [87]) time)
      (IsNearestWorkday time.year time.month time.day wanted) := by
  obtain ⟨target, nearest, built, found, isNearest⟩ := exists_nearestWorkday inClock firstDay
  rw [matchDayOfMonth_weekday isDay, lastDayOfMonth_eq, bind_of_ok built, bind_of_ok found]
  refine ⟨_, rfl, ?_⟩
  rw [decide_eq_true_iff]
  constructor
  · intro same
    rw [same]
    exact isNearest
  · intro isDate
    exact isDate.unique isNearest

end Notations

/-- What the three notations mean at a date: the n-th and the last weekday of its
month, and the workday nearest to a day, which no other date of the month is. -/
structure MeansWeekdays (time : DateTime) (weekdayText countText dayText : Str)
    (weekday n wanted : Int) : Prop where
  nth : Answers (matchDayOfWeek (weekdayText ++ 35 :: countText) time) (IsNthWeekday time weekday n)
  last : Answers (matchDayOfWeek (weekdayText ++ [76]) time) (IsLastWeekday time weekday)
  nearest : Answers (matchDayOfMonth (dayText ++ [87]) time)
    (IsNearestWorkday time.year time.month time.day wanted)
  onlyNearest : ∀ other : DateTime, 0 ≤ other.timePoint → other.year = time.year →
    other.month = time.month → matchDayOfMonth (dayText ++ [87]) time = .ok true →
    matchDayOfMonth (dayText ++ [87]) other = .ok true → other.day = time.day

/-- Before April 2262 the notations match the dates they stand for, but for a
fifth weekday in the first week of a month of 28 days. -/
theorem meansWeekdays_iff (inClock : InClock time)
    {weekdayText countText dayText : Str} {wanted : Int}
    (isWeekday : IsNumber weekdayText weekday) (firstWeekday : 0 ≤ weekday) (lastWeekday : weekday ≤ 6)
    (isCount : IsNumber countText n) (firstCount : 1 ≤ n) (lastCount : n ≤ 5)
    (isDay : IsNumber dayText wanted) (firstDay : 1 ≤ wanted) :
    MeansWeekdays time weekdayText countText dayText weekday n wanted ↔
      ¬ (n = 5 ∧ time.lastDayOfMonth = 28 ∧ time.dayOfWeek = weekday ∧ time.day ≤ 7) := by
  have nthCorrect :
      Answers (matchDayOfWeek (weekdayText ++ 35 :: countText) time) (IsNthWeekday time weekday n) ↔
        ¬ (n = 5 ∧ time.lastDayOfMonth = 28 ∧ time.dayOfWeek = weekday ∧ time.day ≤ 7) := by
    rw [answers_congr (matchDayOfWeek_nth inClock isWeekday isCount firstWeekday lastWeekday
      firstCount lastCount), lastDayOfMonth_eq]
    exact nthDay_correct_iff inClock.nonneg firstCount lastCount
  constructor
  · intro means
    exact nthCorrect.mp means.nth
  · intro notFifth
    refine ⟨nthCorrect.mpr notFifth, ?_, ?_, ?_⟩
    · exact matchDayOfWeek_last inClock isWeekday firstWeekday lastWeekday
    · exact matchDayOfMonth_nearest inClock isDay firstDay
    · intro other otherNonneg sameYear sameMonth matched otherMatched
      obtain ⟨_, returned, correct⟩ := matchDayOfMonth_nearest inClock isDay firstDay
      obtain ⟨_, otherReturned, otherCorrect⟩ := matchDayOfMonth_nearest
        (inClock_of_sameMonth inClock otherNonneg sameYear sameMonth) isDay firstDay
      cases returned.symm.trans matched
      cases otherReturned.symm.trans otherMatched
      have isOther := otherCorrect.mp rfl
      rw [sameYear, sameMonth] at isOther
      exact isOther.unique (correct.mp rfl)

/-- 29 February 2024 is a fifth Thursday. -/
theorem meansWeekdays_iff_leapDay :
    MeansWeekdays (ofTimePoint (toDays 2024 2 29 * dayTicks)) (ascii "4") (ascii "5") (ascii "31")
      4 5 31 :=
  (meansWeekdays_iff ⟨by decide, by decide⟩ ⟨by decide, List.all_eq_true.mp rfl, rfl, by decide⟩ (by decide)
    (by decide) ⟨by decide, List.all_eq_true.mp rfl, rfl, by decide⟩ (by decide) (by decide)
    ⟨by decide, List.all_eq_true.mp rfl, rfl, by decide⟩ (by decide)).mpr (by decide)

/-- 1 February 2021 is a Monday, and taken for the fifth of its month. -/
theorem firstMonday_taken_for_fifth :
    matchDayOfWeek (ascii "1#5") (ofTimePoint (toDays 2021 2 1 * dayTicks)) = .ok true ∧
      ¬ IsNthWeekday (ofTimePoint (toDays 2021 2 1 * dayTicks)) 1 5 := by
  refine ⟨rfl, ?_⟩
  rw [isNthWeekday_iff (by decide)]
  decide

end BabyLuigi.Cron
