import BabyLuigi.Cron.FieldElementsProperties
import BabyLuigi.Cron.MatchingProperties

/-! The accepted schedules that a search can match against every date. -/

set_option autoImplicit false

namespace BabyLuigi.Cron

open DateTime

variable {time : DateTime} {element value : Str}

/-! ### Days of the month -/

theorem nearestOffset_returns (inClock : InClock time) (offsets : List Int) :
    ∃ day, nearestOffset time offsets = .ok day := by
  have length := lengthOfMonth_bounds time.year time.month
  induction offsets with
  | nil => exact ⟨_, rfl⟩
  | cons offset rest ih =>
      rw [nearestOffset]
      split
      · rename_i inMonth
        rw [lastDayOfMonth_eq] at inMonth
        rw [bind_of_ok (inClock.ofDate_ok (by omega) (by omega)).1]
        split
        · exact ⟨_, rfl⟩
        · exact ih
      · exact ih

theorem calcNearestWeekday_returns (inClock : InClock time) :
    ∃ day, calcNearestWeekday time = .ok day := by
  rw [calcNearestWeekday]
  split
  · exact ⟨_, rfl⟩
  · exact nearestOffset_returns inClock _

/-- A date built in the month of a time that fits is that date, and fits. -/
theorem DateTime.InClock.date_of_ofDate {target : DateTime} {day : Int} (inClock : InClock time)
    (built : ofDate time.year time.month day = .ok target)
    (inMonth : day ≤ lengthOfMonth time.year time.month) :
    InClock target ∧ target.year = time.year ∧ target.month = time.month ∧ target.day = day := by
  obtain ⟨_, _, _, firstDay, lastDay, _⟩ := ofDate_eq_ok built
  have fits := (inClock.ofDate_ok firstDay lastDay).2
  obtain ⟨year, month, isDay⟩ := DateTime.date_of_ofDate built inMonth fits
  exact ⟨inClock_of_sameMonth inClock (midnight_ofDate built fits).1 year month, year, month, isDay⟩

/-- The last day of the month, with room for a week before it. -/
theorem DateTime.InClock.exists_lastDay (inClock : InClock time) :
    ∃ last, ofDate time.year time.month time.lastDayOfMonth = .ok last ∧ InClock last ∧
      (7 : Nat) * dayTicks ≤ last.timePoint := by
  have length := lengthOfMonth_bounds time.year time.month
  obtain ⟨built, fits⟩ := inClock.ofDate_ok (show 1 ≤ time.lastDayOfMonth by
    rw [lastDayOfMonth_eq]; omega) (by rw [lastDayOfMonth_eq]; omega)
  obtain ⟨lastInClock, _⟩ := inClock.date_of_ofDate built le_rfl
  obtain ⟨valid, _, _⟩ := validDate inClock.nonneg
  have days := toDays_nonneg (year_ge inClock.nonneg) valid.firstMonth valid.lastMonth time.lastDayOfMonth
  refine ⟨_, built, lastInClock, ?_⟩
  rw [(midnight_ofDate built fits).2]
  rw [lastDayOfMonth_eq] at days ⊢
  exact Int.mul_le_mul_of_nonneg_right (by omega) (by decide)

/-- A nearest weekday is matched if and only if its day is a number from 1. -/
theorem matchNearestWeekday_returns_iff (inClock : InClock time)
    (weekday : parseNearestWeekday value ≠ []) :
    (∃ matched, matchDayOfMonth value time = .ok matched) ↔
      ∃ day, stoi (parseNearestWeekday value) = .ok day ∧ 1 ≤ day := by
  have length := lengthOfMonth_bounds time.year time.month
  rw [matchDayOfMonth_workday weekday]
  constructor
  · intro returned
    obtain ⟨matched, result⟩ := returned
    obtain ⟨day, converted, result⟩ := bind_eq_ok.mp result
    obtain ⟨target, built, _⟩ := bind_eq_ok.mp result
    have since := (ofDate_eq_ok built).2.2.2.1
    exact ⟨day, converted, by omega⟩
  · intro converts
    obtain ⟨day, converted, positive⟩ := converts
    have dayBounds : 1 ≤ min day time.lastDayOfMonth ∧ min day time.lastDayOfMonth ≤ 31 := by
      rw [lastDayOfMonth_eq]
      omega
    have built := (inClock.ofDate_ok dayBounds.1 dayBounds.2).1
    have target := (inClock.date_of_ofDate built (min_le_right _ _)).1
    obtain ⟨nearest, found⟩ := calcNearestWeekday_returns target
    rw [bind_of_ok converted, bind_of_ok built, bind_of_ok found]
    exact ⟨_, rfl⟩

/-! ### Days of the week -/

/-- The days of the week whose suffix, if any, converts: a last one from 0 to
6, a counted one with both its numbers, or a list of numbers. -/
inductive DayOfWeekConverts (element : Str) : Prop where
  | any : element = ascii "?" → DayOfWeekConverts element
  | last {target : Int} : parseLastDayOfWeek element ≠ [] →
      stoi (parseLastDayOfWeek element) = .ok target → 0 ≤ target → target ≤ 6 →
      DayOfWeekConverts element
  | nth {target count : Int} : parseLastDayOfWeek element = [] →
      (parseNthDayOfWeek element).1 ≠ [] → stoi (parseNthDayOfWeek element).1 = .ok target →
      stoi (parseNthDayOfWeek element).2 = .ok count → DayOfWeekConverts element
  | numbers {list : List Int} : parseLastDayOfWeek element = [] →
      (parseNthDayOfWeek element).1 = [] → createList .dayOfWeek element = .ok list →
      DayOfWeekConverts element

theorem matchNumber_returns_iff {field : CronFieldPos} (alone : listChar ∉ value) (number : Int) :
    (∃ matched, matchNumber field value number = .ok matched) ↔
      ∃ list, createList field value = .ok list := by
  unfold matchNumber
  split
  · rename_i every
    subst every
    exact ⟨fun _ => ⟨[-1], by cases field <;> rfl⟩, fun _ => ⟨true, rfl⟩⟩
  · split
    · constructor
      · intro returned
        obtain ⟨_, result⟩ := returned
        obtain ⟨list, created, _⟩ := bind_eq_ok.mp result
        exact ⟨list, created⟩
      · intro created
        obtain ⟨list, created⟩ := created
        exact ⟨_, by rw [bind_of_ok created]; rfl⟩
    · rename_i scalar
      simp only [Bool.or_eq_true, not_or, Bool.not_eq_true] at scalar
      by_cases empty : value = []
      · subst empty
        exact ⟨fun _ => ⟨[], rfl⟩, fun _ => ⟨_, by cases field <;> rfl⟩⟩
      · have single : splitList value = [value] := split_of_absent empty alone
        have literal : createElement field value = do return [← fromLiteral field value] := by
          simp only [createElement, scalar, Bool.or_self, Bool.false_eq_true, if_false]
        simp only [createList, single, List.mapM_cons, List.mapM_nil, literal]
        cases fromLiteral field value with
        | error fault => simp [bind, Except.bind]
        | ok number => simp [bind, Except.bind, pure, Except.pure]

theorem dayOfWeek_minus_day (nonneg : dayTicks ≤ time.timePoint) (fits : time.timePoint < 2 ^ 63) :
    (time.minus dayTicks).dayOfWeek = (time.dayOfWeek + 6) % 7 := by
  have tick : 0 < dayTicks := by decide
  have moved : time.minus dayTicks = time.plus (-1 * dayTicks) := rfl
  have days : (time.plus (-1 * dayTicks)).daysSinceEpoch = time.daysSinceEpoch + -1 :=
    daysSinceEpoch_plus_days (by omega) (by omega) (by omega)
  rw [dayOfWeek_eq, dayOfWeek_eq, moved, days]
  omega

theorem dayOfWeek_plus_day (nonneg : 0 ≤ time.timePoint)
    (fits : time.timePoint + dayTicks < 2 ^ 63) :
    (time.plus dayTicks).dayOfWeek = (time.dayOfWeek + 1) % 7 := by
  have tick : 0 < dayTicks := by decide
  have moved : time.plus dayTicks = time.plus (1 * dayTicks) := rfl
  have days : (time.plus (1 * dayTicks)).daysSinceEpoch = time.daysSinceEpoch + 1 :=
    daysSinceEpoch_plus_days nonneg (by omega) (by omega)
  rw [dayOfWeek_eq, dayOfWeek_eq, moved, days]
  omega

/-- Seven days back every day of the week has been seen. -/
theorem backToWeekday_returns {target : Int} (first : 0 ≤ target) (last : target ≤ 6)
    (fuel : Nat) : ∀ {time : DateTime}, fuel * dayTicks ≤ time.timePoint → time.timePoint < 2 ^ 63 →
      (time.dayOfWeek - target) % 7 < fuel → ∃ found, backToWeekday target fuel time = .ok found := by
  induction fuel with
  | zero =>
      intro time room fits near
      omega
  | succ fuel ih =>
      intro time room fits near
      obtain ⟨nonneg, day, before, beforeFits⟩ := room_for_dayBefore room fits
      have bounds := dayOfWeek_bounds time
      rw [backToWeekday]
      split
      · refine ih before beforeFits ?_
        rw [dayOfWeek_minus_day day fits]
        omega
      · exact ⟨time, rfl⟩

/-! ### The loop forward

It may run as far as a count says, and so past the end of the ticks. -/

theorem tdiv_of_nonpos {ticks : Int} (negative : ticks ≤ 0) (part : Int) :
    ticks.tdiv part = -(-ticks / part) := by
  rw [← Int.tdiv_eq_ediv_of_nonneg (by omega), Int.neg_tdiv, Int.neg_neg]

theorem daysSinceEpoch_of_negative (negative : time.timePoint ≤ 0) :
    time.daysSinceEpoch = -(-time.timePoint / dayTicks) := tdiv_of_nonpos negative _

/-- A day before 1970 is followed by the next day of the week too. -/
theorem dayOfWeek_plus_day_of_negative (fits : Fits time.timePoint)
    (negative : time.timePoint + dayTicks ≤ 0) :
    (time.plus dayTicks).dayOfWeek = (time.dayOfWeek + 1) % 7 := by
  have tick : 0 < dayTicks := by decide
  have moved : (time.plus dayTicks).timePoint = time.timePoint + dayTicks :=
    timePoint_plus second_dvd_day ⟨by have low := fits.1; omega, by omega⟩
  have back : -(time.timePoint + dayTicks) / dayTicks = -time.timePoint / dayTicks - 1 := by
    simp only [dayTicks, hourTicks, minuteTicks, secondTicks] at *
    omega
  rw [dayOfWeek_eq, dayOfWeek_eq, daysSinceEpoch_of_negative (by omega),
    daysSinceEpoch_of_negative (show time.timePoint ≤ 0 by omega), moved, back]
  omega

/-- Cutting to whole seconds goes towards 1970. -/
theorem timePoint_cut (ticks : Int) :
    (0 ≤ ticks → 0 ≤ (ofTimePoint ticks).timePoint ∧ (ofTimePoint ticks).timePoint ≤ ticks) ∧
      (ticks ≤ 0 → ticks ≤ (ofTimePoint ticks).timePoint ∧
        (ofTimePoint ticks).timePoint < ticks + secondTicks) := by
  constructor
  · intro nonneg
    rw [timePoint_ofTimePoint_of_nonneg nonneg, secondTicks]
    omega
  · intro negative
    have cut : (ofTimePoint ticks).timePoint = -(-ticks / secondTicks) * secondTicks :=
      congrArg (· * secondTicks) (tdiv_of_nonpos negative secondTicks)
    rw [cut, secondTicks]
    omega

theorem fits_plus (time : DateTime) (duration : Int) : Fits (time.plus duration).timePoint := by
  obtain ⟨low, high⟩ := wrap_fits (time.timePoint + duration)
  obtain ⟨later, earlier⟩ := timePoint_cut (wrap (time.timePoint + duration))
  rw [plus]
  rcases le_total 0 (wrap (time.timePoint + duration)) with nonneg | negative
  · exact ⟨by have cut := later nonneg; omega, by have cut := later nonneg; omega⟩
  · have cut := earlier negative
    simp only [secondTicks] at cut
    exact ⟨by omega, by omega⟩

theorem wrap_of_over {ticks : Int} (beyond : 2 ^ 63 ≤ ticks) (once : ticks < 2 ^ 64 + 2 ^ 63) :
    wrap ticks = ticks - 2 ^ 64 := by
  have fits : Fits (ticks - 2 ^ 64) := ⟨by omega, by omega⟩
  rw [← wrap_of_fits fits, wrap, wrap]
  exact (Int.sub_bmod_right ticks (2 ^ 64)).symm

/-- The days until the day of the week, and a week more where the ticks wrap
around or pass 1970 within them. -/
def wait (time : DateTime) (target : Int) : Int :=
  let days := (target - time.dayOfWeek) % 7
  days + if 2 ^ 63 ≤ time.timePoint + days * dayTicks ∨
    time.timePoint < 0 ∧ 0 ≤ time.timePoint + days * dayTicks then 7 else 0

theorem wait_bounds (time : DateTime) (target : Int) :
    0 ≤ wait time target ∧ wait time target ≤ 13 := by
  simp only [wait]
  split <;> omega

/-- A day on, the wait is shorter. -/
theorem wait_plus_day {target : Int} (first : 0 ≤ target) (last : target ≤ 6)
    (fits : Fits time.timePoint) (differ : time.dayOfWeek ≠ target) :
    wait (time.plus dayTicks) target < wait time target := by
  have bounds := dayOfWeek_bounds time
  have nextBounds := dayOfWeek_bounds (time.plus dayTicks)
  have tick : dayTicks = 86400000000000 := rfl
  obtain ⟨low, high⟩ := fits
  by_cases beyond : 2 ^ 63 ≤ time.timePoint + dayTicks
  · obtain ⟨_, cut⟩ := timePoint_cut (wrap (time.timePoint + dayTicks))
    rw [wrap_of_over beyond (by omega)] at cut
    have wrapped : (time.plus dayTicks).timePoint < -2 ^ 62 := by
      rw [plus, wrap_of_over beyond (by omega)]
      have bound := (cut (by omega)).2
      simp only [secondTicks] at bound
      omega
    simp only [wait, tick] at *
    split_ifs <;> omega
  · have moved : (time.plus dayTicks).timePoint = time.timePoint + dayTicks :=
      timePoint_plus second_dvd_day ⟨by omega, by omega⟩
    by_cases regular : 0 ≤ time.timePoint ∨ time.timePoint + dayTicks ≤ 0
    · have following : (time.plus dayTicks).dayOfWeek = (time.dayOfWeek + 1) % 7 :=
        regular.elim (fun nonneg => dayOfWeek_plus_day nonneg (by omega))
          (dayOfWeek_plus_day_of_negative ⟨low, high⟩)
      simp only [wait, tick] at *
      split_ifs <;> omega
    · simp only [wait, tick] at *
      split_ifs <;> omega

/-- The wanted occurrence is met within that many times two weeks, or the month ends. -/
theorem forwardToWeekday_returns {target targetCount lastDay : Int} (first : 0 ≤ target)
    (last : target ≤ 6) (fuel : Nat) : ∀ {time : DateTime} {count : Int}, Fits time.timePoint →
      14 * (max 1 (targetCount - count) - 1) + wait time target < fuel →
      ∃ found, forwardToWeekday target targetCount lastDay fuel time count = .ok found := by
  induction fuel with
  | zero =>
      intro time count fits near
      have bounds := wait_bounds time target
      omega
  | succ fuel ih =>
      intro time count fits near
      have bounds := wait_bounds time target
      have nextBounds := wait_bounds (time.plus dayTicks) target
      have nextFits := fits_plus time dayTicks
      by_cases same : time.dayOfWeek = target
      · simp only [forwardToWeekday, same, if_true, true_and]
        split
        · exact ⟨time, rfl⟩
        · split
          · exact ih nextFits (by omega)
          · exact ⟨_, rfl⟩
      · have shorter := wait_plus_day first last fits same
        simp only [forwardToWeekday, same, if_false, false_and]
        split
        · exact ih nextFits (by omega)
        · exact ⟨_, rfl⟩

theorem nthWeekday_returns {target lastDay : Int} (first : 0 ≤ target) (last : target ≤ 6)
    (count : Int) (fits : Fits time.timePoint) :
    ∃ found, forwardToWeekday target count lastDay (14 * (count.toNat + 1)) time 0 = .ok found := by
  have bounds := wait_bounds time target
  exact forwardToWeekday_returns first last _ fits (by omega)

theorem lastOfMonth_returns_iff (inClock : InClock time) (isLast : parseLastDayOfWeek element ≠ []) :
    (∃ matched, matchDayOfWeek element time = .ok matched) ↔
      ∃ target, stoi (parseLastDayOfWeek element) = .ok target ∧ 0 ≤ target ∧ target ≤ 6 := by
  have length := lengthOfMonth_bounds time.year time.month
  obtain ⟨last, built, lastInClock, room⟩ := inClock.exists_lastDay
  rw [matchDayOfWeek_lastOfMonth isLast, bind_congr fun target => bind_of_ok built _]
  constructor
  · intro returned
    obtain ⟨matched, result⟩ := returned
    obtain ⟨target, converted, result⟩ := bind_eq_ok.mp result
    obtain ⟨found, back, _⟩ := bind_eq_ok.mp result
    obtain ⟨_, rfl⟩ := backToWeekday_spec 7 room lastInClock.fits back
    exact ⟨_, converted, dayOfWeek_bounds found⟩
  · intro converts
    obtain ⟨target, converted, first, last⟩ := converts
    obtain ⟨found, back⟩ := backToWeekday_returns first last 7 room lastInClock.fits (by omega)
    exact ⟨_, by rw [bind_of_ok converted, bind_of_ok back]⟩

theorem nthOfMonth_returns_iff (inClock : InClock time)
    (noLast : parseLastDayOfWeek element = []) (isNth : (parseNthDayOfWeek element).1 ≠ []) :
    (∃ matched, matchDayOfWeek element time = .ok matched) ↔
      ∃ target count, stoi (parseNthDayOfWeek element).1 = .ok target ∧
        stoi (parseNthDayOfWeek element).2 = .ok count := by
  rw [matchDayOfWeek_nthOfMonth noLast isNth]
  constructor
  · intro returned
    obtain ⟨matched, result⟩ := returned
    obtain ⟨target, converted, result⟩ := bind_eq_ok.mp result
    obtain ⟨count, counted, _⟩ := bind_eq_ok.mp result
    exact ⟨target, count, converted, counted⟩
  · intro converts
    obtain ⟨target, count, converted, counted⟩ := converts
    rw [bind_of_ok converted, bind_of_ok counted]
    split
    · exact ⟨_, rfl⟩
    · rename_i sameDay
      have bounds := dayOfWeek_bounds time
      have length := lengthOfMonth_bounds time.year time.month
      have built := (inClock.ofDate_ok le_rfl (by decide)).1
      have firstInClock := (inClock.date_of_ofDate built (by omega)).1
      obtain ⟨found, forward⟩ := nthWeekday_returns (not_not.mp sameDay ▸ bounds.1)
        (not_not.mp sameDay ▸ bounds.2) count ⟨by have nonneg := firstInClock.nonneg; omega,
          firstInClock.fits⟩
      exact ⟨_, by rw [bind_of_ok built, bind_of_ok forward]⟩

theorem matchDayOfWeek_returns_iff (inClock : InClock time) (alone : listChar ∉ element) :
    (∃ matched, matchDayOfWeek element time = .ok matched) ↔ DayOfWeekConverts element := by
  by_cases any : element = ascii "?"
  · refine iff_of_true ⟨true, ?_⟩ (.any any)
    rw [matchDayOfWeek, if_pos any]
    rfl
  by_cases noLast : parseLastDayOfWeek element = []
  · by_cases noNth : (parseNthDayOfWeek element).1 = []
    · rw [matchDayOfWeek_number any noLast noNth, matchNumber_returns_iff alone]
      constructor
      · intro created
        obtain ⟨list, created⟩ := created
        exact .numbers noLast noNth created
      · intro converts
        cases converts with
        | any same => exact absurd same any
        | last isLast => exact absurd noLast isLast
        | nth _ isNth => exact absurd noNth isNth
        | numbers _ _ created => exact ⟨_, created⟩
    · rw [nthOfMonth_returns_iff inClock noLast noNth]
      constructor
      · intro converts
        obtain ⟨target, count, converted, counted⟩ := converts
        exact .nth noLast noNth converted counted
      · intro converts
        cases converts with
        | any same => exact absurd same any
        | last isLast => exact absurd noLast isLast
        | numbers _ isEmpty => exact absurd isEmpty noNth
        | nth _ _ converted counted => exact ⟨_, _, converted, counted⟩
  · rw [lastOfMonth_returns_iff inClock noLast]
    constructor
    · intro converts
      obtain ⟨target, converted, first, last⟩ := converts
      exact .last noLast converted first last
    · intro converts
      cases converts with
      | any same => exact absurd same any
      | nth isEmpty => exact absurd isEmpty noLast
      | numbers isEmpty => exact absurd isEmpty noLast
      | last _ converted first last => exact ⟨_, converted, first, last⟩

/-! ### Schedules -/

/-- The elements by which a field is matched, in the order they are tried. -/
def elements (value : Str) : List Str := if hasList value then splitList value else [value]

/-- The element is tried on the date: none before it matches. -/
def Tried (field : CronFieldPos) (time : DateTime) (values : List Str) (element : Str) : Prop :=
  ∃ earlier later, values = earlier ++ element :: later ∧
    ∀ other ∈ earlier, matchField field other time = .ok false

theorem elements_eq (nonempty : value ≠ []) : elements value = splitList value := by
  unfold elements
  split
  · rfl
  · rename_i notList
    rw [hasList, mem_of_contains] at notList
    exact (split_of_absent nonempty notList).symm

theorem elements_alone (member : element ∈ elements value) : listChar ∉ element := by
  unfold elements at member
  split at member
  · exact (of_mem_split value element member).1
  · rename_i notList
    rw [hasList, mem_of_contains] at notList
    rwa [List.mem_singleton.mp member]

theorem Tried.mem {field : CronFieldPos} {values : List Str} (tried : Tried field time values element) :
    element ∈ values := by
  obtain ⟨earlier, later, rfl, _⟩ := tried
  simp

theorem anyMatches_returns_iff {field : CronFieldPos} {values : List Str} :
    (∃ matched, CronExpression.anyMatches field time values = .ok matched) ↔
      ∀ element, Tried field time values element →
        ∃ matched, matchField field element time = .ok matched := by
  induction values with
  | nil =>
      refine ⟨fun _ element tried => ?_, fun _ => ⟨false, rfl⟩⟩
      cases tried.mem
  | cons first rest ih =>
      constructor
      · intro returned element tried
        obtain ⟨matched, result⟩ := returned
        obtain ⟨firstMatched, tested, result⟩ := bind_eq_ok.mp result
        obtain ⟨earlier, later, split, unmatched⟩ := tried
        cases earlier with
        | nil =>
            obtain ⟨rfl, _⟩ := List.cons.inj split
            exact ⟨_, tested⟩
        | cons head tail =>
            obtain ⟨rfl, more⟩ := List.cons.inj split
            obtain ⟨headUnmatched, tailUnmatched⟩ := List.forall_mem_cons.mp unmatched
            cases tested.symm.trans headUnmatched
            exact ih.mp ⟨matched, result⟩ element ⟨tail, later, more, tailUnmatched⟩
      · intro each
        obtain ⟨firstMatched, tested⟩ := each first ⟨[], rest, rfl, by simp⟩
        rw [CronExpression.anyMatches, bind_of_ok tested]
        cases firstMatched with
        | true => exact ⟨true, rfl⟩
        | false =>
            refine ih.mpr fun element tried => each element ?_
            obtain ⟨earlier, later, rfl, unmatched⟩ := tried
            exact ⟨first :: earlier, later, rfl, List.forall_mem_cons.mpr ⟨tested, unmatched⟩⟩

namespace CronExpression

variable {expression : CronExpression} {text : Str}

theorem fieldMatches_eq (field : CronFieldPos) : expression.fieldMatches time field =
    if expression.value field = ascii "*" then .ok true
    else anyMatches field time (elements (expression.value field)) := by
  unfold fieldMatches elements
  dsimp only
  split
  · rfl
  · split
    · rfl
    · simp only [anyMatches]
      cases matchField field (expression.value field) time with
      | error fault => rfl
      | ok matched => cases matched <;> rfl

theorem validated_of_ofText (parsed : ofText text = .ok expression) (field : CronFieldPos) :
    Validated field (expression.value field) := by
  unfold ofText at parsed
  split at parsed
  · have valid {position : CronFieldPos} {value : Str} {checked : Unit}
        (required : requireValid position value = .ok checked) : Validated position value := by
      obtain ⟨passed, validated, result⟩ := bind_eq_ok.mp required
      cases passed with
      | true => exact ⟨_, validated⟩
      | false => cases result
    obtain ⟨_, minute, parsed⟩ := bind_eq_ok.mp parsed
    obtain ⟨_, hour, parsed⟩ := bind_eq_ok.mp parsed
    obtain ⟨_, dayOfMonth, parsed⟩ := bind_eq_ok.mp parsed
    obtain ⟨_, month, parsed⟩ := bind_eq_ok.mp parsed
    obtain ⟨_, dayOfWeek, parsed⟩ := bind_eq_ok.mp parsed
    obtain rfl := pure_eq_ok.mp parsed
    cases field with
    | minute => exact valid minute
    | hour => exact valid hour
    | dayOfMonth => exact valid dayOfMonth
    | month => exact valid month
    | dayOfWeek => exact valid dayOfWeek
  · cases parsed

end CronExpression

theorem matchField_returns {field : CronFieldPos} (plain : Plain field value)
    (validated : Validated field value) (member : element ∈ elements value) (time : DateTime) :
    ∃ matched, matchField field element time = .ok matched := by
  have unsuffixed := plain.unsuffixed
  rw [elements_eq (nonempty_of_validated unsuffixed validated)] at member
  have numbers := matchNumber_of_validated unsuffixed validated element member
  cases field with
  | minute => exact numbers _
  | hour => exact numbers _
  | month => exact numbers _
  | dayOfWeek => exact absurd rfl plain.1
  | dayOfMonth =>
      have noWeekday := (unsuffixed.part (of_mem_split value element member).2).noWeekday
      simp only [matchField, matchDayOfMonth, noWeekday]
      split
      · exact ⟨_, rfl⟩
      · split
        · exact ⟨_, rfl⟩
        · exact numbers _

namespace CronExpression

variable {expression : CronExpression} {text : Str}

theorem fieldMatches_returns {field : CronFieldPos} (plain : Plain field (expression.value field))
    (validated : Validated field (expression.value field)) (time : DateTime) :
    ∃ matched, expression.fieldMatches time field = .ok matched := by
  rw [fieldMatches_eq]
  split
  · exact ⟨true, rfl⟩
  · exact anyMatches_returns_iff.mpr fun element tried =>
      matchField_returns plain validated tried.mem time

/-- The texts behind suffixes that a search converts on a date are numbers. -/
structure Converts (expression : CronExpression) (time : DateTime) : Prop where
  dayOfMonth : expression.fieldMatches time .month = .ok true →
    parseNearestWeekday expression.dayOfMonth ≠ [] →
    ∃ day, stoi (parseNearestWeekday expression.dayOfMonth) = .ok day ∧ 1 ≤ day
  dayOfWeek : expression.fieldMatches time .month = .ok true →
    expression.fieldMatches time .dayOfMonth = .ok true → expression.dayOfWeek ≠ ascii "*" →
    ∀ element, Tried .dayOfWeek time (elements expression.dayOfWeek) element →
      DayOfWeekConverts element

theorem firstMismatch_returns_cons {field : CronFieldPos} {rest : List CronFieldPos} :
    (∃ mismatch, expression.firstMismatch time (field :: rest) = .ok mismatch) ↔
      ∃ matched, expression.fieldMatches time field = .ok matched ∧
        (matched = true → ∃ mismatch, expression.firstMismatch time rest = .ok mismatch) := by
  rw [firstMismatch]
  constructor
  · intro returned
    obtain ⟨mismatch, result⟩ := returned
    obtain ⟨matched, tested, result⟩ := bind_eq_ok.mp result
    refine ⟨matched, tested, ?_⟩
    rintro rfl
    exact ⟨mismatch, result⟩
  · intro returns
    obtain ⟨matched, tested, rest⟩ := returns
    rw [bind_of_ok tested]
    cases matched with
    | false => exact ⟨_, rfl⟩
    | true => exact rest rfl

theorem dayOfMonth_returns_iff (validated : Validated .dayOfMonth expression.dayOfMonth)
    (inClock : InClock time) :
    (∃ matched, expression.fieldMatches time .dayOfMonth = .ok matched) ↔
      (parseNearestWeekday expression.dayOfMonth ≠ [] →
        ∃ day, stoi (parseNearestWeekday expression.dayOfMonth) = .ok day ∧ 1 ≤ day) := by
  rcases dayOfMonth_cases validated with ⟨weekday, alone⟩ | plain
  · have notEvery : expression.dayOfMonth ≠ ascii "*" := by
      intro every
      rw [every] at weekday
      exact weekday rfl
    have single : elements expression.dayOfMonth = [expression.dayOfMonth] := by
      rw [elements, if_neg (by simpa [hasList] using alone)]
    rw [fieldMatches_eq, value, if_neg notEvery, single, anyMatches_returns_iff]
    have returns := matchNearestWeekday_returns_iff inClock weekday
    constructor
    · exact fun each _ => returns.mp (each _ ⟨[], [], rfl, by simp⟩)
    · intro converts element tried
      obtain rfl := List.mem_singleton.mp tried.mem
      exact returns.mpr (converts weekday)
  · exact iff_of_true (fieldMatches_returns plain validated time) fun weekday =>
      absurd plain.unsuffixed.noWeekday weekday

theorem dayOfWeek_returns_iff (expression : CronExpression) (inClock : InClock time) :
    (∃ matched, expression.fieldMatches time .dayOfWeek = .ok matched) ↔
      (expression.dayOfWeek ≠ ascii "*" →
        ∀ element, Tried .dayOfWeek time (elements expression.dayOfWeek) element →
          DayOfWeekConverts element) := by
  rw [fieldMatches_eq, value]
  split
  · rename_i every
    exact iff_of_true ⟨true, rfl⟩ fun notEvery => absurd every notEvery
  · rename_i notEvery
    rw [anyMatches_returns_iff]
    have each {element : Str} (tried : Tried .dayOfWeek time (elements expression.dayOfWeek) element) :=
      matchDayOfWeek_returns_iff inClock (elements_alone tried.mem)
    exact ⟨fun returns _ element tried => (each tried).mp (returns element tried),
      fun converts element tried => (each tried).mpr (converts notEvery element tried)⟩

/-- On a date before April 2262 the matchers of an accepted schedule throw
nothing exactly if the texts behind its suffixes convert. -/
theorem firstMismatch_returns_iff (parsed : ofText text = .ok expression)
    (inClock : InClock time) :
    (∃ mismatch, expression.firstMismatch time fieldOrder = .ok mismatch) ↔
      expression.Converts time := by
  have validated := validated_of_ofText parsed
  have numbers (field : CronFieldPos) (plain : Plain field (expression.value field)) :=
    fieldMatches_returns plain (validated field) time
  have dayOfMonth := dayOfMonth_returns_iff (validated .dayOfMonth) inClock
  have dayOfWeek := dayOfWeek_returns_iff expression inClock
  obtain ⟨monthMatched, month⟩ := numbers .month (plain_of_numbers (by decide))
  simp only [fieldOrder, firstMismatch_returns_cons]
  constructor
  · intro returns
    obtain ⟨_, tested, rest⟩ := returns
    cases month.symm.trans tested
    constructor
    · intro monthHolds
      cases month.symm.trans monthHolds
      obtain ⟨matched, tested, _⟩ := rest rfl
      exact dayOfMonth.mp ⟨matched, tested⟩
    · intro monthHolds dayHolds
      cases month.symm.trans monthHolds
      obtain ⟨matched, tested, rest⟩ := rest rfl
      cases dayHolds.symm.trans tested
      obtain ⟨matched, tested, _⟩ := rest rfl
      exact dayOfWeek.mp ⟨matched, tested⟩
  · intro converts
    refine ⟨monthMatched, month, ?_⟩
    rintro rfl
    obtain ⟨dayMatched, day⟩ := dayOfMonth.mpr (converts.dayOfMonth month)
    refine ⟨dayMatched, day, ?_⟩
    rintro rfl
    obtain ⟨weekMatched, week⟩ := dayOfWeek.mpr (converts.dayOfWeek month day)
    obtain ⟨hourMatched, hour⟩ := numbers .hour (plain_of_numbers (by decide))
    obtain ⟨minuteMatched, minute⟩ := numbers .minute (plain_of_numbers (by decide))
    exact ⟨weekMatched, week, fun _ => ⟨hourMatched, hour, fun _ => ⟨minuteMatched, minute,
      fun _ => ⟨none, rfl⟩⟩⟩⟩

end CronExpression

end BabyLuigi.Cron
