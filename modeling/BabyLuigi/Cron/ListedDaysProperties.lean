import BabyLuigi.Cron.ListedNumbersProperties
import BabyLuigi.Cron.FrequencyProperties

/-! The accepted schedules whose labels are true. -/

set_option autoImplicit false

namespace BabyLuigi.Cron.CronExpression

open DateTime

variable {expression : CronExpression} {text : Str} {time : DateTime}

/-! ### Listed days -/

/-- At most one number of the field is on the list of the text. -/
def OneNumber (field : CronFieldPos) (value : Str) : Prop :=
  ∀ list, createList field value = .ok list → ∀ first ∈ list, ∀ second ∈ list,
    field.rangeStart ≤ first → field.rangeStart ≤ second → first = second

theorem dayMatches_listed {field : CronFieldPos} {list : List Int}
    (listed : ∀ time, expression.fieldMatches time field = .ok (decide (number time field ∈ list)))
    (time : DateTime) : expression.DayMatches [field] time ↔ number time field ∈ list := by
  simp only [DayMatches, List.mem_singleton, forall_eq, listed, Except.ok.injEq]
  exact decide_eq_true_iff

theorem exists_day (days : Int) (since : 0 ≤ days) (early : days < clockEnd) :
    ∃ time : DateTime, InClock time ∧ time.daysSinceEpoch = days := by
  obtain ⟨time, isMinute, isDay, _⟩ :=
    exists_minute since le_rfl (show (0 : Int) < 24 by decide) le_rfl (by decide)
  exact ⟨time, ⟨isMinute.nonneg, isDay ▸ early⟩, isDay⟩

theorem namesNumbers_dayOfWeek (plain : Unsuffixed .dayOfWeek expression.dayOfWeek)
    (validated : Validated .dayOfWeek expression.dayOfWeek)
    (notEvery : expression.dayOfWeek ≠ ascii "*")
    (closed : ascii "?" ∉ splitList expression.dayOfWeek) :
    NamesNumbers .dayOfWeek expression.dayOfWeek := by
  intro element member
  refine ⟨elements_notEvery plain validated notEvery element member, fun _ => ?_, nofun⟩
  rintro rfl
  exact closed member

/-- An element left open matches every day. -/
theorem fieldMatches_open (plain : Unsuffixed .dayOfWeek expression.dayOfWeek)
    (validated : Validated .dayOfWeek expression.dayOfWeek)
    (notEvery : expression.dayOfWeek ≠ ascii "*")
    (isOpen : ascii "?" ∈ splitList expression.dayOfWeek) (time : DateTime) :
    expression.fieldMatches time .dayOfWeek = .ok true := by
  have pieces : elements expression.dayOfWeek = splitList expression.dayOfWeek :=
    elements_eq (nonempty_of_validated plain validated)
  have anyTime : matchField .dayOfWeek (ascii "?") time = .ok true := rfl
  have returns (element : Str) (member : element ∈ splitList expression.dayOfWeek) :
      ∃ matched, matchField .dayOfWeek element time = .ok matched := by
    by_cases isAny : element = ascii "?"
    · exact ⟨true, isAny ▸ anyTime⟩
    · obtain ⟨alone, sub⟩ := of_mem_split _ element member
      obtain ⟨nonempty, part, created, _⟩ := (reads_of_validated plain validated).2 element member
      have names : NamesNumbers .dayOfWeek element := by
        intro piece isPiece
        rw [splitList, split_of_absent nonempty alone] at isPiece
        rw [List.mem_singleton.mp isPiece]
        exact ⟨elements_notEvery plain validated notEvery element member, fun _ => isAny,
          fun isDay => absurd isDay (by decide)⟩
      exact ⟨_, matchField_listed (plain.part sub) nonempty alone names created⟩
  have tested : ∃ matched, anyMatches .dayOfWeek time (splitList expression.dayOfWeek) = .ok matched :=
    anyMatches_returns_iff.mpr fun element tried => returns element tried.mem
  obtain ⟨matched, result⟩ := tested
  have fits := (anyMatches_eq_ok result).mpr ⟨_, isOpen, anyTime⟩
  rw [fieldMatches_eq, value, if_neg notEvery, pieces, result, fits]

theorem daysApart_weekly_iff (plain : Unsuffixed .dayOfWeek expression.dayOfWeek)
    (validated : Validated .dayOfWeek expression.dayOfWeek)
    (notEvery : expression.dayOfWeek ≠ ascii "*") :
    expression.DaysApart [.dayOfWeek] .weekly ↔
      ascii "?" ∉ splitList expression.dayOfWeek ∧ OneNumber .dayOfWeek expression.dayOfWeek := by
  by_cases isOpen : ascii "?" ∈ splitList expression.dayOfWeek
  · refine iff_of_false ?_ fun closed => closed.1 isOpen
    intro apart
    obtain ⟨sunday, inClock, isSunday⟩ := exists_day 3 (by decide) (by decide)
    obtain ⟨monday, mondayInClock, isMonday⟩ := exists_day 4 (by decide) (by decide)
    have every (time : DateTime) : expression.DayMatches [.dayOfWeek] time := fun field member =>
      List.mem_singleton.mp member ▸ fieldMatches_open plain validated notEvery isOpen time
    have same := apart sunday monday inClock mondayInClock (every _) (every _)
      (by rw [InOnePeriod, isSunday, isMonday]; decide)
    omega
  · obtain ⟨list, created, bounded, listed⟩ := fieldMatches_listed .dayOfWeek plain validated
      (namesNumbers_dayOfWeek plain validated notEvery isOpen)
    have matched (time : DateTime) : expression.DayMatches [.dayOfWeek] time ↔ time.dayOfWeek ∈ list :=
      dayMatches_listed listed time
    rw [and_iff_right isOpen]
    constructor
    · intro apart again createdAgain first inFirst second inSecond firstLow secondLow
      cases created.symm.trans createdAgain
      have firstHigh := bounded first inFirst
      have secondHigh := bounded second inSecond
      simp only [CronFieldPos.rangeStart, CronFieldPos.rangeEnd] at *
      have number : clockEnd = 106741 := rfl
      obtain ⟨time, inClock, isDay⟩ := exists_day (3 + first) (by omega) (by omega)
      obtain ⟨other, otherInClock, isOther⟩ := exists_day (3 + second) (by omega) (by omega)
      have timeWeekday : time.dayOfWeek = first := by
        rw [dayOfWeek_eq time, isDay]
        omega
      have otherWeekday : other.dayOfWeek = second := by
        rw [dayOfWeek_eq other, isOther]
        omega
      have same := apart time other inClock otherInClock ((matched _).mpr (timeWeekday ▸ inFirst))
        ((matched _).mpr (otherWeekday ▸ inSecond))
        (by rw [InOnePeriod, isDay, isOther]; omega)
      omega
    · intro one time other inClock otherInClock timeMatches otherMatches together
      have same := one list created _ ((matched time).mp timeMatches) _
        ((matched other).mp otherMatches) (dayOfWeek_bounds time).1 (dayOfWeek_bounds other).1
      rw [dayOfWeek_eq time, dayOfWeek_eq other] at same
      simp only [InOnePeriod] at together
      omega

/-! ### Listed days of the month -/

theorem exists_date {year month day : Int} (valid : ValidDate year month day) (since : 1970 ≤ year)
    (upTo : year ≤ 2261) :
    ∃ time : DateTime, InClock time ∧ time.year = year ∧ time.month = month ∧ time.day = day := by
  have days := toDays_nonneg since valid.firstMonth valid.lastMonth day
  have firstDay := valid.firstDay
  have length := lengthOfMonth_bounds year month
  have lastDay := valid.lastDay
  have before := toDays_le_nextYear (show 1 ≤ year by omega) valid.firstMonth valid.lastMonth
    (show day ≤ 31 by omega)
  have mono := newYear_mono (show 1 ≤ year + 1 by omega) (show year + 1 ≤ 2262 by omega)
  have newYear : toDays 2262 1 1 = 106651 := rfl
  have number : clockEnd = 106741 := rfl
  obtain ⟨time, inClock, isDay⟩ := exists_day (toDays year month day) (by omega) (by omega)
  exact ⟨time, inClock, date_of_days valid (by omega) isDay⟩

theorem namesNumbers_dayOfMonth (plain : Unsuffixed .dayOfMonth expression.dayOfMonth)
    (validated : Validated .dayOfMonth expression.dayOfMonth)
    (notAny : isStarLike expression.dayOfMonth = false) (notLast : expression.dayOfMonth ≠ ascii "L") :
    NamesNumbers .dayOfMonth expression.dayOfMonth := by
  have notOpen := ne_of_not_starLike notAny
  intro element member
  refine ⟨elements_notEvery plain validated notOpen.1 element member, fun _ => ?_, fun _ => ?_⟩
  all_goals by_cases isList : listChar ∈ expression.dayOfMonth
  · rintro rfl
    have isPart : (63 : UInt8) ∈ ascii "?" := by decide
    exact (dayOfMonth_list validated isList).2 ((of_mem_split _ _ member).2 isPart)
  · rw [splitList, split_of_absent (nonempty_of_validated plain validated) isList] at member
    rw [List.mem_singleton.mp member]
    exact notOpen.2
  · rintro rfl
    have isPart : (76 : UInt8) ∈ ascii "L" := by decide
    exact (dayOfMonth_list validated isList).1 ((of_mem_split _ _ member).2 isPart)
  · rw [splitList, split_of_absent (nonempty_of_validated plain validated) isList] at member
    rw [List.mem_singleton.mp member]
    exact notLast

theorem simple_of_last {value : Str} (isLast : value = ascii "L") : isSimpleValue value = true := by
  rw [isLast]
  rfl

/-- The days of a month without last day and nearest workday are listed. -/
theorem daysApart_monthly_iff (validated : Validated .dayOfMonth expression.dayOfMonth)
    (notAny : isStarLike expression.dayOfMonth = false) :
    expression.DaysApart [.dayOfMonth] .monthly ↔
      expression.dayOfMonth = ascii "L" ∨ 87 ∈ expression.dayOfMonth ∨
        OneNumber .dayOfMonth expression.dayOfMonth := by
  by_cases single : expression.dayOfMonth = ascii "L" ∨ 87 ∈ expression.dayOfMonth
  · have simple : isSimpleValue expression.dayOfMonth = true ∨ 87 ∈ expression.dayOfMonth :=
      single.imp_left simple_of_last
    exact iff_of_true (daysApart_monthly_of_single validated simple notAny)
      (or_assoc.mp (.inl single))
  · obtain ⟨notLast, noWeekday⟩ := not_or.mp single
    have plain : Unsuffixed .dayOfMonth expression.dayOfMonth := ⟨nofun, fun _ => noWeekday⟩
    obtain ⟨list, created, bounded, listed⟩ := fieldMatches_listed .dayOfMonth plain validated
      (namesNumbers_dayOfMonth plain validated notAny notLast)
    have matched (time : DateTime) : expression.DayMatches [.dayOfMonth] time ↔ time.day ∈ list :=
      dayMatches_listed listed time
    rw [← or_assoc, or_iff_right single]
    constructor
    · intro apart again createdAgain first inFirst second inSecond firstLow secondLow
      cases created.symm.trans createdAgain
      have january (day : Int) (inDays : day ∈ list) (low : 1 ≤ day) : ValidDate 1970 1 day :=
        ⟨le_rfl, by decide, low, bounded day inDays⟩
      obtain ⟨time, inClock, year, month, isFirst⟩ :=
        exists_date (january _ inFirst firstLow) le_rfl (by decide)
      obtain ⟨other, otherInClock, otherYear, otherMonth, isSecond⟩ :=
        exists_date (january _ inSecond secondLow) le_rfl (by decide)
      have same := apart time other inClock otherInClock ((matched _).mpr (isFirst ▸ inFirst))
        ((matched _).mpr (isSecond ▸ inSecond))
        ⟨year.trans otherYear.symm, month.trans otherMonth.symm⟩
      rw [← isFirst, ← isSecond, DateTime.day, DateTime.day, same]
    · intro one time other inClock otherInClock timeMatches otherMatches together
      exact days_eq_of_date inClock.nonneg otherInClock.nonneg together.1 together.2
        (one list created _ ((matched time).mp timeMatches) _ ((matched other).mp otherMatches)
          (validDate inClock.nonneg).1.firstDay (validDate otherInClock.nonneg).1.firstDay)

/-! ### Listed months -/

theorem listed_month (validated : Validated .month expression.month)
    (notAny : isStarLike expression.month = false) :
    ∃ list, createList .month expression.month = .ok list ∧
      (∀ number ∈ list, number ≤ 12) ∧
      ∀ time, expression.fieldMatches time .month = .ok (decide (time.month ∈ list)) := by
  have notEvery := (ne_of_not_starLike notAny).1
  have plain : Unsuffixed .month expression.month := ⟨nofun, nofun⟩
  exact fieldMatches_listed .month plain validated fun element member =>
    ⟨elements_notEvery plain validated notEvery element member, nofun, nofun⟩

/-- Where each month has one matching day the listed months decide. -/
theorem daysApart_yearly_of_oneDay (validated : Validated .month expression.month)
    (notAny : isStarLike expression.month = false)
    (anyWeekday : ∀ time, expression.fieldMatches time .dayOfWeek = .ok true)
    (oneDay : ∀ time other : DateTime, time.year = other.year → time.month = other.month →
      expression.fieldMatches time .dayOfMonth = .ok true →
      expression.fieldMatches other .dayOfMonth = .ok true → time.day = other.day)
    (someDay : ∀ month, 1 ≤ month → month ≤ 12 → ∃ time : DateTime, InClock time ∧
      time.year = 2000 ∧ time.month = month ∧ expression.fieldMatches time .dayOfMonth = .ok true) :
    expression.DaysApart dateFields .yearly ↔ OneNumber .month expression.month := by
  obtain ⟨list, created, bounded, listed⟩ := listed_month validated notAny
  have matched (time : DateTime) : expression.DayMatches dateFields time ↔
      time.month ∈ list ∧ expression.fieldMatches time .dayOfMonth = .ok true := by
    simp only [DayMatches, dateFields, List.mem_cons, List.not_mem_nil, or_false, forall_eq_or_imp,
      forall_eq, anyWeekday, and_true, listed, Except.ok.injEq]
    rw [decide_eq_true_iff]
  constructor
  · intro apart again createdAgain first inFirst second inSecond firstLow secondLow
    cases created.symm.trans createdAgain
    obtain ⟨time, inClock, year, isFirst, timeDay⟩ := someDay first firstLow (bounded _ inFirst)
    obtain ⟨other, otherInClock, otherYear, isSecond, otherDay⟩ :=
      someDay second secondLow (bounded _ inSecond)
    have same := apart time other inClock otherInClock
      ((matched time).mpr ⟨isFirst ▸ inFirst, timeDay⟩)
      ((matched other).mpr ⟨isSecond ▸ inSecond, otherDay⟩) (year.trans otherYear.symm)
    rw [← isFirst, ← isSecond, DateTime.month, DateTime.month, same]
  · intro one time other inClock otherInClock timeMatches otherMatches together
    obtain ⟨inFirst, timeDay⟩ := (matched time).mp timeMatches
    obtain ⟨inSecond, otherDay⟩ := (matched other).mp otherMatches
    have sameMonth := one list created _ inFirst _ inSecond (validDate inClock.nonneg).1.firstMonth
      (validDate otherInClock.nonneg).1.firstMonth
    exact days_eq_of_date inClock.nonneg otherInClock.nonneg together sameMonth
      (oneDay time other together sameMonth timeDay otherDay)

theorem someDay_last (isLast : expression.dayOfMonth = ascii "L") {month : Int}
    (firstMonth : 1 ≤ month) (lastMonth : month ≤ 12) : ∃ time : DateTime, InClock time ∧
      time.year = 2000 ∧ time.month = month ∧ expression.fieldMatches time .dayOfMonth = .ok true := by
  have length := lengthOfMonth_bounds 2000 month
  have valid : ValidDate 2000 month (lengthOfMonth 2000 month) :=
    ⟨firstMonth, lastMonth, by omega, le_rfl⟩
  obtain ⟨time, inClock, year, isMonth, day⟩ := exists_date valid (by decide) (by decide)
  refine ⟨time, inClock, year, isMonth, ?_⟩
  have due : time.day = time.lastDayOfMonth := by rw [lastDayOfMonth_eq, year, isMonth, day]
  have field : expression.value .dayOfMonth = ascii "L" := isLast
  rw [fieldMatches_of_simple (simple_of_last field), field]
  exact congrArg Except.ok (decide_eq_true due)

/-- The text before the letter W converts to a day. -/
def NamesDay (value : Str) : Prop :=
  ∃ wanted, stoi (parseNearestWeekday value) = .ok wanted ∧ 1 ≤ wanted

theorem fieldMatches_workday (validated : Validated .dayOfMonth expression.dayOfMonth)
    (member : 87 ∈ expression.dayOfMonth) (time : DateTime) :
    expression.fieldMatches time .dayOfMonth =
      stoi (parseNearestWeekday expression.dayOfMonth) >>= fun wanted =>
        ofDate time.year time.month (min wanted time.lastDayOfMonth) >>= fun target =>
          calcNearestWeekday target >>= fun nearest => .ok (decide (time.day = nearest)) := by
  obtain ⟨weekday, alone⟩ := (dayOfMonth_cases validated).resolve_right fun plain => plain.2 rfl member
  have noList : hasList (expression.value .dayOfMonth) = false := by
    simpa [hasList, value] using alone
  have notEvery : expression.value .dayOfMonth ≠ ascii "*" := by
    intro every
    rw [value] at every
    rw [every] at member
    exact absurd member (by decide)
  rw [fieldMatches_alone notEvery noList]
  exact matchDayOfMonth_workday weekday

theorem someDay_workday (validated : Validated .dayOfMonth expression.dayOfMonth)
    (member : 87 ∈ expression.dayOfMonth) (named : NamesDay expression.dayOfMonth) {month : Int}
    (firstMonth : 1 ≤ month) (lastMonth : month ≤ 12) : ∃ time : DateTime, InClock time ∧
      time.year = 2000 ∧ time.month = month ∧ expression.fieldMatches time .dayOfMonth = .ok true := by
  obtain ⟨wanted, converted, firstDay⟩ := named
  have length := lengthOfMonth_bounds 2000 month
  obtain ⟨first, firstInClock, firstYear, isFirst, _⟩ :=
    exists_date (ValidDate.first firstMonth lastMonth) (show (1970 : Int) ≤ 2000 by decide) (by decide)
  obtain ⟨target, nearest, built, found, isNearest⟩ := exists_nearestWorkday firstInClock firstDay
  rw [firstYear, isFirst] at built isNearest
  obtain ⟨time, inClock, year, isMonth, day⟩ := exists_date
    ⟨firstMonth, lastMonth, isNearest.workday.first, isNearest.workday.last⟩
    (show (1970 : Int) ≤ 2000 by decide) (by decide)
  refine ⟨time, inClock, year, isMonth, ?_⟩
  rw [fieldMatches_workday validated member, bind_of_ok converted, lastDayOfMonth_eq, year, isMonth,
    bind_of_ok built, bind_of_ok found, day]
  exact congrArg Except.ok (decide_eq_true rfl)

theorem namesDay_of_matches (validated : Validated .dayOfMonth expression.dayOfMonth)
    (member : 87 ∈ expression.dayOfMonth)
    (matched : expression.fieldMatches time .dayOfMonth = .ok true) :
    NamesDay expression.dayOfMonth := by
  rw [fieldMatches_workday validated member] at matched
  obtain ⟨wanted, converted, matched⟩ := bind_eq_ok.mp matched
  obtain ⟨target, built, _⟩ := bind_eq_ok.mp matched
  obtain ⟨_, _, _, firstDay, _⟩ := ofDate_eq_ok built
  exact ⟨wanted, converted, firstDay.trans (min_le_left _ _)⟩

/-! ### Listed dates -/

/-- At most one date of a leap year has month and day on the lists. -/
def OneDate (month dayOfMonth : Str) : Prop :=
  ∀ months days, createList .month month = .ok months → createList .dayOfMonth dayOfMonth = .ok days →
    ∀ first ∈ months, ∀ day ∈ days, ∀ second ∈ months, ∀ other ∈ days,
      ValidDate 2000 first day → ValidDate 2000 second other → first = second ∧ day = other

/-- Where every weekday matches and the days are listed the dates decide. -/
theorem daysApart_yearly_of_listed (validated : ∀ field, Validated field (expression.value field))
    (notAnyMonth : isStarLike expression.month = false)
    (notAnyDay : isStarLike expression.dayOfMonth = false)
    (notLast : expression.dayOfMonth ≠ ascii "L") (noWeekday : 87 ∉ expression.dayOfMonth)
    (anyWeekday : ∀ time, expression.fieldMatches time .dayOfWeek = .ok true) :
    expression.DaysApart dateFields .yearly ↔ OneDate expression.month expression.dayOfMonth := by
  have plain : Unsuffixed .dayOfMonth expression.dayOfMonth := ⟨nofun, fun _ => noWeekday⟩
  obtain ⟨months, createdMonths, _, listedMonths⟩ := listed_month (validated .month) notAnyMonth
  obtain ⟨days, createdDays, _, listedDays⟩ := fieldMatches_listed .dayOfMonth plain
    (validated .dayOfMonth) (namesNumbers_dayOfMonth plain (validated .dayOfMonth) notAnyDay notLast)
  have matched (time : DateTime) :
      expression.DayMatches dateFields time ↔ time.month ∈ months ∧ time.day ∈ days := by
    simp only [DayMatches, dateFields, List.mem_cons, List.not_mem_nil, or_false, forall_eq_or_imp,
      forall_eq, anyWeekday, and_true, listedMonths, listedDays, Except.ok.injEq]
    rw [decide_eq_true_iff, decide_eq_true_iff, number]
  constructor
  · intro apart monthsAgain daysAgain monthsCreated daysCreated
    cases createdMonths.symm.trans monthsCreated
    cases createdDays.symm.trans daysCreated
    intro first inFirst day inDay second inSecond other inOther firstValid secondValid
    obtain ⟨time, inClock, year, isMonth, isDay⟩ := exists_date firstValid (by decide) (by decide)
    obtain ⟨later, laterInClock, laterYear, laterMonth, laterDay⟩ :=
      exists_date secondValid (by decide) (by decide)
    have same := apart time later inClock laterInClock
      ((matched time).mpr ⟨isMonth ▸ inFirst, isDay ▸ inDay⟩)
      ((matched later).mpr ⟨laterMonth ▸ inSecond, laterDay ▸ inOther⟩) (year.trans laterYear.symm)
    rw [← isMonth, ← laterMonth, ← isDay, ← laterDay]
    simp only [DateTime.month, DateTime.day, same, and_self]
  · intro one time other inClock otherInClock timeMatches otherMatches together
    obtain ⟨inMonths, inDays⟩ := (matched time).mp timeMatches
    obtain ⟨otherInMonths, otherInDays⟩ := (matched other).mp otherMatches
    obtain ⟨sameMonth, sameDay⟩ := one months days createdMonths createdDays _ inMonths _ inDays _
      otherInMonths _ otherInDays (validDate inClock.nonneg).1.leap
      (validDate otherInClock.nonneg).1.leap
    exact days_eq_of_date inClock.nonneg otherInClock.nonneg together sameMonth sameDay

/-! ### True labels -/

/-- The day of the week names one day: one number, or, for the suffixes, as the
days of the calendar that they match decide. -/
def OneWeekday (expression : CronExpression) : Prop :=
  if 76 ∈ expression.dayOfWeek ∨ 35 ∈ expression.dayOfWeek then
    expression.DaysApart [.dayOfWeek] .weekly
  else ascii "?" ∉ splitList expression.dayOfWeek ∧ OneNumber .dayOfWeek expression.dayOfWeek

/-- The day of the month names one day: the last one, a nearest workday, or one
number. -/
def OneDayOfMonth (expression : CronExpression) : Prop :=
  expression.dayOfMonth = ascii "L" ∨ 87 ∈ expression.dayOfMonth ∨
    OneNumber .dayOfMonth expression.dayOfMonth

/-- Month and day of the month name one date; where weekdays restrict it the
calendar decides. -/
def OneDayOfYear (expression : CronExpression) : Prop :=
  if isStarLike expression.dayOfWeek then
    if expression.dayOfMonth = ascii "L" then OneNumber .month expression.month
    else if 87 ∈ expression.dayOfMonth then
      NamesDay expression.dayOfMonth → OneNumber .month expression.month
    else OneDate expression.month expression.dayOfMonth
  else expression.DaysApart dateFields .yearly

/-- The fields that a label leaves open name one day of its period. -/
def NamesOneDay (expression : CronExpression) : ScheduleFrequency → Prop
  | .weekly => expression.OneWeekday
  | .monthly => expression.OneDayOfMonth
  | .yearly => expression.OneDayOfYear
  | _ => True

theorem daysApart_yearly_iff (validated : ∀ field, Validated field (expression.value field))
    (notAnyMonth : isStarLike expression.month = false)
    (notAnyDay : isStarLike expression.dayOfMonth = false) :
    expression.DaysApart dateFields .yearly ↔ expression.OneDayOfYear := by
  have unique (single : isSimpleValue expression.dayOfMonth = true ∨ 87 ∈ expression.dayOfMonth)
      (time other : DateTime) (year : time.year = other.year) (month : time.month = other.month)
      (timeMatches : expression.fieldMatches time .dayOfMonth = .ok true)
      (otherMatches : expression.fieldMatches other .dayOfMonth = .ok true) : time.day = other.day :=
    day_unique (validated .dayOfMonth) single notAnyDay year month timeMatches otherMatches
  unfold OneDayOfYear
  split
  · rename_i star
    have anyWeekday := fieldMatches_star (validated .dayOfWeek) star
    split
    · rename_i isLast
      exact daysApart_yearly_of_oneDay (validated .month) notAnyMonth anyWeekday
        (unique (.inl (simple_of_last isLast))) fun _ => someDay_last isLast
    · rename_i notLast
      split
      · rename_i weekday
        have decides (named : NamesDay expression.dayOfMonth) :
            expression.DaysApart dateFields .yearly ↔ OneNumber .month expression.month :=
          daysApart_yearly_of_oneDay (validated .month) notAnyMonth anyWeekday
            (unique (.inr weekday)) fun _ => someDay_workday (validated .dayOfMonth) weekday named
        constructor
        · exact fun apart named => (decides named).mp apart
        · intro one time other inClock otherInClock timeMatches
          have named := namesDay_of_matches (validated .dayOfMonth) weekday
            (timeMatches .dayOfMonth (by decide))
          exact (decides named).mpr (one named) time other inClock otherInClock timeMatches
      · rename_i noWeekday
        exact daysApart_yearly_of_listed validated notAnyMonth notAnyDay notLast noWeekday anyWeekday
  · exact Iff.rfl

/-- A label is true exactly if the fields it leaves open name one day. -/
theorem classifySchedule_truthful_iff (parsed : ofText text = .ok expression) :
    expression.Truthful (classifySchedule text) ↔
      expression.NamesOneDay (classifySchedule text) := by
  rw [truthful_iff_openDaysApart parsed]
  have validated := validated_of_ofText parsed
  have labelled := labelled_of_ofText parsed
  generalize classifySchedule text = label at labelled
  cases labelled with
  | custom | hourly | daily => exact Iff.rfl
  | weekly _ _ _ _ notAny =>
      change _ ↔ expression.OneWeekday
      unfold OneWeekday
      split
      · exact Iff.rfl
      · rename_i unsuffixed
        exact daysApart_weekly_iff ⟨fun _ => not_or.mp unsuffixed, nofun⟩ (validated .dayOfWeek)
          (ne_of_not_starLike notAny).1
  | monthly _ _ notAny => exact daysApart_monthly_iff (validated .dayOfMonth) notAny
  | yearly _ _ notAnyDay notAnyMonth => exact daysApart_yearly_iff validated notAnyMonth notAnyDay

/-- Half past nine on Mondays. -/
theorem classifySchedule_truthful_iff_mondays :
    (CronExpression.mk (ascii "30") (ascii "9") (ascii "*") (ascii "*") (ascii "1")).Truthful
      (classifySchedule (ascii "30 9 * * 1")) := by
  have parsed : ofText (ascii "30 9 * * 1") = .ok (CronExpression.mk (ascii "30") (ascii "9")
      (ascii "*") (ascii "*") (ascii "1")) := rfl
  refine (classifySchedule_truthful_iff parsed).mpr ?_
  have weekly : classifySchedule (ascii "30 9 * * 1") = .weekly := rfl
  rw [weekly, NamesOneDay, OneWeekday, if_neg (by decide)]
  refine ⟨by decide, fun list created first inFirst second inSecond _ _ => ?_⟩
  have monday : createList .dayOfWeek (ascii "1") = .ok [1] := rfl
  cases monday.symm.trans created
  rw [List.mem_singleton.mp inFirst, List.mem_singleton.mp inSecond]

/-- From Monday to Friday: labelled weekly, and due twice in the first full week
of 1970. -/
theorem workdays_labelled_weekly :
    ∃ expression, ofText (ascii "0 0 * * 1-5") = .ok expression ∧
      classifySchedule (ascii "0 0 * * 1-5") = .weekly ∧ ¬ expression.Truthful .weekly := by
  refine ⟨CronExpression.mk (ascii "0") (ascii "0") (ascii "*") (ascii "*") (ascii "1-5"), rfl, rfl, ?_⟩
  intro truthful
  have isMinute (days : Int) (since : 0 ≤ days) : IsMinute (ofTimePoint (days * dayTicks)) := by
    have midnight := timePoint_ofTimePoint (second_dvd_days days)
    constructor
    · rw [midnight]
      exact Int.mul_nonneg since (by decide)
    · rw [midnight]
      exact minute_dvd_day.mul_left days
  have same := truthful (ofTimePoint (4 * dayTicks)) (ofTimePoint (5 * dayTicks))
    (isMinute 4 (by decide)) (isMinute 5 (by decide)) ⟨by decide, by decide⟩ ⟨by decide, by decide⟩
    rfl rfl rfl
  exact absurd (congrArg daysSinceEpoch same) (by decide)

end BabyLuigi.Cron.CronExpression
