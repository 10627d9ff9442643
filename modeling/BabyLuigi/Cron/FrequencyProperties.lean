import BabyLuigi.Cron.WeekdayProperties

/-! Which labels of accepted schedules are true: at most one matching minute in
every hour, day, week, month or year. -/

set_option autoImplicit false

namespace BabyLuigi.Cron.CronExpression

open DateTime

variable {expression : CronExpression} {text : Str} {time other : DateTime}
  {frequency : ScheduleFrequency}

/-- The times lie in one period of the label; a week begins on Sunday. -/
def InOnePeriod (frequency : ScheduleFrequency) (time other : DateTime) : Prop :=
  match frequency with
  | .hourly => time.daysSinceEpoch = other.daysSinceEpoch ∧ time.hour = other.hour
  | .daily => time.daysSinceEpoch = other.daysSinceEpoch
  | .weekly => (time.daysSinceEpoch + 4) / 7 = (other.daysSinceEpoch + 4) / 7
  | .monthly => time.year = other.year ∧ time.month = other.month
  | .yearly => time.year = other.year
  | _ => False

/-- No two minutes of one period match, before April 2262. -/
def Truthful (expression : CronExpression) (frequency : ScheduleFrequency) : Prop :=
  ∀ time other, IsMinute time → IsMinute other → InClock time → InClock other →
    expression.Matches time → expression.Matches other → InOnePeriod frequency time other →
    time = other

/-- What the label tells of the fields. -/
inductive Labelled (expression : CronExpression) : ScheduleFrequency → Prop where
  | hourly : isSimpleValue expression.minute = true → Labelled expression .hourly
  | daily : isSimpleValue expression.minute = true → isSimpleValue expression.hour = true →
      Labelled expression .daily
  | weekly : isSimpleValue expression.minute = true → isSimpleValue expression.hour = true →
      isStarLike expression.dayOfMonth = true → isStarLike expression.month = true →
      isStarLike expression.dayOfWeek = false → Labelled expression .weekly
  | monthly : isSimpleValue expression.minute = true → isSimpleValue expression.hour = true →
      isStarLike expression.dayOfMonth = false → isStarLike expression.month = true →
      isStarLike expression.dayOfWeek = true → Labelled expression .monthly
  | yearly : isSimpleValue expression.minute = true → isSimpleValue expression.hour = true →
      isStarLike expression.dayOfMonth = false → isStarLike expression.month = false →
      Labelled expression .yearly
  | custom : Labelled expression .custom

theorem words_of_ofText (parsed : ofText text = .ok expression) :
    words text = [expression.minute, expression.hour, expression.dayOfMonth, expression.month,
      expression.dayOfWeek] := by
  unfold ofText at parsed
  split at parsed
  · rename_i minute hour dayOfMonth month dayOfWeek split
    obtain ⟨_, _, parsed⟩ := bind_eq_ok.mp parsed
    obtain ⟨_, _, parsed⟩ := bind_eq_ok.mp parsed
    obtain ⟨_, _, parsed⟩ := bind_eq_ok.mp parsed
    obtain ⟨_, _, parsed⟩ := bind_eq_ok.mp parsed
    obtain ⟨_, _, parsed⟩ := bind_eq_ok.mp parsed
    obtain rfl := pure_eq_ok.mp parsed
    exact split
  · cases parsed

theorem labelled_of_ofText (parsed : ofText text = .ok expression) :
    Labelled expression (classifySchedule text) := by
  have split := words_of_ofText parsed
  have nonempty : text.isEmpty = false := by
    cases text with
    | nil => cases split
    | cons char rest => rfl
  simp only [classifySchedule, nonempty, Bool.false_eq_true, if_false, tokenizeCron, split]
  split
  · exact .custom
  · rename_i simple
    have minute : isSimpleValue expression.minute = true := by simpa using simple
    simp only [Bool.and_eq_true, Bool.not_eq_true']
    split
    · exact .hourly minute
    · split
      · rename_i daily
        exact .daily minute daily.1.1.1
      · split
        · rename_i weekly
          obtain ⟨⟨⟨hour, dayOfMonth⟩, month⟩, dayOfWeek⟩ := weekly
          exact .weekly minute hour dayOfMonth month dayOfWeek
        · split
          · rename_i monthly
            obtain ⟨⟨⟨hour, dayOfMonth⟩, month⟩, dayOfWeek⟩ := monthly
            exact .monthly minute hour dayOfMonth month dayOfWeek
          · split
            · rename_i yearly
              obtain ⟨⟨hour, dayOfMonth⟩, month⟩ := yearly
              exact .yearly minute hour dayOfMonth month
            · exact .custom

/-! ### Simple fields -/

theorem ne_of_not_starLike {value : Str} (notAny : isStarLike value = false) :
    value ≠ ascii "*" ∧ value ≠ ascii "?" := by
  simpa [isStarLike] using notAny

theorem noSeparator {value : Str} (simple : isSimpleValue value = true) :
    42 ∉ value ∧ stepChar ∉ value ∧ rangeChar ∉ value ∧ listChar ∉ value := by
  simp only [isSimpleValue, Bool.and_eq_true, Bool.not_eq_true', List.any_eq_false] at simple
  have absent (char : UInt8) (separates : (ascii "*/-,").contains char = true) : char ∉ value :=
    fun member => simple.2 char member separates
  exact ⟨absent 42 (by decide), absent stepChar (by decide), absent rangeChar (by decide),
    absent listChar (by decide)⟩

theorem plainText_of_simple {value : Str} (simple : isSimpleValue value = true) :
    value ≠ ascii "*" ∧ hasList value = false ∧ hasRange value = false ∧ hasStep value = false := by
  obtain ⟨notStar, notStep, notRange, notList⟩ := noSeparator simple
  refine ⟨?_, ?_⟩
  · rintro rfl
    exact absurd notStar (by decide)
  · simpa only [hasList, hasRange, hasStep, List.contains_eq_mem, decide_eq_false_iff_not] using
      ⟨notList, notRange, notStep⟩

theorem fieldMatches_alone {field : CronFieldPos} (notEvery : expression.value field ≠ ascii "*")
    (noList : hasList (expression.value field) = false) :
    expression.fieldMatches time field = matchField field (expression.value field) time := by
  simp only [fieldMatches, if_neg notEvery, noList, Bool.false_eq_true, if_false]

theorem fieldMatches_of_simple {field : CronFieldPos}
    (simple : isSimpleValue (expression.value field) = true) :
    expression.fieldMatches time field = matchField field (expression.value field) time := by
  obtain ⟨notEvery, noList, _⟩ := plainText_of_simple simple
  exact fieldMatches_alone notEvery noList

theorem matchNumber_of_simple {field : CronFieldPos} {value : Str} {number : Int}
    (simple : isSimpleValue value = true) (matched : matchNumber field value number = .ok true) :
    fromLiteral field value = .ok number := by
  obtain ⟨notEvery, noList, noRange, noStep⟩ := plainText_of_simple simple
  simp only [matchNumber, if_neg notEvery, noList, noRange, noStep, Bool.or_self,
    Bool.false_eq_true, if_false] at matched
  obtain ⟨chosen, converted, same⟩ := bind_eq_ok.mp matched
  rw [converted, of_decide_eq_true (pure_eq_ok.mp same)]

/-- A simple text of a field of numbers is one of its numbers. -/
theorem exists_number {field : CronFieldPos} {value : Str} (plain : Plain field value)
    (validated : Validated field value) (simple : isSimpleValue value = true) :
    Special field value ∨ ∃ number, fromLiteral field value = .ok number ∧ 0 ≤ number ∧
      field.rangeStart ≤ number ∧ number ≤ field.rangeEnd := by
  obtain ⟨notStar, notStep, notRange, notList⟩ := noSeparator simple
  rcases accepted_of_validated plain.unsuffixed validated with (special | ⟨isWeekday, _⟩) | accepted
  · exact .inl special
  · exact absurd isWeekday plain.1
  · cases accepted with
    | every => exact absurd (List.mem_cons_self) notStar
    | step pieces => exact absurd (mem_of_split_eq_pair pieces) notStep
    | list _ isList => exact absurd isList notList
    | range _ _ pieces => exact absurd (mem_of_split_eq_pair pieces) notRange
    | single _ _ _ _ converted nonneg low high => exact .inr ⟨_, converted, nonneg, low, high⟩

/-- A simple minute or hour matches at one number. -/
theorem fieldMatches_simple {field : CronFieldPos} (validated : Validated field (expression.value field))
    (simple : isSimpleValue (expression.value field) = true)
    (clock : field = .minute ∨ field = .hour) :
    ∃ chosen, 0 ≤ chosen ∧ chosen ≤ field.rangeEnd ∧ ∀ time,
      expression.fieldMatches time field = .ok true ↔ number time field = chosen := by
  have numbers : field ≠ .dayOfWeek ∧ field ≠ .dayOfMonth := by
    rcases clock with rfl | rfl <;> decide
  obtain ⟨notEvery, noList, noRange, noStep⟩ := plainText_of_simple simple
  rcases exists_number (plain_of_numbers numbers) validated simple with ⟨isDay, _⟩ | chosen
  · exact absurd isDay numbers.2
  · obtain ⟨chosen, converted, nonneg, _, high⟩ := chosen
    refine ⟨chosen, nonneg, high, fun time => ?_⟩
    have matched (value : Int) : matchNumber field (expression.value field) value =
        .ok (decide (value = chosen)) := by
      simp only [matchNumber, if_neg notEvery, noList, noRange, noStep, Bool.or_self,
        Bool.false_eq_true, if_false, bind_of_ok converted]
      rfl
    rw [fieldMatches_of_simple simple]
    rcases clock with rfl | rfl
    · simp only [matchField, matched, Except.ok.injEq, decide_eq_true_eq, number]
    · simp only [matchField, matched, Except.ok.injEq, decide_eq_true_eq, number]

/-! ### Days that match -/

theorem matches_iff :
    expression.Matches time ↔ ∀ field, expression.fieldMatches time field = .ok true := by
  have each (fields : List CronFieldPos) : expression.firstMismatch time fields = .ok none ↔
      ∀ field ∈ fields, expression.fieldMatches time field = .ok true := by
    induction fields with
    | nil => simp [firstMismatch]
    | cons first rest ih =>
        rw [firstMismatch, List.forall_mem_cons, ← ih, bind_eq_ok]
        constructor
        · rintro ⟨matched, tested, result⟩
          cases matched with
          | true => exact ⟨tested, result⟩
          | false => cases pure_eq_ok.mp result
        · rintro ⟨tested, rest⟩
          exact ⟨true, tested, rest⟩
  rw [Matches, each]
  exact ⟨fun all field => all field (mem_fieldOrder field), fun all field _ => all field⟩

theorem fieldMatches_date {field : CronFieldPos} (isDate : field ≠ .hour ∧ field ≠ .minute)
    (same : other.daysSinceEpoch = time.daysSinceEpoch) :
    expression.fieldMatches other field = expression.fieldMatches time field :=
  fieldMatches_congr fun element => matchField_date isDate same element

/-- The date is one that these fields match. -/
def DayMatches (expression : CronExpression) (fields : List CronFieldPos) (time : DateTime) : Prop :=
  ∀ field ∈ fields, expression.fieldMatches time field = .ok true

/-- No two days of one period are matched by these fields, before April 2262. -/
def DaysApart (expression : CronExpression) (fields : List CronFieldPos)
    (frequency : ScheduleFrequency) : Prop :=
  ∀ time other : DateTime, InClock time → InClock other →
    expression.DayMatches fields time → expression.DayMatches fields other →
    InOnePeriod frequency time other → time.daysSinceEpoch = other.daysSinceEpoch

/-- The fields that are matched by the date. -/
def dateFields : List CronFieldPos := [.month, .dayOfMonth, .dayOfWeek]

theorem exists_minute {days hour minute : Int} (since : 0 ≤ days) (hourLow : 0 ≤ hour)
    (hourHigh : hour < 24) (minuteLow : 0 ≤ minute) (minuteHigh : minute < 60) :
    ∃ time, IsMinute time ∧ time.daysSinceEpoch = days ∧ time.hour = hour ∧ time.minute = minute := by
  have whole : minuteTicks ∣ days * dayTicks + hour * hourTicks + minute * minuteTicks :=
    ⟨days * 1440 + hour * 60 + minute, by
      simp only [dayTicks, hourTicks, minuteTicks, secondTicks]
      omega⟩
  have split := timePoint_ofTimePoint (second_dvd_minute.trans whole)
  obtain ⟨nonneg, isDays, isHour, isMinute⟩ :=
    clock_of_split split since hourLow hourHigh minuteLow minuteHigh
  exact ⟨_, ⟨nonneg, split.symm ▸ whole⟩, isDays, isHour, isMinute⟩

theorem eq_of_clock (isMinute : IsMinute time) (otherMinute : IsMinute other)
    (days : time.daysSinceEpoch = other.daysSinceEpoch) (hour : time.hour = other.hour)
    (minute : time.minute = other.minute) : time = other := by
  obtain ⟨split, _⟩ := isMinute.split
  obtain ⟨otherSplit, _⟩ := otherMinute.split
  apply DateTime.ext
  rw [split, otherSplit, days, hour, minute]

theorem inOnePeriod_days {first second : DateTime} (coarse : frequency ≠ .hourly)
    (sameFirst : first.daysSinceEpoch = time.daysSinceEpoch)
    (sameSecond : second.daysSinceEpoch = other.daysSinceEpoch) :
    InOnePeriod frequency first second ↔ InOnePeriod frequency time other := by
  cases frequency with
  | hourly => exact absurd rfl coarse
  | daily => simp only [InOnePeriod, sameFirst, sameSecond]
  | weekly => simp only [InOnePeriod, sameFirst, sameSecond]
  | monthly => simp only [InOnePeriod, DateTime.year, DateTime.month, sameFirst, sameSecond]
  | yearly => simp only [InOnePeriod, DateTime.year, sameFirst, sameSecond]
  | _ => exact Iff.rfl

/-- Where minute and hour are simple the days decide. -/
theorem truthful_iff_daysApart (parsed : ofText text = .ok expression)
    (minuteSimple : isSimpleValue expression.minute = true)
    (hourSimple : isSimpleValue expression.hour = true)
    (coarse : frequency ≠ .hourly) :
    expression.Truthful frequency ↔ expression.DaysApart dateFields frequency := by
  have validated := validated_of_ofText parsed
  obtain ⟨minute, minuteLow, minuteHigh, isMinute⟩ :=
    fieldMatches_simple (validated .minute) minuteSimple (.inl rfl)
  obtain ⟨hour, hourLow, hourHigh, isHour⟩ :=
    fieldMatches_simple (validated .hour) hourSimple (.inr rfl)
  simp only [CronFieldPos.rangeEnd, number] at minuteHigh hourHigh isMinute isHour
  constructor
  · intro truthful time other inClock otherInClock timeMatches otherMatches together
    obtain ⟨first, firstMinute, firstDays, firstHour, firstMinutes⟩ := exists_minute
      (exists_rest inClock.nonneg).choose_spec.2.1 hourLow (by omega) minuteLow
      (show minute < 60 by omega)
    obtain ⟨second, secondMinute, secondDays, secondHour, secondMinutes⟩ := exists_minute
      (exists_rest otherInClock.nonneg).choose_spec.2.1 hourLow (by omega) minuteLow
      (show minute < 60 by omega)
    have due {day minuteOfDay : DateTime} (dayMatches : expression.DayMatches dateFields day)
        (sameDay : minuteOfDay.daysSinceEpoch = day.daysSinceEpoch)
        (sameHour : minuteOfDay.hour = hour) (sameMinute : minuteOfDay.minute = minute) :
        expression.Matches minuteOfDay := by
      refine matches_iff.mpr fun field => ?_
      cases field with
      | minute => exact (isMinute _).mpr sameMinute
      | hour => exact (isHour _).mpr sameHour
      | dayOfMonth =>
          exact (fieldMatches_date (by decide) sameDay).trans (dayMatches _ (by decide))
      | month => exact (fieldMatches_date (by decide) sameDay).trans (dayMatches _ (by decide))
      | dayOfWeek => exact (fieldMatches_date (by decide) sameDay).trans (dayMatches _ (by decide))
    have same := truthful first second firstMinute secondMinute
      ⟨firstMinute.nonneg, firstDays ▸ inClock.early⟩
      ⟨secondMinute.nonneg, secondDays ▸ otherInClock.early⟩
      (due timeMatches firstDays firstHour firstMinutes)
      (due otherMatches secondDays secondHour secondMinutes)
      ((inOnePeriod_days coarse firstDays secondDays).mpr together)
    rw [← firstDays, ← secondDays, same]
  · intro apart time other timeMinute otherMinute inClock otherInClock timeMatches otherMatches together
    have timeFields := matches_iff.mp timeMatches
    have otherFields := matches_iff.mp otherMatches
    have days := apart time other inClock otherInClock
      (fun field _ => timeFields field) (fun field _ => otherFields field) together
    have hours : time.hour = other.hour :=
      ((isHour time).mp (timeFields .hour)).trans ((isHour other).mp (otherFields .hour)).symm
    have minutes : time.minute = other.minute :=
      ((isMinute time).mp (timeFields .minute)).trans
        ((isMinute other).mp (otherFields .minute)).symm
    exact eq_of_clock timeMinute otherMinute days hours minutes

theorem fieldMatches_star {field : CronFieldPos} (validated : Validated field (expression.value field))
    (star : isStarLike (expression.value field) = true) (time : DateTime) :
    expression.fieldMatches time field = .ok true := by
  have cases : expression.value field = ascii "*" ∨ expression.value field = ascii "?" := by
    simpa [isStarLike] using star
  rcases cases with every | any
  · exact if_pos every
  · have unread : fromLiteral field (ascii "?") = .ok (-1) := by cases field <;> rfl
    have noNumber (plain : Plain field (ascii "?")) (isNumber : field ≠ .dayOfMonth) : False := by
      rw [any] at validated
      rcases exists_number plain validated rfl with ⟨isDay, _⟩ | ⟨number, converted, nonneg, _⟩
      · exact isNumber isDay
      · cases converted.symm.trans unread
        exact absurd nonneg (by decide)
    have single : hasList (ascii "?") = false := rfl
    simp only [fieldMatches, any, single, Bool.false_eq_true, if_false]
    cases field with
    | minute | hour | month => exact (noNumber (plain_of_numbers (by decide)) (by decide)).elim
    | dayOfMonth | dayOfWeek => rfl

/-- The field that a label leaves open matches no two days of a week or of a
month, and the three fields for dates no two of a year. -/
def OpenDaysApart (expression : CronExpression) : ScheduleFrequency → Prop
  | .weekly => expression.DaysApart [.dayOfWeek] .weekly
  | .monthly => expression.DaysApart [.dayOfMonth] .monthly
  | .yearly => expression.DaysApart dateFields .yearly
  | _ => True

theorem daysApart_iff_of_rest {fields : List CronFieldPos} (sub : fields ⊆ dateFields)
    (rest : ∀ field ∈ dateFields, field ∉ fields → ∀ time, expression.fieldMatches time field = .ok true) :
    expression.DaysApart dateFields frequency ↔ expression.DaysApart fields frequency := by
  have same (time : DateTime) :
      expression.DayMatches dateFields time ↔ expression.DayMatches fields time := by
    constructor
    · exact fun all field member => all field (sub member)
    · intro chosen field member
      by_cases inFields : field ∈ fields
      · exact chosen field inFields
      · exact rest field member inFields time
  simp only [DaysApart, same]

/-- A label is true exactly if the days of the fields it leaves open are. -/
theorem truthful_iff_openDaysApart (parsed : ofText text = .ok expression) :
    expression.Truthful (classifySchedule text) ↔
      expression.OpenDaysApart (classifySchedule text) := by
  have validated := validated_of_ofText parsed
  have labelled := labelled_of_ofText parsed
  generalize classifySchedule text = label at labelled
  cases labelled with
  | custom => exact iff_of_true (fun _ _ _ _ _ _ _ _ together => together.elim) trivial
  | hourly minute =>
      obtain ⟨chosen, _, _, isMinute⟩ := fieldMatches_simple (validated .minute) minute (.inl rfl)
      refine iff_of_true ?_ trivial
      intro time other timeMinute otherMinute _ _ timeMatches otherMatches together
      have minutes : time.minute = other.minute :=
        ((isMinute time).mp (matches_iff.mp timeMatches .minute)).trans
          ((isMinute other).mp (matches_iff.mp otherMatches .minute)).symm
      exact eq_of_clock timeMinute otherMinute together.1 together.2 minutes
  | daily minute hour =>
      rw [truthful_iff_daysApart parsed minute hour (by decide)]
      exact iff_of_true (fun _ _ _ _ _ _ together => together) trivial
  | weekly minute hour dayOfMonth month _ =>
      rw [truthful_iff_daysApart parsed minute hour (by decide)]
      refine daysApart_iff_of_rest (by decide) fun field member notOpen time => ?_
      cases field with
      | minute | hour => exact absurd member (by decide)
      | dayOfWeek => exact absurd List.mem_cons_self notOpen
      | dayOfMonth => exact fieldMatches_star (validated .dayOfMonth) dayOfMonth time
      | month => exact fieldMatches_star (validated .month) month time
  | monthly minute hour _ month dayOfWeek =>
      rw [truthful_iff_daysApart parsed minute hour (by decide)]
      refine daysApart_iff_of_rest (by decide) fun field member notOpen time => ?_
      cases field with
      | minute | hour => exact absurd member (by decide)
      | dayOfMonth => exact absurd List.mem_cons_self notOpen
      | dayOfWeek => exact fieldMatches_star (validated .dayOfWeek) dayOfWeek time
      | month => exact fieldMatches_star (validated .month) month time
  | yearly minute hour _ _ => exact truthful_iff_daysApart parsed minute hour (by decide)

/-! ### Simple days -/

/-- A simple day of the week stands for one weekday, whatever its suffix. -/
theorem exists_weekday {value : Str} (simple : isSimpleValue value = true)
    (notAny : value ≠ ascii "?") :
    ∃ weekday, ∀ time : DateTime, InClock time → matchDayOfWeek value time = .ok true →
      time.dayOfWeek = weekday := by
  by_cases noLast : parseLastDayOfWeek value = []
  · by_cases noNth : (parseNthDayOfWeek value).1 = []
    · refine ⟨(fromLiteral .dayOfWeek value).toOption.getD 0, fun time inClock matched => ?_⟩
      rw [matchDayOfWeek_number notAny noLast noNth] at matched
      rw [matchNumber_of_simple simple matched]
      rfl
    · refine ⟨(stoi (parseNthDayOfWeek value).1).toOption.getD 0, fun time inClock matched => ?_⟩
      rw [matchDayOfWeek_nthOfMonth noLast noNth] at matched
      obtain ⟨target, converted, matched⟩ := bind_eq_ok.mp matched
      obtain ⟨count, _, matched⟩ := bind_eq_ok.mp matched
      rw [converted]
      split at matched
      · cases matched
      · rename_i same
        exact not_not.mp same
  · refine ⟨(stoi (parseLastDayOfWeek value)).toOption.getD 0, fun time inClock matched => ?_⟩
    rw [matchDayOfWeek_lastOfMonth noLast] at matched
    obtain ⟨target, converted, matched⟩ := bind_eq_ok.mp matched
    obtain ⟨last, built, matched⟩ := bind_eq_ok.mp matched
    obtain ⟨found, back, matched⟩ := bind_eq_ok.mp matched
    have same := of_decide_eq_true (Except.ok.inj matched)
    obtain ⟨_, builtLast, lastInClock, room⟩ := inClock.exists_lastDay
    cases built.symm.trans builtLast
    obtain ⟨foundNonneg, rfl⟩ := backToWeekday_spec 7 room lastInClock.fits back
    have foundBounds := dayOfWeek_bounds found
    obtain ⟨_, _, builtAgain, backAgain, number⟩ :=
      backToWeekday_lastDay inClock foundBounds.1 foundBounds.2
    cases built.symm.trans builtAgain
    cases back.symm.trans backAgain
    have bounds := dayOfWeek_bounds time
    have length := lengthOfMonth_bounds time.year time.month
    rw [weekdayOf_time inClock.nonneg (by omega)] at number
    rw [converted, Except.toOption, Option.getD_some]
    omega

theorem matchDayOfMonth_unique {value : Str}
    (single : parseNearestWeekday value = [] → isSimpleValue value = true)
    (notAny : value ≠ ascii "?") (sameYear : time.year = other.year)
    (sameMonth : time.month = other.month) (timeMatches : matchDayOfMonth value time = .ok true)
    (otherMatches : matchDayOfMonth value other = .ok true) : time.day = other.day := by
  have length : time.lastDayOfMonth = other.lastDayOfMonth := by
    rw [lastDayOfMonth_eq, lastDayOfMonth_eq, sameYear, sameMonth]
  by_cases noWeekday : parseNearestWeekday value = []
  · by_cases isLast : value = ascii "L"
    · subst isLast
      have timeLast : time.day = time.lastDayOfMonth :=
        of_decide_eq_true (pure_eq_ok.mp timeMatches)
      have otherLast : other.day = other.lastDayOfMonth :=
        of_decide_eq_true (pure_eq_ok.mp otherMatches)
      rw [timeLast, otherLast, length]
    · have simple := single noWeekday
      rw [matchDayOfMonth_number notAny isLast noWeekday] at timeMatches otherMatches
      exact Except.ok.inj ((matchNumber_of_simple simple timeMatches).symm.trans
        (matchNumber_of_simple simple otherMatches))
  · rw [matchDayOfMonth_workday noWeekday, length, sameYear, sameMonth] at timeMatches
    rw [matchDayOfMonth_workday noWeekday] at otherMatches
    obtain ⟨wanted, converted, timeMatches⟩ := bind_eq_ok.mp timeMatches
    obtain ⟨target, built, timeMatches⟩ := bind_eq_ok.mp timeMatches
    obtain ⟨nearest, found, timeMatches⟩ := bind_eq_ok.mp timeMatches
    rw [bind_of_ok converted, bind_of_ok built, bind_of_ok found] at otherMatches
    exact (of_decide_eq_true (Except.ok.inj timeMatches)).trans
      (of_decide_eq_true (Except.ok.inj otherMatches)).symm

/-- A simple day of the month, and any nearest workday, is one day of each month. -/
theorem day_unique (validated : Validated .dayOfMonth expression.dayOfMonth)
    (single : isSimpleValue expression.dayOfMonth = true ∨ 87 ∈ expression.dayOfMonth)
    (notAny : isStarLike expression.dayOfMonth = false)
    (sameYear : time.year = other.year) (sameMonth : time.month = other.month)
    (timeMatches : expression.fieldMatches time .dayOfMonth = .ok true)
    (otherMatches : expression.fieldMatches other .dayOfMonth = .ok true) : time.day = other.day := by
  have notOpen := ne_of_not_starLike notAny
  have shape : hasList expression.dayOfMonth = false ∧
      (parseNearestWeekday expression.dayOfMonth = [] →
        isSimpleValue expression.dayOfMonth = true) := by
    rcases dayOfMonth_cases validated with ⟨weekday, alone⟩ | plain
    · exact ⟨by simpa [hasList] using alone, fun noWeekday => absurd noWeekday weekday⟩
    · have simple := single.resolve_right (plain.2 rfl)
      exact ⟨(plainText_of_simple simple).2.1, fun _ => simple⟩
  have alone (day : DateTime) :
      expression.fieldMatches day .dayOfMonth = matchDayOfMonth expression.dayOfMonth day :=
    fieldMatches_alone notOpen.1 shape.1
  rw [alone] at timeMatches otherMatches
  exact matchDayOfMonth_unique shape.2 notOpen.2 sameYear sameMonth timeMatches otherMatches

theorem days_eq_of_date (nonneg : 0 ≤ time.timePoint) (otherNonneg : 0 ≤ other.timePoint)
    (year : time.year = other.year) (month : time.month = other.month) (day : time.day = other.day) :
    time.daysSinceEpoch = other.daysSinceEpoch := by
  rw [← (validDate nonneg).2.2, ← (validDate otherNonneg).2.2, year, month, day]

theorem daysApart_monthly_of_single (validated : Validated .dayOfMonth expression.dayOfMonth)
    (single : isSimpleValue expression.dayOfMonth = true ∨ 87 ∈ expression.dayOfMonth)
    (notAny : isStarLike expression.dayOfMonth = false) :
    expression.DaysApart [.dayOfMonth] .monthly := by
  intro time other inClock otherInClock timeMatches otherMatches together
  exact days_eq_of_date inClock.nonneg otherInClock.nonneg together.1 together.2
    (day_unique validated single notAny together.1 together.2
      (timeMatches .dayOfMonth List.mem_cons_self) (otherMatches .dayOfMonth List.mem_cons_self))

/-- Simple values in the fields that the label leaves open are enough. -/
theorem openDaysApart_of_simple (validated : ∀ field, Validated field (expression.value field))
    (labelled : Labelled expression frequency)
    (weekly : frequency = .weekly → isSimpleValue expression.dayOfWeek = true)
    (monthly : frequency = .monthly ∨ frequency = .yearly →
      isSimpleValue expression.dayOfMonth = true ∨ 87 ∈ expression.dayOfMonth)
    (yearly : frequency = .yearly → isSimpleValue expression.month = true) :
    expression.OpenDaysApart frequency := by
  cases labelled with
  | custom | hourly | daily => trivial
  | weekly _ _ _ _ notAny =>
      have simple := weekly rfl
      obtain ⟨weekday, one⟩ := exists_weekday simple (ne_of_not_starLike notAny).2
      intro time other inClock otherInClock timeMatches otherMatches together
      have alone (day : DateTime) :
          expression.fieldMatches day .dayOfWeek = matchDayOfWeek expression.dayOfWeek day :=
        fieldMatches_of_simple simple
      have timeWeekday := one time inClock
        ((alone time).symm.trans (timeMatches .dayOfWeek List.mem_cons_self))
      have otherWeekday := one other otherInClock
        ((alone other).symm.trans (otherMatches .dayOfWeek List.mem_cons_self))
      rw [dayOfWeek_eq time] at timeWeekday
      rw [dayOfWeek_eq other] at otherWeekday
      simp only [InOnePeriod] at together
      omega
  | monthly _ _ notAny =>
      exact daysApart_monthly_of_single (validated .dayOfMonth) (monthly (.inl rfl)) notAny
  | yearly _ _ notAny =>
      have simple := yearly rfl
      intro time other inClock otherInClock timeMatches otherMatches together
      have month : time.month = other.month := by
        have alone (day : DateTime) :
            expression.fieldMatches day .month = matchNumber .month expression.month day.month :=
          fieldMatches_of_simple simple
        have timeMonth := timeMatches .month (by decide)
        have otherMonth := otherMatches .month (by decide)
        rw [alone] at timeMonth otherMonth
        exact Except.ok.inj ((matchNumber_of_simple simple timeMonth).symm.trans
          (matchNumber_of_simple simple otherMonth))
      exact days_eq_of_date inClock.nonneg otherInClock.nonneg together month
        (day_unique (validated .dayOfMonth) (monthly (.inr rfl)) notAny together month
          (timeMatches .dayOfMonth (by decide)) (otherMatches .dayOfMonth (by decide)))

/-- A label is true where the fields it leaves open are simple. -/
theorem truthful_of_simple (parsed : ofText text = .ok expression)
    (weekly : classifySchedule text = .weekly → isSimpleValue expression.dayOfWeek = true)
    (monthly : classifySchedule text = .monthly ∨ classifySchedule text = .yearly →
      isSimpleValue expression.dayOfMonth = true ∨ 87 ∈ expression.dayOfMonth)
    (yearly : classifySchedule text = .yearly → isSimpleValue expression.month = true) :
    expression.Truthful (classifySchedule text) :=
  (truthful_iff_openDaysApart parsed).mpr
    (openDaysApart_of_simple (validated_of_ofText parsed) (labelled_of_ofText parsed) weekly monthly
      yearly)

end BabyLuigi.Cron.CronExpression
