import BabyLuigi.Cron.ConversionProperties

/-! Where the step of a field leads. -/

set_option autoImplicit false

namespace BabyLuigi.Cron

open DateTime

variable {field : CronFieldPos} {value : Str} {time : DateTime}

/-- The number that a field is matched against. -/
def number (time : DateTime) : CronFieldPos → Int
  | .minute => time.minute
  | .hour => time.hour
  | .dayOfMonth => time.day
  | .month => time.month
  | .dayOfWeek => time.dayOfWeek

def hourStart (time : DateTime) : Int := time.timePoint - time.minute * minuteTicks

def dayStart (time : DateTime) : Int := hourStart time - time.hour * hourTicks

/-- Where a step leads that finds no later element: past the hour, day, month
or year that the field divides. -/
def rollOver (time : DateTime) : CronFieldPos → Int
  | .minute => hourStart time + hourTicks
  | .dayOfMonth => monthEnd time.year time.month * dayTicks
  | .month => toDays (time.year + 1) 1 1 * dayTicks
  | .hour | .dayOfWeek => dayStart time + dayTicks

/-- Where a step to an element leads. -/
def stepTo (time : DateTime) (element : Int) : CronFieldPos → Int
  | .minute => hourStart time + element * minuteTicks
  | .hour => dayStart time + element * hourTicks
  | .dayOfMonth => toDays time.year time.month element * dayTicks
  | .month => toDays time.year element 1 * dayTicks
  | .dayOfWeek => dayStart time + dayTicks

/-- The step of the field is to an element of its list. -/
def Jumps : CronFieldPos → Str → Prop
  | .dayOfMonth, value =>
    value ≠ ascii "*" ∧ value ≠ ascii "L" ∧ parseNearestWeekday value = []
  | .dayOfWeek, _ => False
  | _, value => value ≠ ascii "*"

theorem Jumps.notEvery (jumps : Jumps field value) : value ≠ ascii "*" := by
  cases field with
  | minute | hour | month => exact jumps
  | dayOfMonth => exact jumps.1
  | dayOfWeek => exact absurd jumps id

theorem Jumps.plain (jumps : Jumps field value) (validated : Validated field value) :
    Plain field value := by
  cases field with
  | minute | hour | month => exact plain_of_numbers (by decide)
  | dayOfMonth => exact (dayOfMonth_cases validated).resolve_left fun held => held.1 jumps.2.2
  | dayOfWeek => exact absurd jumps id

/-- Where a step of a field that does not match leads, or of the minutes. -/
inductive Advance (field : CronFieldPos) (value : Str) (time : DateTime) : Int → Prop where
  | nextMinute : field = .minute → value = ascii "*" →
      Advance field value time (time.timePoint + minuteTicks)
  | nextDay : field = .dayOfMonth ∨ field = .dayOfWeek → ¬ Jumps field value →
      Advance field value time (dayStart time + dayTicks)
  | rollOver {element : Int} : Jumps field value →
      chooseElement field value (number time field) = .ok element →
      element ≤ number time field → Advance field value time (rollOver time field)
  | stepTo {element : Int} : Jumps field value →
      chooseElement field value (number time field) = .ok element →
      number time field < element → element ≤ field.rangeEnd →
      Advance field value time (stepTo time element field)

/-! ### The steps of the fields -/

theorem hourStart_bounds (nonneg : 0 ≤ time.timePoint) :
    0 ≤ hourStart time ∧ hourStart time ≤ time.timePoint ∧ 0 ≤ dayStart time ∧
      dayStart time ≤ time.timePoint := by
  obtain ⟨rest, split, days, hourLow, hourHigh, minuteLow, minuteHigh, restLow, restHigh⟩ :=
    exists_rest nonneg
  simp only [dayStart, hourStart, dayTicks, hourTicks, minuteTicks, secondTicks] at *
  omega

section Fitting

variable (nonneg : 0 ≤ time.timePoint) (fits : time.timePoint < 2 ^ 63)

include nonneg fits

theorem timePoint_minus_minutes :
    (time.minus (time.minute * minuteTicks)).timePoint = hourStart time ∧
      (time.minus (time.minute * minuteTicks)).hour = time.hour := by
  obtain ⟨rest, split, days, hourLow, hourHigh, minuteLow, minuteHigh, restLow, restHigh⟩ :=
    exists_rest nonneg
  obtain ⟨low, high, _⟩ := hourStart_bounds nonneg
  have moved : (time.minus (time.minute * minuteTicks)).timePoint = hourStart time :=
    timePoint_minus (second_dvd_minutes _)
      ⟨by simp only [hourStart] at low; omega, by simp only [hourStart] at high; omega⟩
  obtain ⟨movedRest, movedSplit, movedBounds⟩ :=
    exists_rest (show 0 ≤ (time.minus (time.minute * minuteTicks)).timePoint by omega)
  rw [moved] at movedSplit
  refine ⟨moved, ?_⟩
  simp only [hourStart, dayTicks, hourTicks, minuteTicks, secondTicks] at *
  omega

theorem timePoint_minus_hours : ((time.minus (time.minute * minuteTicks)).minus
    (time.hour * hourTicks)).timePoint = dayStart time := by
  have bounds := hourStart_bounds nonneg
  have minutes := (timePoint_minus_minutes nonneg fits).1
  simp only [dayStart] at bounds
  rw [timePoint_minus (second_dvd_hours _) ⟨by omega, by omega⟩, minutes, dayStart]

theorem nextDay_eq : nextDay time = ofTimePoint (wrap (dayStart time + dayTicks)) := by
  obtain ⟨_, hour⟩ := timePoint_minus_minutes nonneg fits
  rw [nextDay, plus, hour, timePoint_minus_hours nonneg fits]

theorem incrementMinute_advance (validated : Validated .minute value) :
    ∃ target, incrementMinute value time = .ok (ofTimePoint (wrap target)) ∧
      Advance .minute value time target := by
  obtain ⟨minutes, _⟩ := timePoint_minus_minutes nonneg fits
  unfold incrementMinute
  split
  · rename_i every
    exact ⟨_, rfl, .nextMinute rfl every⟩
  · rename_i notEvery
    obtain ⟨element, chosen, within⟩ :=
      chooseElement_of_validated (plain_of_numbers (by decide)).unsuffixed validated time.minute
    simp only [bind_of_ok chosen, plus, minutes]
    split
    · exact ⟨_, rfl, .rollOver notEvery chosen ‹_›⟩
    · exact ⟨_, rfl, .stepTo notEvery chosen (not_le.mp ‹_›) within⟩

theorem incrementHour_advance (validated : Validated .hour value) (notEvery : value ≠ ascii "*") :
    ∃ target, incrementHour value time = .ok (ofTimePoint (wrap target)) ∧
      Advance .hour value time target := by
  obtain ⟨_, hour⟩ := timePoint_minus_minutes nonneg fits
  obtain ⟨element, chosen, within⟩ :=
    chooseElement_of_validated (plain_of_numbers (by decide)).unsuffixed validated time.hour
  simp only [incrementHour, if_neg notEvery, bind_of_ok chosen, hour, plus,
    timePoint_minus_hours nonneg fits]
  split
  · exact ⟨_, rfl, .rollOver notEvery chosen ‹_›⟩
  · exact ⟨_, rfl, .stepTo notEvery chosen (not_le.mp ‹_›) within⟩

theorem incrementDayOfMonth_advance (validated : Validated .dayOfMonth value)
    (notEvery : value ≠ ascii "*") :
    ∃ target, incrementDayOfMonth value time = .ok (ofTimePoint (wrap target)) ∧
      Advance .dayOfMonth value time target := by
  obtain ⟨valid, _, _⟩ := validDate nonneg
  have upTo := year_le_of_fits nonneg fits
  unfold incrementDayOfMonth
  split
  · rename_i daily
    refine ⟨_, congrArg Except.ok (nextDay_eq nonneg fits), .nextDay (.inl rfl) ?_⟩
    rintro ⟨_, notLast, noWeekday⟩
    simp [notEvery, notLast, noWeekday] at daily
  · rename_i elementwise
    simp only [Bool.or_eq_true, decide_eq_true_eq, not_or, Bool.not_eq_true, Bool.not_eq_false',
      List.isEmpty_iff] at elementwise
    obtain ⟨⟨_, notLast⟩, noWeekday⟩ := elementwise
    have jumps : Jumps .dayOfMonth value := ⟨notEvery, notLast, noWeekday⟩
    obtain ⟨element, chosen, within⟩ :=
      chooseElement_of_validated (jumps.plain validated).unsuffixed validated time.day
    simp only [bind_of_ok chosen]
    split
    · have built : ofDate time.year time.month 1 = .ok _ :=
        ofDate_ok (year_ge nonneg) (by omega) valid.firstMonth valid.lastMonth le_rfl (by decide)
      have started := (month_bounds nonneg).1.trans (days_le_lastFit nonneg fits)
      rw [bind_of_ok built, plus, (midnight_ofDate built started).2,
        lastDayOfMonth_ofDate built started, ← Int.add_mul]
      exact ⟨_, rfl, .rollOver jumps chosen ‹_›⟩
    · rename_i later
      have firstDay := valid.firstDay
      have lastDay : element ≤ 31 := within
      exact ⟨_, ofDate_ok (year_ge nonneg) (by omega) valid.firstMonth valid.lastMonth (by omega)
        lastDay, .stepTo jumps chosen (not_le.mp later) within⟩

theorem incrementMonth_advance (validated : Validated .month value)
    (notEvery : value ≠ ascii "*") :
    ∃ target, incrementMonth value time = .ok (ofTimePoint (wrap target)) ∧
      Advance .month value time target := by
  have since := year_ge nonneg
  have upTo := year_le_of_fits nonneg fits
  have firstMonth := (validDate nonneg).1.firstMonth
  obtain ⟨element, chosen, within⟩ :=
    chooseElement_of_validated (plain_of_numbers (by decide)).unsuffixed validated time.month
  have lastMonth : element ≤ 12 := within
  simp only [incrementMonth, if_neg notEvery, bind_of_ok chosen]
  split
  · exact ⟨_, ofDate_ok (by omega) (by omega) le_rfl (by decide) le_rfl (by decide),
      .rollOver notEvery chosen ‹_›⟩
  · rename_i later
    exact ⟨_, ofDate_ok since (by omega) (by omega) lastMonth le_rfl (by decide),
      .stepTo notEvery chosen (not_le.mp later) within⟩

/-- The step of a field of an accepted schedule throws nothing while the ticks
fit. -/
theorem increment_advance (validated : Validated field value)
    (stepped : field = .minute ∨ value ≠ ascii "*") :
    ∃ target, increment field value time = .ok (ofTimePoint (wrap target)) ∧
      Advance field value time target := by
  cases field with
  | minute => exact incrementMinute_advance nonneg fits validated
  | hour => exact incrementHour_advance nonneg fits validated (stepped.resolve_left (by decide))
  | dayOfMonth =>
      exact incrementDayOfMonth_advance nonneg fits validated (stepped.resolve_left (by decide))
  | month => exact incrementMonth_advance nonneg fits validated (stepped.resolve_left (by decide))
  | dayOfWeek =>
      exact ⟨_, congrArg Except.ok (nextDay_eq nonneg fits), .nextDay (.inr rfl) id⟩

end Fitting

/-- Every step leads to a later minute. -/
theorem Advance.later {target : Int} (advance : Advance field value time target)
    (nonneg : 0 ≤ time.timePoint) : time.timePoint / minuteTicks < target / minuteTicks := by
  obtain ⟨rest, split, _, hourLow, hourHigh, minuteLow, minuteHigh, restLow, restHigh⟩ :=
    exists_rest nonneg
  obtain ⟨valid, positive, days⟩ := validDate nonneg
  have atMidnight {later : Int} (after : time.daysSinceEpoch < later) :
      time.timePoint / minuteTicks < later * dayTicks / minuteTicks := by
    simp only [dayTicks, hourTicks, minuteTicks, secondTicks] at *
    omega
  cases advance with
  | nextMinute | nextDay =>
      simp only [dayStart, hourStart, dayTicks, hourTicks, minuteTicks, secondTicks] at *
      omega
  | rollOver =>
      cases field with
      | dayOfMonth => exact atMidnight (month_bounds nonneg).2
      | month => exact atMidnight (year_bounds nonneg).2
      | minute | hour | dayOfWeek =>
          simp only [Cron.rollOver, dayStart, hourStart, dayTicks, hourTicks, minuteTicks,
            secondTicks] at *
          omega
  | @stepTo element jumps chosen above within =>
      cases field with
      | minute | hour =>
          simp only [Cron.stepTo, number, dayStart, hourStart, dayTicks, hourTicks, minuteTicks,
            secondTicks] at *
          omega
      | dayOfMonth =>
          have inMonth := toDays_day time.year time.month time.day
          have stepped := toDays_day time.year time.month element
          simp only [number] at above
          exact atMidnight (by omega)
      | month =>
          have after := toDays_laterMonth positive valid.firstMonth above within
          have inMonth := (month_bounds nonneg).2
          exact atMidnight (inMonth.trans_le after)
      | dayOfWeek => exact absurd jumps id

theorem dayStart_bounds (nonneg : 0 ≤ time.timePoint) :
    time.daysSinceEpoch * dayTicks ≤ dayStart time ∧
      dayStart time < time.daysSinceEpoch * dayTicks + minuteTicks ∧
      hourStart time < time.daysSinceEpoch * dayTicks + 23 * hourTicks + minuteTicks ∧
      time.timePoint < (time.daysSinceEpoch + 1) * dayTicks := by
  obtain ⟨rest, split, _, hourLow, hourHigh, minuteLow, minuteHigh, restLow, restHigh⟩ :=
    exists_rest nonneg
  simp only [dayStart, hourStart, dayTicks, hourTicks, minuteTicks, secondTicks] at *
  omega

/-- No step goes beyond the first day of the next year. -/
theorem Advance.before {next : Int} (advance : Advance field value time next)
    (nonneg : 0 ≤ time.timePoint) : next < (toDays (time.year + 1) 1 1 + 1) * dayTicks := by
  obtain ⟨valid, positive, _⟩ := validDate nonneg
  obtain ⟨low, dayHigh, hourHigh, high⟩ := dayStart_bounds nonneg
  have inYear := (year_bounds nonneg).2
  have ends := monthEnd_le_nextYear positive valid.firstMonth valid.lastMonth
  have nextDay : (time.daysSinceEpoch + 1) * dayTicks ≤ toDays (time.year + 1) 1 1 * dayTicks :=
    Int.mul_le_mul_of_nonneg_right inYear (by decide)
  have atMidnight {days : Int} (within : days ≤ toDays (time.year + 1) 1 1) :
      days * dayTicks < (toDays (time.year + 1) 1 1 + 1) * dayTicks :=
    Int.mul_lt_mul_of_pos_right (by omega) (by decide)
  cases advance with
  | nextMinute | nextDay =>
      simp only [Int.add_mul, dayTicks, hourTicks, minuteTicks, secondTicks] at *
      omega
  | rollOver =>
      cases field with
      | dayOfMonth => exact atMidnight ends
      | month => exact atMidnight le_rfl
      | minute | hour | dayOfWeek =>
          simp only [Cron.rollOver, Int.add_mul, dayTicks, hourTicks, minuteTicks, secondTicks] at *
          omega
  | @stepTo element jumps chosen later within =>
      cases field with
      | minute | hour =>
          simp only [Cron.stepTo, Int.add_mul, dayTicks, hourTicks, minuteTicks, secondTicks,
            CronFieldPos.rangeEnd] at *
          omega
      | dayOfMonth =>
          exact atMidnight (toDays_le_nextYear positive valid.firstMonth valid.lastMonth within)
      | month =>
          have after : time.month < element := later
          have firstMonth := valid.firstMonth
          exact atMidnight (toDays_le_nextYear positive (by omega) within (by decide))
      | dayOfWeek => exact absurd jumps id

namespace CronExpression

variable {expression : CronExpression} {text : Str} {timePoint : Int}

theorem value_of_mismatch {fields : List CronFieldPos}
    (mismatch : expression.firstMismatch time fields = .ok (some field)) :
    expression.value field ≠ ascii "*" := by
  induction fields with
  | nil => cases mismatch
  | cons first rest ih =>
      obtain ⟨matched, tested, result⟩ := bind_eq_ok.mp mismatch
      cases matched with
      | true => exact ih result
      | false =>
          obtain rfl := Option.some.inj (pure_eq_ok.mp result)
          intro every
          rw [fieldMatches_eq, if_pos every] at tested
          cases tested

/-- A probe whose matchers answer returns the time, or steps on. -/
theorem probe_of_mismatch (parsed : ofText text = .ok expression) (nonneg : 0 ≤ time.timePoint)
    (fits : time.timePoint < 2 ^ 63) {mismatch : Option CronFieldPos}
    (tested : expression.firstMismatch time fieldOrder = .ok mismatch) :
    mismatch = none ∧ time.timePoint ≠ timePoint ∧
        expression.probe timePoint time = .ok (.return time) ∨
      (mismatch = none → time.timePoint = timePoint) ∧
        ∃ target, expression.probe timePoint time = .ok (.continue (ofTimePoint (wrap target))) ∧
          Advance (mismatch.getD .minute) (expression.value (mismatch.getD .minute)) time target := by
  have advances (field : CronFieldPos) :=
    fun stepped => increment_advance nonneg fits (validated_of_ofText parsed field) stepped
  rw [probe, bind_of_ok tested]
  cases mismatch with
  | some field =>
      obtain ⟨target, incremented, advance⟩ := advances field (.inr (value_of_mismatch tested))
      refine .inr ⟨by simp, target, ?_, advance⟩
      dsimp only
      rw [bind_of_ok incremented]
      rfl
  | none =>
      dsimp only
      split
      · rename_i first
        obtain ⟨target, incremented, advance⟩ := advances .minute (.inl rfl)
        refine .inr ⟨fun _ => first, target, ?_, advance⟩
        rw [show expression.minute = expression.value .minute from rfl, bind_of_ok incremented]
        rfl
      · exact .inl ⟨rfl, ‹_›, rfl⟩

end CronExpression

end BabyLuigi.Cron
