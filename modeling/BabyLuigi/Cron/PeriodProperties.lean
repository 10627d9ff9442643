import BabyLuigi.Cron.StepProperties

/-! Where the step of a field leads, against a later minute. -/

set_option autoImplicit false

namespace BabyLuigi.Cron

open DateTime

variable {field : CronFieldPos} {time due : DateTime}

structure IsMinute (time : DateTime) : Prop where
  nonneg : 0 ≤ time.timePoint
  whole : minuteTicks ∣ time.timePoint

theorem IsMinute.split (isMinute : IsMinute time) :
    time.timePoint = time.daysSinceEpoch * dayTicks + time.hour * hourTicks +
        time.minute * minuteTicks ∧
      0 ≤ time.hour ∧ time.hour < 24 ∧ 0 ≤ time.minute ∧ time.minute < 60 := by
  obtain ⟨rest, split, _, hourLow, hourHigh, minuteLow, minuteHigh, restLow, restHigh⟩ :=
    exists_rest isMinute.nonneg
  obtain ⟨minutes, whole⟩ := isMinute.whole
  simp only [dayTicks, hourTicks, minuteTicks, secondTicks] at *
  omega

/-- The times lie in one hour, day, month or year: what the field divides. -/
def SamePeriod (time due : DateTime) : CronFieldPos → Prop
  | .minute => due.daysSinceEpoch = time.daysSinceEpoch ∧ due.hour = time.hour
  | .hour => due.daysSinceEpoch = time.daysSinceEpoch
  | .dayOfMonth => due.year = time.year ∧ due.month = time.month
  | .month => due.year = time.year
  | .dayOfWeek => False

/-- The month of the second time follows that of the first. -/
def NextMonth (time due : DateTime) : Prop :=
  toDays due.year due.month 1 = monthEnd time.year time.month

theorem days_mono (nonneg : 0 ≤ time.timePoint) (ordered : time.timePoint ≤ due.timePoint) :
    time.daysSinceEpoch ≤ due.daysSinceEpoch := by
  obtain ⟨rest, split, _, hourLow, _, minuteLow, _, restLow, _⟩ := exists_rest nonneg
  obtain ⟨dueRest, dueSplit, _, _, hourHigh, _, minuteHigh, _, restHigh⟩ :=
    exists_rest (nonneg.trans ordered)
  simp only [dayTicks, hourTicks, minuteTicks, secondTicks] at *
  omega

theorem midnight_le (dueMinute : IsMinute due) {days : Int} :
    days * dayTicks ≤ due.timePoint ↔ days ≤ due.daysSinceEpoch := by
  obtain ⟨dueSplit, _⟩ := dueMinute.split
  simp only [dayTicks, hourTicks, minuteTicks, secondTicks] at *
  omega

/-- The period ends no later than a due minute outside of it. -/
theorem rollOver_before (nonneg : 0 ≤ time.timePoint) (dueMinute : IsMinute due)
    (ordered : time.timePoint ≤ due.timePoint) (divides : field ≠ .dayOfWeek)
    (differ : ¬ SamePeriod time due field) : rollOver time field < due.timePoint + minuteTicks := by
  have days := days_mono nonneg ordered
  have tick : 0 < minuteTicks := by decide
  obtain ⟨rest, split, _, hourLow, hourHigh, minuteLow, minuteHigh, restLow, restHigh⟩ :=
    exists_rest nonneg
  have dueSplit := dueMinute.split
  cases field with
  | minute | hour =>
      simp only [rollOver, hourStart, dayStart, SamePeriod, dayTicks, hourTicks, minuteTicks,
        secondTicks] at *
      omega
  | dayOfMonth =>
      exact ((midnight_le dueMinute).mpr
        (monthEnd_le_of_laterMonth nonneg dueMinute.nonneg days differ)).trans_lt (by omega)
  | month =>
      have years := year_mono nonneg dueMinute.nonneg days
      have differ : due.year ≠ time.year := differ
      exact ((midnight_le dueMinute).mpr
        (newYear_le_of_laterYear nonneg dueMinute.nonneg (by omega))).trans_lt (by omega)
  | dayOfWeek => exact absurd rfl divides

theorem toDays_month_mono {year month later : Int} (positive : 1 ≤ year) (firstMonth : 1 ≤ month)
    (ordered : month ≤ later) (lastMonth : later ≤ 12) : toDays year month 1 ≤ toDays year later 1 := by
  rcases ordered.eq_or_lt with rfl | after
  · exact le_rfl
  · have between := toDays_laterMonth positive firstMonth after lastMonth
    have length := lengthOfMonth_bounds year month
    omega

/-- The step to the number of a due minute inside the period leads no further
than to it, and the step to any later number leads past it. -/
theorem stepTo_bounds (nonneg : 0 ≤ time.timePoint) (dueMinute : IsMinute due)
    (same : SamePeriod time due field) :
    stepTo time (number due field) field < due.timePoint + minuteTicks ∧
      due.timePoint < rollOver time field ∧
      ∀ element, number due field < element → element ≤ field.rangeEnd →
        due.timePoint < stepTo time element field := by
  have tick : 0 < minuteTicks := by decide
  obtain ⟨rest, split, _, hourLow, hourHigh, minuteLow, minuteHigh, restLow, restHigh⟩ :=
    exists_rest nonneg
  have dueSplit := dueMinute.split
  obtain ⟨valid, positive, days⟩ := validDate dueMinute.nonneg
  have inMonth := month_bounds dueMinute.nonneg
  have inYear := year_bounds dueMinute.nonneg
  cases field with
  | minute | hour =>
      simp only [stepTo, rollOver, hourStart, dayStart, SamePeriod, number, dayTicks, hourTicks,
        minuteTicks, secondTicks] at *
      refine ⟨by omega, by omega, ?_⟩
      intro element later within
      omega
  | dayOfMonth =>
      obtain ⟨sameYear, sameMonth⟩ := same
      simp only [stepTo, rollOver, number, ← sameYear, ← sameMonth]
      refine ⟨((midnight_le dueMinute).mpr days.le).trans_lt (by omega), ?_, ?_⟩
      · exact not_le.mp fun past => absurd ((midnight_le dueMinute).mp past) (by omega)
      · intro element later within
        refine not_le.mp fun past => absurd ((midnight_le dueMinute).mp past) ?_
        rw [toDays_day] at days ⊢
        omega
  | month =>
      have sameYear : due.year = time.year := same
      simp only [stepTo, rollOver, number, ← sameYear]
      refine ⟨((midnight_le dueMinute).mpr inMonth.1).trans_lt (by omega), ?_, ?_⟩
      · exact not_le.mp fun past => absurd ((midnight_le dueMinute).mp past) (by omega)
      · intro element later within
        refine not_le.mp fun past => absurd ((midnight_le dueMinute).mp past) ?_
        have after := toDays_laterMonth positive valid.firstMonth later within
        simp only [monthEnd] at inMonth
        omega
  | dayOfWeek => exact absurd same id

theorem stepTo_mono {element later : Int} (nonneg : 0 ≤ time.timePoint)
    (above : number time field < element) (ordered : element ≤ later)
    (within : later ≤ field.rangeEnd) : stepTo time element field ≤ stepTo time later field := by
  obtain ⟨valid, positive, _⟩ := validDate nonneg
  cases field with
  | minute | hour =>
      simp only [stepTo, hourTicks, minuteTicks, secondTicks]
      omega
  | dayOfMonth =>
      refine Int.mul_le_mul_of_nonneg_right ?_ (by decide)
      rw [toDays_day, toDays_day _ _ later]
      omega
  | month =>
      have firstMonth := valid.firstMonth
      have after : time.month < element := above
      exact Int.mul_le_mul_of_nonneg_right
        (toDays_month_mono positive (by omega) ordered within) (by decide)
  | dayOfWeek => exact le_rfl

theorem minute_dvd_hour : minuteTicks ∣ hourTicks := ⟨60, rfl⟩

theorem minute_dvd_day : minuteTicks ∣ dayTicks := ⟨1440, rfl⟩

/-- A step keeps to a unit that minutes are whole numbers of. -/
theorem Advance.whole {value : Str} {unit next : Int} (minutes : unit ∣ minuteTicks)
    (advance : Advance field value time next) (whole : unit ∣ time.timePoint) : unit ∣ next := by
  have hour := minutes.trans minute_dvd_hour
  have day := minutes.trans minute_dvd_day
  have hours : unit ∣ hourStart time := Int.dvd_sub whole (minutes.mul_left _)
  have days : unit ∣ dayStart time := Int.dvd_sub hours (hour.mul_left _)
  cases advance with
  | nextMinute => exact Int.dvd_add whole minutes
  | nextDay => exact Int.dvd_add days day
  | rollOver =>
      cases field with
      | minute => exact Int.dvd_add hours hour
      | hour | dayOfWeek => exact Int.dvd_add days day
      | dayOfMonth | month => exact day.mul_left _
  | stepTo =>
      cases field with
      | minute => exact Int.dvd_add hours (minutes.mul_left _)
      | hour => exact Int.dvd_add days (hour.mul_left _)
      | dayOfWeek => exact Int.dvd_add days day
      | dayOfMonth | month => exact day.mul_left _

/-! ### The month after -/

theorem exists_monthAfter {year month : Int} (positive : 1 ≤ year) (firstMonth : 1 ≤ month)
    (lastMonth : month ≤ 12) : ∃ nextYear nextMonth, 1 ≤ nextYear ∧ 1 ≤ nextMonth ∧
      nextMonth ≤ 12 ∧ toDays nextYear nextMonth 1 = monthEnd year month := by
  rcases lastMonth.eq_or_lt with rfl | earlier
  · refine ⟨year + 1, 1, by omega, le_rfl, by decide, ?_⟩
    rw [← toDays_nextYear positive, toDays_day]
    simp only [monthEnd, show lengthOfMonth year 12 = 31 from rfl]
    omega
  · exact ⟨year, month + 1, positive, by omega, by omega,
      (toDays_nextMonth positive firstMonth earlier).symm⟩

/-- Behind the month, a due minute that is not in the next one lies at least
four weeks ahead. -/
theorem fourWeeks_le (nonneg : 0 ≤ time.timePoint) (dueMinute : IsMinute due)
    (behind : monthEnd time.year time.month ≤ due.daysSinceEpoch)
    (notNext : ¬ NextMonth time due) :
    monthEnd time.year time.month + 28 ≤ due.daysSinceEpoch := by
  obtain ⟨valid, positive, _⟩ := validDate nonneg
  obtain ⟨year, month, yearPositive, firstMonth, lastMonth, starts⟩ :=
    exists_monthAfter positive valid.firstMonth valid.lastMonth
  have start := (month_bounds nonneg).2
  let first := ofTimePoint (toDays year month 1 * dayTicks)
  have midnight : first.timePoint = toDays year month 1 * dayTicks :=
    timePoint_ofTimePoint (second_dvd_days _)
  have date := date_of_midnight (ValidDate.first firstMonth lastMonth) yearPositive midnight
  have firstDays := days_of_midnight midnight
  have firstNonneg : 0 ≤ first.timePoint := by
    have since := (exists_rest nonneg).choose_spec.2.1
    rw [midnight]
    exact Int.mul_nonneg (by omega) (by decide)
  have differ : ¬ (due.year = first.year ∧ due.month = first.month) := by
    rw [date.1, date.2.1]
    rintro ⟨rfl, rfl⟩
    exact notNext starts
  have beyond := monthEnd_le_of_laterMonth firstNonneg dueMinute.nonneg (by omega) differ
  have length := lengthOfMonth_bounds year month
  rw [date.1, date.2.1, monthEnd] at beyond
  omega

/-! ### Steps past a due minute -/

/-- The first two neighbours of the list that the number lies between end with
this one. -/
inductive FirstAbove (number : Int) : List Int → Int → Prop where
  | here {lower upper : Int} {rest : List Int} : lower ≤ number → number < upper →
      FirstAbove number (lower :: upper :: rest) upper
  | later {lower upper element : Int} {rest : List Int} : ¬ (lower ≤ number ∧ number < upper) →
      FirstAbove number (upper :: rest) element → FirstAbove number (lower :: upper :: rest) element

/-- What follows a number in a list as it is written: the upper one of the first
neighbours around it, or else the first of the list. -/
def FollowsIn (list : List Int) (number element : Int) : Prop :=
  FirstAbove number list element ∨
    (∀ upper, ¬ FirstAbove number list upper) ∧ list.head? = some element

theorem scan_follows {number first : Int} {rest : List Int} : ∀ current : Int,
    FirstAbove number (current :: rest) (nextElement.scan number first current rest) ∨
      (∀ upper, ¬ FirstAbove number (current :: rest) upper) ∧
        nextElement.scan number first current rest = first := by
  induction rest with
  | nil =>
      intro current
      exact .inr ⟨fun _ above => (nomatch above), rfl⟩
  | cons next rest ih =>
      intro current
      rw [nextElement.scan]
      split
      · rename_i between
        exact .inl (.here between.1 between.2)
      · rename_i outside
        rcases ih next with above | ⟨none, isFirst⟩
        · exact .inl (.later outside above)
        · refine .inr ⟨fun upper above => ?_, isFirst⟩
          cases above with
          | here low high => exact outside ⟨low, high⟩
          | later _ above => exact none upper above

theorem FirstAbove.unique {number element other : Int} {list : List Int}
    (above : FirstAbove number list element) (otherAbove : FirstAbove number list other) :
    element = other := by
  induction above with
  | here low high =>
      cases otherAbove with
      | here => rfl
      | later outside => exact absurd ⟨low, high⟩ outside
  | later outside _ ih =>
      cases otherAbove with
      | here low high => exact absurd ⟨low, high⟩ outside
      | later _ above => exact ih above

theorem nextElement_eq_some {number element : Int} {list : List Int} :
    nextElement number list = some element ↔ FollowsIn list number element := by
  cases list with
  | nil =>
      refine iff_of_false (by simp [nextElement]) ?_
      rintro (above | ⟨_, isFirst⟩)
      · cases above
      · cases isFirst
  | cons first rest =>
      simp only [nextElement, FollowsIn, List.head?_cons, Option.some.injEq]
      rcases scan_follows first with above | ⟨none, isFirst⟩
      · constructor
        · rintro rfl
          exact .inl above
        · rintro (otherAbove | ⟨none, _⟩)
          · exact above.unique otherAbove
          · exact absurd above (none _)
      · simp [none, isFirst]

/-- The number of the field's list that follows another. -/
def Follows (field : CronFieldPos) (value : Str) (number element : Int) : Prop :=
  ∃ list, createList field value = .ok list ∧ FollowsIn list number element

theorem chooseElement_eq_ok {value : Str} {number element : Int} :
    chooseElement field value number = .ok element ↔ Follows field value number element := by
  rw [chooseElement, bind_eq_ok]
  refine exists_congr fun list => and_congr_right fun _ => ?_
  rw [← nextElement_eq_some]
  cases nextElement number list <;> simp [pure_eq_ok]

/-- The step of the field to the number that follows in its list leaves out the
due minute: it is skipped in its own hour, day, month or year, or lies in the next
month, into which a day past the end of this one reaches. -/
inductive Passes (field : CronFieldPos) (value : Str) (time due : DateTime) : Prop where
  | skips {element : Int} : Jumps field value → Follows field value (number time field) element →
      SamePeriod time due field → element ≤ number time field ∨ number due field < element →
      Passes field value time due
  | overflows {element : Int} : field = .dayOfMonth → Jumps field value →
      Follows field value (number time field) element → NextMonth time due →
      lengthOfMonth time.year time.month + due.day < element → Passes field value time due

theorem overflow_bounds (dueMinute : IsMinute due) (next : NextMonth time due) (element : Int) :
    due.timePoint < stepTo time element .dayOfMonth ↔
      lengthOfMonth time.year time.month + due.day < element := by
  obtain ⟨_, _, days⟩ := validDate dueMinute.nonneg
  rw [toDays_day, next, monthEnd] at days
  rw [stepTo, ← not_le, midnight_le dueMinute, toDays_day, ← days]
  omega

theorem number_le (nonneg : 0 ≤ time.timePoint) (divides : field ≠ .dayOfWeek) :
    number time field ≤ field.rangeEnd := by
  obtain ⟨_, _, _, _, hourHigh, _, minuteHigh, _⟩ := exists_rest nonneg
  obtain ⟨valid, _, _⟩ := validDate nonneg
  have lastMonth := valid.lastMonth
  have lastDay := valid.lastDay
  have length := lengthOfMonth_bounds time.year time.month
  cases field with
  | dayOfWeek => exact absurd rfl divides
  | minute | hour | dayOfMonth | month =>
      simp only [number, CronFieldPos.rangeEnd]
      omega

/-- Outside the period, only a day of the month can lead past a due minute. -/
theorem stepTo_before_of_differ {value : Str} {element : Int} (nonneg : 0 ≤ time.timePoint)
    (dueMinute : IsMinute due) (behind : rollOver time field < due.timePoint + minuteTicks)
    (jumps : Jumps field value)
    (chosen : chooseElement field value (number time field) = .ok element)
    (above : number time field < element) (within : element ≤ field.rangeEnd)
    (passesNot : ¬ Passes field value time due) :
    stepTo time element field < due.timePoint + minuteTicks := by
  have tick : 0 < minuteTicks := by decide
  -- Both are midnights, so that the one lies no later than the other.
  have midnight {days : Int} (before : days * dayTicks < due.timePoint + minuteTicks) :
      days ≤ due.daysSinceEpoch := by
    have dueSplit := dueMinute.split
    simp only [dayTicks, hourTicks, minuteTicks, secondTicks] at *
    omega
  cases field with
  | minute | hour =>
      simp only [stepTo, rollOver, CronFieldPos.rangeEnd, dayTicks, hourTicks, minuteTicks,
        secondTicks] at *
      omega
  | dayOfMonth =>
      have days : monthEnd time.year time.month ≤ due.daysSinceEpoch := midnight behind
      by_cases next : NextMonth time due
      · have notPast : stepTo time element .dayOfMonth ≤ due.timePoint := not_lt.mp fun past =>
          passesNot (.overflows rfl jumps (chooseElement_eq_ok.mp chosen) next
            ((overflow_bounds dueMinute next element).mp past))
        omega
      · have far := fourWeeks_le nonneg dueMinute days next
        have length := lengthOfMonth_bounds time.year time.month
        have lastDay : element ≤ 31 := within
        refine ((midnight_le dueMinute).mpr ?_).trans_lt (show due.timePoint < _ by omega)
        rw [toDays_day]
        simp only [monthEnd] at far
        omega
  | month =>
      obtain ⟨valid, positive, _⟩ := validDate nonneg
      have firstMonth := valid.firstMonth
      have after : time.month < element := above
      exact (Int.mul_le_mul_of_nonneg_right (toDays_le_nextYear positive (by omega) within
        (by decide)) (by decide)).trans_lt behind
  | dayOfWeek => exact absurd jumps id

/-- A step that does not pass a due minute leads no further than to it. -/
theorem before_of_not_passes {value : Str} {next : Int} (nonneg : 0 ≤ time.timePoint)
    (dueMinute : IsMinute due) (ordered : time.timePoint < due.timePoint)
    (otherDay : field = .dayOfMonth ∨ field = .dayOfWeek →
      due.daysSinceEpoch ≠ time.daysSinceEpoch)
    (advance : Advance field value time next) (passesNot : ¬ Passes field value time due) :
    next < due.timePoint + minuteTicks := by
  obtain ⟨rest, split, _, hourLow, hourHigh, minuteLow, minuteHigh, restLow, restHigh⟩ :=
    exists_rest nonneg
  have days := days_mono nonneg ordered.le
  cases advance with
  | nextMinute => omega
  | nextDay isDay =>
      have later := otherDay isDay
      have dueSplit := dueMinute.split
      simp only [dayStart, hourStart, dayTicks, hourTicks, minuteTicks, secondTicks] at *
      omega
  | rollOver jumps chosen below =>
      have divides : field ≠ .dayOfWeek := by
        rintro rfl
        exact jumps
      exact rollOver_before nonneg dueMinute ordered.le divides fun same =>
        passesNot (.skips jumps (chooseElement_eq_ok.mp chosen) same (.inl below))
  | @stepTo element jumps chosen above within =>
      have divides : field ≠ .dayOfWeek := by
        rintro rfl
        exact jumps
      by_cases same : SamePeriod time due field
      · have notPast : element ≤ number due field := not_lt.mp fun past =>
          passesNot (.skips jumps (chooseElement_eq_ok.mp chosen) same (.inr past))
        exact (stepTo_mono nonneg above notPast (number_le dueMinute.nonneg divides)).trans_lt
          (stepTo_bounds nonneg dueMinute same).1
      · exact stepTo_before_of_differ nonneg dueMinute
          (rollOver_before nonneg dueMinute ordered.le divides same) jumps chosen above within
          passesNot

end BabyLuigi.Cron
