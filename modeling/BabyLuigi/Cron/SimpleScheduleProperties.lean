import BabyLuigi.Cron.LeastOccurrenceProperties

/-! Schedules whose fields are each a star or one number. -/

set_option autoImplicit false

namespace BabyLuigi.Cron

open DateTime

variable {field : CronFieldPos} {text : Str} {number : Int} {time : DateTime}

/-! ### One number -/

/-- The digits of a number. -/
structure IsNumber (text : Str) (number : Int) : Prop where
  nonempty : text ≠ []
  digits : ∀ char ∈ text, isDigit char = true
  value : digitsValue text = number
  fits : number ≤ intMax

namespace IsNumber

theorem absent (isNumber : IsNumber text number) {char : UInt8} (notDigit : isDigit char = false) :
    char ∉ text := fun member => by
  cases notDigit.symm.trans (isNumber.digits char member)

theorem ne_of_other (isNumber : IsNumber text number) {other : Str}
    (notDigits : ∃ char ∈ other, isDigit char = false) : text ≠ other := by
  rintro rfl
  obtain ⟨char, member, notDigit⟩ := notDigits
  exact isNumber.absent notDigit member

theorem strtol (isNumber : IsNumber text number) : Cron.strtol text = some (number, []) := by
  have whole := cString_append_of_noNul (isNumber.absent (show isDigit 0 = false from rfl)) []
  rw [List.append_nil, show cString [] = [] from rfl, List.append_nil] at whole
  have numeral : Numeral text [] text [] :=
    ⟨⟨[], by simpa using whole, by simp⟩, .inl rfl, isNumber.nonempty, isNumber.digits, by simp⟩
  rw [strtol_of_numeral numeral, signed, if_neg (by decide), Int.one_mul, isNumber.value]

theorem stoi (isNumber : IsNumber text number) : Cron.stoi text = .ok number := by
  have low : 0 ≤ number := isNumber.value ▸ digitsValue_nonneg isNumber.digits
  exact stoi_eq_ok.mpr ⟨⟨_, isNumber.strtol⟩, by simp only [intMin]; omega, isNumber.fits⟩

theorem fromLiteral (isNumber : IsNumber text number) : Cron.fromLiteral field text = .ok number := by
  have unknown : field.literals.lookup text = none := by
    cases known : field.literals.lookup text with
    | none => rfl
    | some literal =>
        obtain ⟨earlier, later, split, _⟩ := List.lookup_eq_some_iff.mp known
        have all : ∀ pair ∈ field.literals, ∃ char ∈ pair.1, isDigit char = false := by
          cases field <;> decide
        exact absurd rfl (isNumber.ne_of_other (all (text, literal) (by simp [split])))
  have numeric : isNumeric text = true := (isNumeric_iff isNumber.strtol).mpr rfl
  simp only [Cron.fromLiteral, unknown, if_pos numeric, isNumber.stoi]

theorem plainText (isNumber : IsNumber text number) :
    hasStep text = false ∧ hasList text = false ∧ hasRange text = false := by
  simp only [hasStep, hasList, hasRange, List.contains_eq_mem, decide_eq_false_iff_not]
  exact ⟨isNumber.absent rfl, isNumber.absent rfl, isNumber.absent rfl⟩

theorem noSuffix (isNumber : IsNumber text number) : parseNearestWeekday text = [] ∧
    parseLastDayOfWeek text = [] ∧ parseNthDayOfWeek text = ([], []) := by
  have noWeekday : 87 ∉ text := isNumber.absent rfl
  have noLast : 76 ∉ text := isNumber.absent rfl
  have noCount : 35 ∉ text := isNumber.absent rfl
  simp [parseNearestWeekday, parseLastDayOfWeek, parseNthDayOfWeek, before, noWeekday, noLast, noCount]

theorem validateBase (isNumber : IsNumber text number) (check : Str → Except Fault Bool)
    (low : field.rangeStart ≤ number) (high : number ≤ field.rangeEnd) :
    Cron.validateBase field check text = .ok true := by
  obtain ⟨noStep, noList, noRange⟩ := isNumber.plainText
  have nonempty : text.isEmpty = false := by simpa using isNumber.nonempty
  have notEvery : text ≠ ascii "*" := isNumber.ne_of_other ⟨42, by decide, rfl⟩
  have nonneg : 0 ≤ number := isNumber.value ▸ digitsValue_nonneg isNumber.digits
  simp only [Cron.validateBase, nonempty, noStep, noList, noRange, Bool.false_eq_true, if_false,
    if_neg notEvery, bind_of_ok isNumber.fromLiteral]
  exact congrArg Except.ok (decide_eq_true ⟨nonneg, low, high⟩)

theorem validate (isNumber : IsNumber text number) (low : field.rangeStart ≤ number)
    (high : number ≤ field.rangeEnd) : Cron.validate field text = .ok true := by
  obtain ⟨_, noList, _⟩ := isNumber.plainText
  obtain ⟨noWeekday, noLast, noCount⟩ := isNumber.noSuffix
  have notL : text ≠ ascii "L" := isNumber.ne_of_other ⟨76, by decide, rfl⟩
  have notAny : text ≠ ascii "?" := isNumber.ne_of_other ⟨63, by decide, rfl⟩
  have shared : Cron.validateBase field (validateWithin text.length field) text = .ok true :=
    isNumber.validateBase _ low high
  cases field with
  | minute | hour | month => exact shared
  | dayOfMonth =>
      simp only [Cron.validate, validateWithin, notL, notAny, noWeekday, noList, decide_false,
        Bool.or_self, Bool.false_and, Bool.false_eq_true, if_false, List.isEmpty_nil, if_true]
      exact shared
  | dayOfWeek =>
      simp only [Cron.validate, validateWithin, if_neg notAny, noLast, noCount, List.isEmpty_nil,
        Bool.not_true, Bool.false_eq_true, if_false]
      exact shared

theorem matchField (isNumber : IsNumber text number) (field : CronFieldPos) (time : DateTime) :
    Cron.matchField field text time = .ok (decide (Cron.number time field = number)) := by
  obtain ⟨noStep, noList, noRange⟩ := isNumber.plainText
  obtain ⟨noWeekday, noLast, noCount⟩ := isNumber.noSuffix
  have notL : text ≠ ascii "L" := isNumber.ne_of_other ⟨76, by decide, rfl⟩
  have notAny : text ≠ ascii "?" := isNumber.ne_of_other ⟨63, by decide, rfl⟩
  have notEvery : text ≠ ascii "*" := isNumber.ne_of_other ⟨42, by decide, rfl⟩
  have numbers (position : CronFieldPos) (value : Int) :
      matchNumber position text value = .ok (decide (value = number)) := by
    simp only [matchNumber, if_neg notEvery, noStep, noList, noRange, Bool.or_self,
      Bool.false_eq_true, if_false, bind_of_ok isNumber.fromLiteral]
    rfl
  cases field with
  | minute | hour | month => exact numbers _ _
  | dayOfMonth =>
      rw [Cron.matchField, matchDayOfMonth_number notAny notL noWeekday]
      exact numbers _ _
  | dayOfWeek =>
      rw [Cron.matchField, matchDayOfWeek_number notAny noLast (congrArg Prod.fst noCount)]
      exact numbers _ _

end IsNumber

/-! ### Fields and schedules -/

/-- A field of a simple schedule: a star, or the digits of one of its numbers. -/
inductive Cell (field : CronFieldPos) : Str → Option Int → Prop where
  | every : Cell field (ascii "*") none
  | only {text : Str} {number : Int} : IsNumber text number → field.rangeStart ≤ number →
      number ≤ field.rangeEnd → Cell field text (some number)

theorem Cell.validate {content : Option Int} (cell : Cell field text content) :
    Cron.validate field text = .ok true := by
  cases cell with
  | every => cases field <;> rfl
  | only isNumber low high => exact isNumber.validate low high

theorem Cell.word {content : Option Int} (cell : Cell field text content) :
    text ≠ [] ∧ ∀ char ∈ text, isSpace char = false := by
  cases cell with
  | every =>
      refine ⟨by decide, fun char member => ?_⟩
      obtain rfl := List.mem_singleton.mp member
      rfl
  | only isNumber =>
      exact ⟨isNumber.nonempty, fun char member => (isDigit_not_sign (isNumber.digits char member)).1⟩

theorem Cell.isStarLike {content : Option Int} (cell : Cell field text content) :
    isStarLike text = content.isNone ∧ isSimpleValue text = content.isSome := by
  cases cell with
  | every => exact ⟨rfl, rfl⟩
  | only isNumber =>
      have notEvery : text ≠ ascii "*" := isNumber.ne_of_other ⟨42, by decide, rfl⟩
      have notAny : text ≠ ascii "?" := isNumber.ne_of_other ⟨63, by decide, rfl⟩
      have plain : ∀ char ∈ text, (ascii "*/-,").contains char = false := by
        intro char member
        by_contra special
        have notDigits : ∀ other ∈ ascii "*/-,", isDigit other = false := by simp [ascii, isDigit]
        cases (isNumber.digits char member).symm.trans
          (notDigits char (by simpa using special))
      have noSpecial : (text.any fun char => (ascii "*/-,").contains char) = false := by
        simpa using plain
      refine ⟨by simp [BabyLuigi.isStarLike, notEvery, notAny], ?_⟩
      rw [isSimpleValue, noSpecial]
      simpa using isNumber.nonempty

theorem words_cons {word : Str} (nonempty : word ≠ []) (noSpace : ∀ char ∈ word, isSpace char = false)
    (rest : Str) : words (word ++ 32 :: rest) = word :: words rest := by
  rw [words, List.splitOnP_append_cons_of_forall_mem noSpace 32 rfl, List.filter_cons_of_pos]
  · rfl
  · simpa using nonempty

theorem words_single {word : Str} (nonempty : word ≠ [])
    (noSpace : ∀ char ∈ word, isSpace char = false) : words word = [word] := by
  rw [words, List.splitOnP_eq_singleton noSpace, List.filter_cons_of_pos]
  · rfl
  · simpa using nonempty

namespace CronExpression

variable {expression : CronExpression}

/-- The five fields between single blanks. -/
def print (expression : CronExpression) : Str :=
  expression.value .minute ++ 32 :: (expression.value .hour ++ 32 ::
    (expression.value .dayOfMonth ++ 32 :: (expression.value .month ++ 32 ::
      expression.value .dayOfWeek)))

/-- Every field of the schedule is simple, with this content. -/
def Simple (expression : CronExpression) (content : CronFieldPos → Option Int) : Prop :=
  ∀ field, Cell field (expression.value field) (content field)

variable {content : CronFieldPos → Option Int}

theorem Simple.words (simple : expression.Simple content) : words expression.print =
    [expression.value .minute, expression.value .hour, expression.value .dayOfMonth,
      expression.value .month, expression.value .dayOfWeek] := by
  have word (field : CronFieldPos) := (simple field).word
  rw [print, words_cons (word .minute).1 (word .minute).2, words_cons (word .hour).1 (word .hour).2,
    words_cons (word .dayOfMonth).1 (word .dayOfMonth).2,
    words_cons (word .month).1 (word .month).2, words_single (word .dayOfWeek).1 (word .dayOfWeek).2]

theorem Simple.ofText (simple : expression.Simple content) :
    CronExpression.ofText expression.print = .ok expression := by
  have valid (field : CronFieldPos) :
      requireValid field (expression.value field) = .ok () := by
    rw [requireValid, bind_of_ok (simple field).validate]
    rfl
  rw [CronExpression.ofText, simple.words]
  dsimp only
  rw [bind_of_ok (valid .minute), bind_of_ok (valid .hour), bind_of_ok (valid .dayOfMonth),
    bind_of_ok (valid .month), bind_of_ok (valid .dayOfWeek)]
  rfl

theorem Simple.fieldFits_iff (simple : expression.Simple content) (field : CronFieldPos) :
    expression.FieldFits time field ↔ ∀ number ∈ content field, Cron.number time field = number := by
  unfold FieldFits
  have cell := simple field
  generalize expression.value field = text at cell ⊢
  generalize content field = chosen at cell ⊢
  cases cell with
  | every => simp
  | @only text number isNumber =>
      have notEvery : text ≠ ascii "*" := isNumber.ne_of_other ⟨42, by decide, rfl⟩
      have single : elements text = [text] := by
        rw [elements, if_neg (by simp [isNumber.plainText])]
      simp [notEvery, single, isNumber.matchField]

end CronExpression

/-! ### Recurrence -/

theorem lengthOfMonth_le_leap (year month : Int) :
    lengthOfMonth year month ≤ lengthOfMonth 2000 month := by
  have leap : isLeap 2000 = true := rfl
  simp only [lengthOfMonth, leap, if_true]
  split_ifs <;> omega

/-- A date of a leap year comes again arbitrarily late. -/
theorem exists_farDate {month day : Int} (valid : ValidDate 2000 month day) (bound : Nat) :
    ∃ year, 2000 ≤ year ∧ ValidDate year month day ∧ bound ≤ toDays year month day := by
  induction bound with
  | zero =>
      have nonneg := toDays_nonneg (show (1970 : Int) ≤ 2000 by decide) valid.firstMonth
        valid.lastMonth day
      have firstDay := valid.firstDay
      exact ⟨2000, le_rfl, valid, by omega⟩
  | succ bound ih =>
      obtain ⟨year, since, yearValid, far⟩ := ih
      have length : lengthOfMonth (year + 400) month = lengthOfMonth year month := by
        simp only [lengthOfMonth, isLeap_cycle (show 0 ≤ year by omega)]
      refine ⟨year + 400, by omega, ?_, ?_⟩
      · exact ⟨yearValid.firstMonth, yearValid.lastMonth, yearValid.firstDay,
          length ▸ yearValid.lastDay⟩
      · rw [toDays_cycle (by omega), cycleDays]
        omega

theorem clock_of_split {days hour minute : Int}
    (split : time.timePoint = days * dayTicks + hour * hourTicks + minute * minuteTicks)
    (since : 0 ≤ days) (hourLow : 0 ≤ hour) (hourHigh : hour < 24) (minuteLow : 0 ≤ minute)
    (minuteHigh : minute < 60) :
    0 ≤ time.timePoint ∧ time.daysSinceEpoch = days ∧ time.hour = hour ∧ time.minute = minute := by
  have nonneg : 0 ≤ time.timePoint := by
    simp only [split, dayTicks, hourTicks, minuteTicks, secondTicks]
    omega
  obtain ⟨rest, again, _, _, _, _, _, _, _⟩ := exists_rest nonneg
  refine ⟨nonneg, ?_⟩
  simp only [dayTicks, hourTicks, minuteTicks, secondTicks] at *
  omega

theorem Cell.bounds {content : Option Int} (cell : Cell field text content) :
    ∀ number ∈ content, field.rangeStart ≤ number ∧ number ≤ field.rangeEnd := by
  cases cell with
  | every => simp
  | only _ low high => simpa using ⟨low, high⟩

theorem exists_chosen {content : Option Int} (cell : Cell field text content)
    (within : field.rangeStart ≤ field.rangeEnd) :
    ∃ number, (∀ chosen ∈ content, chosen = number) ∧ field.rangeStart ≤ number ∧
      number ≤ field.rangeEnd := by
  cases content with
  | none => exact ⟨field.rangeStart, by simp, le_rfl, within⟩
  | some number => exact ⟨number, by simp, cell.bounds number rfl⟩

namespace CronExpression

variable {expression : CronExpression} {content : CronFieldPos → Option Int}

/-- From every point in time there is a later minute at which all fields match. -/
def Recurs (expression : CronExpression) : Prop :=
  ∀ timePoint : Int, ∃ later, timePoint < later ∧ minuteTicks ∣ later ∧
    ∀ field, expression.FieldFits (ofTimePoint later) field

/-- The day of the month, if any, occurs in the month, if any. -/
def DateExists (content : CronFieldPos → Option Int) : Prop :=
  ∀ day ∈ content .dayOfMonth, ∀ month ∈ content .month, day ≤ lengthOfMonth 2000 month

theorem Simple.exists_date (simple : expression.Simple content) (dateExists : DateExists content) :
    ∃ month day, ValidDate 2000 month day ∧ (∀ chosen ∈ content .dayOfMonth, day = chosen) ∧
      ∀ chosen ∈ content .month, month = chosen := by
  have dayBounds := (simple .dayOfMonth).bounds
  have monthBounds := (simple .month).bounds
  unfold DateExists at dateExists
  generalize content .dayOfMonth = dayOfMonth at *
  generalize content .month = monthOfYear at *
  have january : lengthOfMonth 2000 1 = 31 := rfl
  simp only [CronFieldPos.rangeStart, CronFieldPos.rangeEnd] at dayBounds monthBounds
  cases dayOfMonth with
  | none =>
      cases monthOfYear with
      | none => exact ⟨1, 1, ValidDate.first (by decide) (by decide), by simp, by simp⟩
      | some month =>
          obtain ⟨low, high⟩ := monthBounds month rfl
          exact ⟨month, 1, ValidDate.first low high, by simp, by simp⟩
  | some day =>
      obtain ⟨low, high⟩ := dayBounds day rfl
      cases monthOfYear with
      | none => exact ⟨1, day, ⟨by decide, by decide, low, by omega⟩, by simp, by simp⟩
      | some month =>
          obtain ⟨first, last⟩ := monthBounds month rfl
          exact ⟨month, day, ⟨first, last, low, dateExists day rfl month rfl⟩, by simp, by simp⟩

/-- A simple schedule for dates or for days of the week has a day late enough. -/
theorem Simple.exists_day (simple : expression.Simple content) (dateExists : DateExists content)
    (oneKind : content .dayOfWeek = none ∨ content .dayOfMonth = none ∧ content .month = none)
    (bound : Nat) :
    ∃ days : Int, bound ≤ days ∧ ∀ time : DateTime, 0 ≤ time.timePoint →
      time.daysSinceEpoch = days →
        (∀ chosen ∈ content .dayOfMonth, time.day = chosen) ∧
        (∀ chosen ∈ content .month, time.month = chosen) ∧
        ∀ chosen ∈ content .dayOfWeek, time.dayOfWeek = chosen := by
  rcases oneKind with noWeekday | ⟨noDay, noMonth⟩
  · obtain ⟨month, day, valid, isDay, isMonth⟩ := simple.exists_date dateExists
    obtain ⟨year, since, yearValid, far⟩ := exists_farDate valid bound
    refine ⟨_, far, fun time nonneg days => ?_⟩
    obtain ⟨_, timeMonth, timeDay⟩ := date_of_days yearValid (by omega) days
    exact ⟨timeDay ▸ isDay, timeMonth ▸ isMonth, by simp [noWeekday]⟩
  · obtain ⟨weekday, isWeekday, low, high⟩ := exists_chosen (simple .dayOfWeek) (by decide)
    simp only [CronFieldPos.rangeStart, CronFieldPos.rangeEnd] at low high
    refine ⟨7 * bound + (weekday + 3) % 7, by omega, fun time nonneg days => ?_⟩
    refine ⟨by simp [noDay], by simp [noMonth], fun chosen member => ?_⟩
    rw [isWeekday chosen member, dayOfWeek_eq time, days]
    omega

/-- A simple schedule for dates or for days of the week recurs exactly if its
date exists in leap years. -/
theorem Simple.recurs_iff (simple : expression.Simple content)
    (oneKind : content .dayOfWeek = none ∨ content .dayOfMonth = none ∧ content .month = none) :
    expression.Recurs ↔ DateExists content := by
  constructor
  · intro recurs day isDay month isMonth
    obtain ⟨later, after, whole, fits⟩ := recurs 0
    have same : (ofTimePoint later).timePoint = later :=
      timePoint_ofTimePoint (second_dvd_minute.trans whole)
    obtain ⟨valid, _, _⟩ := validDate (show 0 ≤ (ofTimePoint later).timePoint by omega)
    have timeDay := (simple.fieldFits_iff .dayOfMonth).mp (fits .dayOfMonth) day isDay
    have timeMonth := (simple.fieldFits_iff .month).mp (fits .month) month isMonth
    simp only [number] at timeDay timeMonth
    rw [← timeDay, ← timeMonth]
    exact valid.lastDay.trans (lengthOfMonth_le_leap _ _)
  · intro dateExists timePoint
    obtain ⟨days, late, onDay⟩ := simple.exists_day dateExists oneKind (timePoint.toNat + 1)
    obtain ⟨hour, isHour, hourLow, hourHigh⟩ := exists_chosen (simple .hour) (by decide)
    obtain ⟨minute, isMinute, minuteLow, minuteHigh⟩ := exists_chosen (simple .minute) (by decide)
    simp only [CronFieldPos.rangeStart, CronFieldPos.rangeEnd] at hourLow hourHigh minuteLow minuteHigh
    have whole : minuteTicks ∣ days * dayTicks + hour * hourTicks + minute * minuteTicks :=
      Int.dvd_add (Int.dvd_add (minute_dvd_day.mul_left _) (minute_dvd_hour.mul_left _))
        (Int.dvd_mul_left _ _)
    have split := timePoint_ofTimePoint (second_dvd_minute.trans whole)
    obtain ⟨nonneg, timeDays, timeHour, timeMinute⟩ :=
      clock_of_split split (by omega) hourLow (by omega) minuteLow (by omega)
    obtain ⟨fitsDay, fitsMonth, fitsWeekday⟩ := onDay _ nonneg timeDays
    refine ⟨_, ?_, whole, fun field => (simple.fieldFits_iff field).mpr ?_⟩
    · simp only [dayTicks, hourTicks, minuteTicks, secondTicks]
      omega
    · cases field with
      | minute => exact fun chosen member => timeMinute.trans (isMinute chosen member).symm
      | hour => exact fun chosen member => timeHour.trans (isHour chosen member).symm
      | dayOfMonth => exact fitsDay
      | month => exact fitsMonth
      | dayOfWeek => exact fitsWeekday

end CronExpression

end BabyLuigi.Cron
