import BabyLuigi.Cron.PeriodProperties

/-! The times that the fields of a schedule fit, and the field whose step leads
on from the others. -/

set_option autoImplicit false

namespace BabyLuigi.Cron.CronExpression

open DateTime

variable {expression : CronExpression} {text : Str} {time other : DateTime} {field : CronFieldPos}

def Matches (expression : CronExpression) (time : DateTime) : Prop :=
  expression.firstMismatch time fieldOrder = .ok none

/-- The field is `*`, or its text or an element of its list matches. -/
def FieldFits (expression : CronExpression) (time : DateTime) (field : CronFieldPos) : Prop :=
  expression.value field = ascii "*" ∨
    ∃ element ∈ elements (expression.value field), matchField field element time = .ok true

theorem anyMatches_eq_ok {values : List Str} {matched : Bool}
    (result : anyMatches field time values = .ok matched) :
    matched = true ↔ ∃ element ∈ values, matchField field element time = .ok true := by
  induction values with
  | nil =>
      cases result
      simp
  | cons first rest ih =>
      obtain ⟨firstMatched, tested, result⟩ := bind_eq_ok.mp result
      rw [List.exists_mem_cons_iff, tested]
      cases firstMatched with
      | true =>
          obtain rfl := pure_eq_ok.mp result
          simp
      | false =>
          rw [ih result]
          simp

theorem fieldMatches_eq_ok {matched : Bool}
    (result : expression.fieldMatches time field = .ok matched) :
    matched = true ↔ expression.FieldFits time field := by
  rw [fieldMatches_eq] at result
  split at result
  · rename_i every
    cases result
    exact iff_of_true rfl (.inl every)
  · rename_i notEvery
    rw [anyMatches_eq_ok result, FieldFits, or_iff_right notEvery]

theorem mem_fieldOrder (field : CronFieldPos) : field ∈ fieldOrder := by
  cases field <;> decide

/-- The field is the first of a list that does not fit. -/
def FirstUnfit (expression : CronExpression) (time : DateTime) (field : CronFieldPos) :
    List CronFieldPos → Prop
  | [] => False
  | first :: rest =>
    (¬ expression.FieldFits time first ∧ field = first) ∨
      (expression.FieldFits time first ∧ expression.FirstUnfit time field rest)

theorem FirstUnfit.unfit {fields : List CronFieldPos}
    (firstUnfit : expression.FirstUnfit time field fields) :
    field ∈ fields ∧ ¬ expression.FieldFits time field := by
  induction fields with
  | nil => exact firstUnfit.elim
  | cons first rest ih =>
      rcases firstUnfit with ⟨unfit, rfl⟩ | ⟨_, later⟩
      · exact ⟨List.mem_cons_self, unfit⟩
      · exact ⟨List.mem_cons_of_mem _ (ih later).1, (ih later).2⟩

/-- What a test of the fields that answers says of them. -/
theorem firstMismatch_eq_ok {fields : List CronFieldPos} {mismatch : Option CronFieldPos}
    (tested : expression.firstMismatch time fields = .ok mismatch) :
    (mismatch = none ↔ ∀ field ∈ fields, expression.FieldFits time field) ∧
      ∀ field, mismatch = some field ↔ expression.FirstUnfit time field fields := by
  induction fields with
  | nil =>
      cases tested
      simp [FirstUnfit]
  | cons first rest ih =>
      obtain ⟨matched, firstTested, result⟩ := bind_eq_ok.mp tested
      have fits := fieldMatches_eq_ok firstTested
      cases matched with
      | true =>
          have firstFits := fits.mp rfl
          simpa [FirstUnfit, firstFits] using ih result
      | false =>
          have unfit : ¬ expression.FieldFits time first := fun firstFits => by
            cases fits.mpr firstFits
          obtain rfl := pure_eq_ok.mp result
          simp [FirstUnfit, unfit, eq_comm]

theorem Matches.fits (isDue : expression.Matches time) (field : CronFieldPos) :
    expression.FieldFits time field :=
  (firstMismatch_eq_ok isDue).1.mp rfl field (mem_fieldOrder field)

/-- The field whose step leads on from the time: the first, in the order they
are tested, that does not fit, or the minutes where all fields fit. -/
inductive Steps (expression : CronExpression) (time : DateTime) : CronFieldPos → Prop where
  | unfit {field : CronFieldPos} : expression.FirstUnfit time field fieldOrder →
      Steps expression time field
  | due : (∀ field, expression.FieldFits time field) → Steps expression time .minute

theorem Steps.stepped (steps : expression.Steps time field) :
    field = .minute ∨ ¬ expression.FieldFits time field := by
  cases steps with
  | unfit firstUnfit => exact .inr firstUnfit.unfit.2
  | due => exact .inl rfl

theorem steps_iff {mismatch : Option CronFieldPos}
    (tested : expression.firstMismatch time fieldOrder = .ok mismatch) :
    expression.Steps time field ↔ field = mismatch.getD .minute := by
  obtain ⟨fits, unfit⟩ := firstMismatch_eq_ok tested
  constructor
  · intro steps
    cases steps with
    | unfit firstUnfit =>
        obtain rfl := (unfit field).mpr firstUnfit
        rfl
    | due all =>
        obtain rfl := fits.mpr fun field _ => all field
        rfl
  · rintro rfl
    cases mismatch with
    | none => exact .due fun field => fits.mp rfl field (mem_fieldOrder field)
    | some field => exact .unfit ((unfit field).mp rfl)

theorem probe_return_iff {timePoint : Int} {found : DateTime} :
    expression.probe timePoint time = .ok (.return found) ↔
      found = time ∧ expression.Matches time ∧ time.timePoint ≠ timePoint := by
  unfold probe Matches
  cases mismatch : expression.firstMismatch time fieldOrder with
  | error fault => simp [bind, Except.bind]
  | ok field =>
      cases field with
      | some field => simp [bind_eq_ok, map_eq_ok]
      | none =>
          simp only [bind_eq_ok, Except.ok.injEq, exists_eq_left', true_and]
          split
          · simp [map_eq_ok, *]
          · simp [pure_eq_ok, *, eq_comm (a := time)]

theorem matchField_date (isDate : field ≠ .hour ∧ field ≠ .minute)
    (same : other.daysSinceEpoch = time.daysSinceEpoch) (element : Str) :
    matchField field element other = matchField field element time := by
  have year : other.year = time.year := by rw [DateTime.year, same, ← DateTime.year]
  have month : other.month = time.month := by rw [DateTime.month, same, ← DateTime.month]
  have day : other.day = time.day := by rw [DateTime.day, same, ← DateTime.day]
  have weekday : other.dayOfWeek = time.dayOfWeek := by
    rw [DateTime.dayOfWeek, same, ← DateTime.dayOfWeek]
  have lastDay : other.lastDayOfMonth = time.lastDayOfMonth := by
    rw [lastDayOfMonth_eq, lastDayOfMonth_eq, year, month]
  cases field with
  | minute => exact absurd rfl isDate.2
  | hour => exact absurd rfl isDate.1
  | month => simp only [matchField, month]
  | dayOfMonth => simp only [matchField, matchDayOfMonth, year, month, day, lastDay]
  | dayOfWeek => simp only [matchField, matchDayOfWeek, year, month, day, weekday, lastDay]

theorem fieldFits_date (isDay : field = .dayOfMonth ∨ field = .dayOfWeek)
    (same : other.daysSinceEpoch = time.daysSinceEpoch) :
    expression.FieldFits other field ↔ expression.FieldFits time field := by
  have isDate : field ≠ .hour ∧ field ≠ .minute := by
    rcases isDay with rfl | rfl <;> decide
  simp only [FieldFits, matchField_date isDate same]

theorem anyMatches_congr
    (same : ∀ element, matchField field element time = matchField field element other)
    (values : List Str) : anyMatches field time values = anyMatches field other values := by
  induction values with
  | nil => rfl
  | cons element rest ih => rw [anyMatches, anyMatches, same, ih]

theorem fieldMatches_congr
    (same : ∀ element, matchField field element time = matchField field element other) :
    expression.fieldMatches time field = expression.fieldMatches other field := by
  rw [fieldMatches_eq, fieldMatches_eq, anyMatches_congr same]

/-- A schedule is matched by the minute. -/
theorem firstMismatch_sameMinute (days : other.daysSinceEpoch = time.daysSinceEpoch)
    (hour : other.hour = time.hour) (minute : other.minute = time.minute)
    (fields : List CronFieldPos) :
    expression.firstMismatch other fields = expression.firstMismatch time fields := by
  have same (field : CronFieldPos) (element : Str) :
      matchField field element other = matchField field element time := by
    cases field with
    | minute => simp only [matchField, minute]
    | hour => simp only [matchField, hour]
    | dayOfMonth | month | dayOfWeek => exact matchField_date (by decide) days element
  induction fields with
  | nil => rfl
  | cons first rest ih => rw [firstMismatch, firstMismatch, fieldMatches_congr (same first), ih]

/-- The schedule matches exactly where its texts convert and its fields fit. -/
theorem matches_iff_converts (parsed : ofText text = .ok expression) (inClock : InClock time) :
    expression.Matches time ↔
      expression.Converts time ∧ ∀ field, expression.FieldFits time field := by
  rw [← firstMismatch_returns_iff parsed inClock]
  constructor
  · exact fun isDue => ⟨⟨none, isDue⟩, isDue.fits⟩
  · rintro ⟨⟨mismatch, tested⟩, fits⟩
    obtain rfl := (firstMismatch_eq_ok tested).1.mpr fun field _ => fits field
    exact tested

/-- The whole minutes after a time and before the year 5137 at which all five
fields match. -/
def dueMinutes (expression : CronExpression) (timePoint : Int) : Set Int :=
  {minute | minuteTicks ∣ minute ∧ timePoint < minute ∧ (ofTimePoint minute).year < 5137 ∧
    ∀ field, expression.FieldFits (ofTimePoint minute) field}

end BabyLuigi.Cron.CronExpression
