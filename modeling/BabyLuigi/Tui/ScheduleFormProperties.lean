import BabyLuigi.Cron.SimpleScheduleProperties
import BabyLuigi.Tui.ScheduleForm

/-! The schedules that the form of the actions panel builds. -/

set_option autoImplicit false

namespace BabyLuigi.Tui

open Cron

/-! ### Numbers -/

theorem toNat_digit {digit : Nat} (low : digit < 10) : ((48 + digit).toUInt8).toNat = 48 + digit := by
  simp only [Nat.toUInt8, UInt8.toNat_ofNat']
  omega

theorem isDigit_digit {digit : Nat} (low : digit < 10) : isDigit (48 + digit).toUInt8 = true := by
  have number := toNat_digit low
  simp only [isDigit, Bool.and_eq_true, decide_eq_true_eq, UInt8.le_iff_toNat_le, number]
  exact ⟨Nat.le_add_right 48 digit, show 48 + digit ≤ 57 by omega⟩

theorem digitsValue_append (digits : Str) (digit : UInt8) :
    digitsValue (digits ++ [digit]) = 10 * digitsValue digits + (digit.toNat - 48 : Int) := by
  simp [digitsValue]

theorem digitsWithin_spec (fuel : Nat) : ∀ number < fuel,
    digitsWithin fuel number ≠ [] ∧ (∀ char ∈ digitsWithin fuel number, isDigit char = true) ∧
      digitsValue (digitsWithin fuel number) = number := by
  induction fuel with
  | zero =>
      intro number less
      exact absurd less (Nat.not_lt_zero number)
  | succ fuel ih =>
      intro number less
      rw [digitsWithin]
      split
      · rename_i low
        refine ⟨by simp, by simpa using isDigit_digit low, ?_⟩
        have value := toNat_digit low
        simp only [digitsValue, List.foldl_cons, List.foldl_nil, value]
        omega
      · have low : number % 10 < 10 := Nat.mod_lt number (by decide)
        obtain ⟨_, digits, value⟩ := ih (number / 10) (by omega)
        refine ⟨by simp, ?_, ?_⟩
        · intro char member
          rcases List.mem_append.mp member with earlier | last
          · exact digits char earlier
          · rw [List.mem_singleton.mp last]
            exact isDigit_digit low
        · rw [digitsValue_append, value, toNat_digit low]
          omega

theorem isNumber_toString {number : Int} (nonneg : 0 ≤ number) (fits : number ≤ intMax) :
    IsNumber (toString number) number := by
  obtain ⟨nonempty, digits, value⟩ := digitsWithin_spec (number.natAbs + 1) number.natAbs (by omega)
  have same : toString number = digitsWithin (number.natAbs + 1) number.natAbs :=
    if_neg (by omega)
  rw [same]
  exact ⟨nonempty, digits, by omega, fits⟩

theorem parseIntInRange_bounds {input : Str} {low high number : Int}
    (parsed : parseIntInRange input low high = some number) : low ≤ number ∧ number ≤ high := by
  unfold parseIntInRange at parsed
  dsimp only at parsed
  split at parsed
  · cases parsed
  · obtain ⟨⟨value, rest⟩, _, checked⟩ := Option.bind_eq_some_iff.mp parsed
    dsimp only at checked
    split at checked
    · cases checked
    · split at checked
      · cases checked
      · rename_i inRange
        obtain rfl := Option.some.inj checked
        simpa using inRange

/-- A number that the form has read fills its field of the schedule. -/
theorem cell_of_parsed {field : CronFieldPos} {input : Str} {number : Int}
    (parsed : parseIntInRange input field.rangeStart field.rangeEnd = some number) :
    Cell field (toString number) (some number) := by
  obtain ⟨low, high⟩ := parseIntInRange_bounds parsed
  have start : 0 ≤ field.rangeStart := by cases field <;> decide
  have stop : field.rangeEnd ≤ intMax := by cases field <;> decide
  exact .only (isNumber_toString (by omega) (by omega)) low high

/-! ### Kinds of schedules -/

def named (minute hour dayOfMonth month dayOfWeek : Option Int) : CronFieldPos → Option Int
  | .minute => minute
  | .hour => hour
  | .dayOfMonth => dayOfMonth
  | .month => month
  | .dayOfWeek => dayOfWeek

/-- The numbers that the form gives a schedule of each kind. -/
inductive FormContent (minute hour dayOfMonth month dayOfWeek : Str) :
    Int → (CronFieldPos → Option Int) → Prop where
  | hourly {m : Int} : parseIntInRange minute 0 59 = some m →
      FormContent minute hour dayOfMonth month dayOfWeek 1 (named m none none none none)
  | daily {m h : Int} : parseIntInRange minute 0 59 = some m → parseIntInRange hour 0 23 = some h →
      FormContent minute hour dayOfMonth month dayOfWeek 2 (named m h none none none)
  | weekly {m h dow : Int} : parseIntInRange minute 0 59 = some m →
      parseIntInRange hour 0 23 = some h → parseIntInRange dayOfWeek 0 6 = some dow →
      FormContent minute hour dayOfMonth month dayOfWeek 3 (named m h none none dow)
  | monthly {m h dom : Int} : parseIntInRange minute 0 59 = some m →
      parseIntInRange hour 0 23 = some h → parseIntInRange dayOfMonth 1 31 = some dom →
      FormContent minute hour dayOfMonth month dayOfWeek 4 (named m h dom none none)
  | yearly {m h dom mon : Int} : parseIntInRange minute 0 59 = some m →
      parseIntInRange hour 0 23 = some h → parseIntInRange dayOfMonth 1 31 = some dom →
      parseIntInRange month 1 12 = some mon →
      FormContent minute hour dayOfMonth month dayOfWeek 5 (named m h dom mon none)

variable {kind : Int} {cronCustom minute hour dayOfMonth month dayOfWeek cron : Str}
  {content : CronFieldPos → Option Int}

/-- The schedule with these numbers, and a star for each field without one. -/
def scheduleOf (content : CronFieldPos → Option Int) : CronExpression :=
  let cell (field : CronFieldPos) : Str := (content field).elim (ascii "*") toString
  { minute := cell .minute
    hour := cell .hour
    dayOfMonth := cell .dayOfMonth
    month := cell .month
    dayOfWeek := cell .dayOfWeek }

theorem exists_content (kinds : 1 ≤ kind ∧ kind ≤ 5)
    (built : buildCronFromForm kind cronCustom minute hour dayOfMonth month dayOfWeek = some cron) :
    ∃ content, FormContent minute hour dayOfMonth month dayOfWeek kind content ∧
      cron = (scheduleOf content).print := by
  obtain rfl | rfl | rfl | rfl | rfl : kind = 1 ∨ kind = 2 ∨ kind = 3 ∨ kind = 4 ∨ kind = 5 := by
    omega
  · obtain ⟨m, isM, built⟩ := Option.bind_eq_some_iff.mp built
    obtain rfl := Option.some.inj built
    exact ⟨_, .hourly isM, rfl⟩
  · obtain ⟨m, isM, built⟩ := Option.bind_eq_some_iff.mp built
    obtain ⟨h, isH, built⟩ := Option.bind_eq_some_iff.mp built
    obtain rfl := Option.some.inj built
    refine ⟨_, .daily isM isH, ?_⟩
    simp only [List.append_assoc]
    rfl
  · obtain ⟨m, isM, built⟩ := Option.bind_eq_some_iff.mp built
    obtain ⟨h, isH, built⟩ := Option.bind_eq_some_iff.mp built
    obtain ⟨dow, isDow, built⟩ := Option.bind_eq_some_iff.mp built
    obtain rfl := Option.some.inj built
    refine ⟨_, .weekly isM isH isDow, ?_⟩
    simp only [List.append_assoc]
    rfl
  · obtain ⟨m, isM, built⟩ := Option.bind_eq_some_iff.mp built
    obtain ⟨h, isH, built⟩ := Option.bind_eq_some_iff.mp built
    obtain ⟨dom, isDom, built⟩ := Option.bind_eq_some_iff.mp built
    obtain rfl := Option.some.inj built
    refine ⟨_, .monthly isM isH isDom, ?_⟩
    simp only [List.append_assoc]
    rfl
  · obtain ⟨m, isM, built⟩ := Option.bind_eq_some_iff.mp built
    obtain ⟨h, isH, built⟩ := Option.bind_eq_some_iff.mp built
    obtain ⟨dom, isDom, built⟩ := Option.bind_eq_some_iff.mp built
    obtain ⟨mon, isMon, built⟩ := Option.bind_eq_some_iff.mp built
    obtain rfl := Option.some.inj built
    refine ⟨_, .yearly isM isH isDom isMon, ?_⟩
    simp only [List.append_assoc]
    rfl

theorem FormContent.simple
    (given : FormContent minute hour dayOfMonth month dayOfWeek kind content) :
    (scheduleOf content).Simple content := by
  intro field
  cases given with
  | hourly isM =>
      cases field with
      | minute => exact cell_of_parsed isM
      | _ => exact .every
  | daily isM isH =>
      cases field with
      | minute => exact cell_of_parsed isM
      | hour => exact cell_of_parsed isH
      | _ => exact .every
  | weekly isM isH isDow =>
      cases field with
      | minute => exact cell_of_parsed isM
      | hour => exact cell_of_parsed isH
      | dayOfWeek => exact cell_of_parsed isDow
      | _ => exact .every
  | monthly isM isH isDom =>
      cases field with
      | minute => exact cell_of_parsed isM
      | hour => exact cell_of_parsed isH
      | dayOfMonth => exact cell_of_parsed isDom
      | _ => exact .every
  | yearly isM isH isDom isMon =>
      cases field with
      | minute => exact cell_of_parsed isM
      | hour => exact cell_of_parsed isH
      | dayOfMonth => exact cell_of_parsed isDom
      | month => exact cell_of_parsed isMon
      | dayOfWeek => exact .every

/-! ### The frequency and the recurrence -/

/-- The frequency that the chosen kind is named after. -/
def kindFrequency (kind : Int) : ScheduleFrequency :=
  Json.scheduleFrequencyFromString (dagScheduleKindNames.getD kind.toNat [])

theorem classify_simple {expression : CronExpression} (simple : expression.Simple content) :
    classifySchedule expression.print =
      if !(content .minute).isSome then .custom
      else if (content .hour).isNone && (content .dayOfMonth).isNone && (content .month).isNone &&
          (content .dayOfWeek).isNone then .hourly
      else if (content .hour).isSome && (content .dayOfMonth).isNone && (content .month).isNone &&
          (content .dayOfWeek).isNone then .daily
      else if (content .hour).isSome && (content .dayOfMonth).isNone && (content .month).isNone &&
          !(content .dayOfWeek).isNone then .weekly
      else if (content .hour).isSome && !(content .dayOfMonth).isNone && (content .month).isNone &&
          (content .dayOfWeek).isNone then .monthly
      else if (content .hour).isSome && !(content .dayOfMonth).isNone && !(content .month).isNone then
        .yearly
      else .custom := by
  have star (field : CronFieldPos) := (simple field).isStarLike.1
  have single (field : CronFieldPos) := (simple field).isStarLike.2
  have nonempty : expression.print.isEmpty = false := by simp [CronExpression.print]
  simp only [classifySchedule, nonempty, Bool.false_eq_true, if_false, tokenizeCron, simple.words,
    star, single]

theorem FormContent.classify
    (given : FormContent minute hour dayOfMonth month dayOfWeek kind content) :
    classifySchedule (scheduleOf content).print = kindFrequency kind := by
  rw [classify_simple given.simple]
  cases given <;> rfl

/-- The form's day of the month, if a yearly schedule names one, occurs in its
month in leap years. -/
theorem FormContent.dateExists_iff
    (given : FormContent minute hour dayOfMonth month dayOfWeek kind content) :
    CronExpression.DateExists content ↔ (kind = 5 → ∀ day ∈ parseIntInRange dayOfMonth 1 31,
      ∀ inMonth ∈ parseIntInRange month 1 12, day ≤ lengthOfMonth 2000 inMonth) := by
  cases given with
  | yearly _ _ isDom isMon => simp [CronExpression.DateExists, named, isDom, isMon]
  | hourly | daily | weekly | monthly => simp [CronExpression.DateExists, named]

theorem FormContent.oneKind
    (given : FormContent minute hour dayOfMonth month dayOfWeek kind content) :
    content .dayOfWeek = none ∨ content .dayOfMonth = none ∧ content .month = none := by
  cases given with
  | weekly => exact .inr ⟨rfl, rfl⟩
  | hourly | daily | monthly | yearly => exact .inl rfl

/-- Whatever the form builds for a kind is accepted and classified as that
kind, and recurs unless it is yearly on a day that its month never has. -/
theorem buildCronFromForm_recurs_iff (kinds : 1 ≤ kind ∧ kind ≤ 5)
    (built : buildCronFromForm kind cronCustom minute hour dayOfMonth month dayOfWeek = some cron) :
    ∃ expression, CronExpression.ofText cron = .ok expression ∧
      classifySchedule cron = kindFrequency kind ∧
      (expression.Recurs ↔ (kind = 5 → ∀ day ∈ parseIntInRange dayOfMonth 1 31,
        ∀ inMonth ∈ parseIntInRange month 1 12, day ≤ lengthOfMonth 2000 inMonth)) := by
  obtain ⟨content, given, rfl⟩ := exists_content kinds built
  refine ⟨scheduleOf content, given.simple.ofText, given.classify, ?_⟩
  rw [given.simple.recurs_iff given.oneKind, given.dateExists_iff]

/-- The 29th of February recurs. -/
theorem buildCronFromForm_recurs_iff_leapDay :
    ∃ expression, CronExpression.ofText (ascii "30 9 29 2 *") = .ok expression ∧
      classifySchedule (ascii "30 9 29 2 *") = .yearly ∧ expression.Recurs := by
  have built : buildCronFromForm 5 [] (ascii " 30") (ascii "09") (ascii "29") (ascii "2 ") [] =
      some (ascii "30 9 29 2 *") := rfl
  obtain ⟨expression, parsed, classified, recurs⟩ := buildCronFromForm_recurs_iff (by decide) built
  refine ⟨expression, parsed, classified, recurs.mpr fun _ day isDay inMonth isMonth => ?_⟩
  cases (show parseIntInRange (ascii "29") 1 31 = some 29 from rfl).symm.trans isDay
  cases (show parseIntInRange (ascii "2 ") 1 12 = some 2 from rfl).symm.trans isMonth
  decide

/-- The form builds a yearly schedule on the 31st of February; no minute after
the epoch matches it. -/
theorem lastOfFebruary_neverMatches :
    ∃ expression,
      buildCronFromForm 5 [] (ascii "0") (ascii "0") (ascii "31") (ascii "2") [] =
        some (ascii "0 0 31 2 *") ∧
      CronExpression.ofText (ascii "0 0 31 2 *") = .ok expression ∧
      ¬ ∃ later : Int, 0 < later ∧ Cron.minuteTicks ∣ later ∧
        ∀ field, expression.FieldFits (.ofTimePoint later) field := by
  have given : FormContent (ascii "0") (ascii "0") (ascii "31") (ascii "2") [] 5
      (named (some 0) (some 0) (some 31) (some 2) none) := .yearly rfl rfl rfl rfl
  refine ⟨_, rfl, given.simple.ofText, ?_⟩
  rintro ⟨later, after, whole, fits⟩
  have same : (DateTime.ofTimePoint later).timePoint = later :=
    DateTime.timePoint_ofTimePoint (DateTime.second_dvd_minute.trans whole)
  obtain ⟨valid, _, _⟩ :=
    DateTime.validDate (show 0 ≤ (DateTime.ofTimePoint later).timePoint by omega)
  have day : (DateTime.ofTimePoint later).day = 31 :=
    (given.simple.fieldFits_iff .dayOfMonth).mp (fits .dayOfMonth) 31 rfl
  have month : (DateTime.ofTimePoint later).month = 2 :=
    (given.simple.fieldFits_iff .month).mp (fits .month) 2 rfl
  have lastDay := valid.lastDay.trans (lengthOfMonth_le_leap _ _)
  rw [day, month] at lastDay
  exact absurd lastDay (by decide)

end BabyLuigi.Tui
