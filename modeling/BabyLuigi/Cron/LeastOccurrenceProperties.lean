import BabyLuigi.Cron.AscendingScheduleProperties
import BabyLuigi.Cron.OverflowProperties

/-! When a search returns the least minute at which a schedule is due. -/

set_option autoImplicit false

namespace BabyLuigi.Cron.CronExpression

open DateTime

variable {expression : CronExpression} {text : Str} {timePoint : Int} {start due time : DateTime}

/-- A search on the way finds the least due minute. -/
theorem calcNext_least (parsed : ofText text = .ok expression)
    (least : IsLeast (expression.dueMinutes start.timePoint) due.timePoint)
    (leads : expression.LeadsTo minuteTicks start due)
    (converts : expression.ConvertsOnTheWay minuteTicks start due)
    (few : (expression.stops minuteTicks start due).ncard ≤ 998) (whole : minuteTicks ∣ timePoint)
    (since : start.timePoint ≤ timePoint) (before : timePoint < due.timePoint) :
    expression.calcNext timePoint = .ok due.timePoint := by
  have same := timePoint_ofTimePoint (second_dvd_minute.trans whole)
  obtain ⟨found, searched, isDue, foundWhole, other, after, within⟩ :=
    (calcNext_onTheWay parsed (dvd_refl minuteTicks) leads few (by rwa [same]) (by rwa [same])
      same.le before).resolve_right (not_throws parsed leads converts)
  rw [same] at after
  have nonneg := leads.nonneg.trans (since.trans after)
  have inYears := least.1.2.2.1
  rw [ofTimePoint_timePoint] at inYears
  have noLater : found.timePoint ≤ due.timePoint := by
    have dueWhole := leads.dueMinute.whole
    simp only [minuteTicks, secondTicks] at *
    omega
  have years := year_mono nonneg leads.dueMinute.nonneg (days_mono nonneg noLater)
  have foundDue : found.timePoint ∈ expression.dueMinutes start.timePoint := by
    refine ⟨foundWhole, by omega, ?_, ?_⟩ <;> rw [ofTimePoint_timePoint]
    · exact years.trans_lt inYears
    · exact isDue.fits
  rw [searched, le_antisymm noLater (least.2 foundDue)]

/-! ### A schedule of four lists -/

/-- Of a text whose lists ascend, with no day of the month beyond the 29th, the
search passes no due minute. -/
theorem calcNext_least_of_ascends (parsed : ofText text = .ok expression) (startMinute : IsMinute start)
    (least : IsLeast (expression.dueMinutes start.timePoint) due.timePoint) (inClock : InClock due)
    (few : (expression.stops minuteTicks start due).ncard ≤ 998)
    (ascends : ∀ field, Jumps field (expression.value field) → Ascends field (expression.value field))
    (converts : ∀ time : DateTime, start.timePoint ≤ time.timePoint →
      time.timePoint ≤ due.timePoint → expression.Converts time)
    (whole : minuteTicks ∣ timePoint) (since : start.timePoint ≤ timePoint)
    (before : timePoint < due.timePoint) : expression.calcNext timePoint = .ok due.timePoint := by
  obtain ⟨dueWhole, dueLater, _, dueFits⟩ := least.1
  rw [ofTimePoint_timePoint] at dueFits
  have dueMinute : IsMinute due := ⟨startMinute.nonneg.trans dueLater.le, dueWhole⟩
  have isDue := (matches_iff_converts parsed inClock).mpr
    ⟨converts due dueLater.le le_rfl, dueFits⟩
  exact calcNext_least parsed least ⟨startMinute.nonneg, dueMinute, inClock, isDue,
    neverPasses_of_ascends parsed startMinute.nonneg dueMinute ascends dueFits⟩
    (fun time onTheWay => converts time onTheWay.since onTheWay.before.le) few whole since before

end BabyLuigi.Cron.CronExpression
