import BabyLuigi.Cron.FittingProperties
import Mathlib.Data.Int.Interval
import Mathlib.Data.Set.Card

/-! A search whose steps do not pass a minute at which the schedule is due comes to
it, or to an earlier one, in as many iterations as there are stops on the way. -/

set_option autoImplicit false

namespace BabyLuigi.Cron.CronExpression

open DateTime

variable {expression : CronExpression} {text : Str} {unit timePoint : Int} {start due time : DateTime}

/-- The times on the way from a start to a due minute, in whole units. -/
structure OnTheWay (unit : Int) (start due time : DateTime) : Prop where
  whole : unit ∣ time.timePoint
  since : start.timePoint ≤ time.timePoint
  before : time.timePoint < due.timePoint

/-- No step on the way leads past the due minute. -/
def NeverPasses (expression : CronExpression) (unit : Int) (start due : DateTime) : Prop :=
  ∀ time field, OnTheWay unit start due time → expression.Steps time field →
    ¬ Passes field (expression.value field) time due

/-- On the way the texts behind suffixes convert. -/
def ConvertsOnTheWay (expression : CronExpression) (unit : Int) (start due : DateTime) : Prop :=
  ∀ time, OnTheWay unit start due time → expression.Converts time

/-- The schedule is due at a minute of the clock that no step from the start on
passes. -/
structure LeadsTo (expression : CronExpression) (unit : Int) (start due : DateTime) : Prop where
  nonneg : 0 ≤ start.timePoint
  dueMinute : IsMinute due
  inClock : InClock due
  isDue : expression.Matches due
  never : expression.NeverPasses unit start due

/-- The minutes between the two that the steps on the way lead to. -/
def stops (expression : CronExpression) (unit : Int) (start due : DateTime) : Set Int :=
  {minute | start.timePoint / minuteTicks < minute ∧ minute < due.timePoint / minuteTicks ∧
    ∃ time field next, OnTheWay unit start due time ∧ expression.Steps time field ∧
      Advance field (expression.value field) time next ∧ minute = next / minuteTicks}

/-- The stops that are left after a time. -/
def stopsAfter (expression : CronExpression) (unit : Int) (start due time : DateTime) : Set Int :=
  {minute ∈ expression.stops unit start due | time.timePoint / minuteTicks < minute}

theorem stops_finite : (expression.stops unit start due).Finite :=
  (Set.finite_Ioo _ _).subset fun _ stop => ⟨stop.1, stop.2.1⟩

theorem ncard_stopsAfter_le : (expression.stopsAfter unit start due time).ncard ≤
    (expression.stops unit start due).ncard :=
  Set.ncard_le_ncard (Set.sep_subset _ _) stops_finite

/-- Every stop that is reached is one less to come. -/
theorem ncard_stopsAfter_lt {next : DateTime} {minute : Int}
    (stop : minute ∈ expression.stops unit start due) (reached : next.timePoint / minuteTicks = minute)
    (later : time.timePoint / minuteTicks < minute) :
    (expression.stopsAfter unit start due next).ncard <
      (expression.stopsAfter unit start due time).ncard := by
  refine Set.ncard_lt_ncard ⟨fun _ left => ⟨left.1, ?_⟩, fun same => ?_⟩
    (stops_finite.subset (Set.sep_subset _ _))
  · have further := left.2
    omega
  · have left := (same ⟨stop, later⟩).2
    omega

/-- A time in the due minute is due. -/
theorem matches_inMinute (dueMinute : IsMinute due) (isDue : expression.Matches due)
    (since : due.timePoint ≤ time.timePoint) (within : time.timePoint < due.timePoint + minuteTicks) :
    expression.Matches time := by
  obtain ⟨split, hourLow, hourHigh, minuteLow, minuteHigh⟩ := dueMinute.split
  obtain ⟨rest, timeSplit, _, timeHourLow, timeHourHigh, timeMinuteLow, timeMinuteHigh, _, _⟩ :=
    exists_rest (dueMinute.nonneg.trans since)
  have same : time.daysSinceEpoch = due.daysSinceEpoch ∧ time.hour = due.hour ∧
      time.minute = due.minute := by
    simp only [dayTicks, hourTicks, minuteTicks, secondTicks] at *
    omega
  exact (firstMismatch_sameMinute same.1 same.2.1 same.2.2 _).trans isDue

theorem inClock_of_le (nonneg : 0 ≤ time.timePoint) (ordered : time.timePoint ≤ due.timePoint)
    (inClock : InClock due) : InClock time :=
  ⟨nonneg, (days_mono nonneg ordered).trans_lt inClock.early⟩

/-- The step of a search on the way to a due minute: it returns a time at which
the schedule is due, ends where a text does not convert, or leads on, no further
than to that minute. -/
theorem probe_onTheWay (parsed : ofText text = .ok expression) (minutes : unit ∣ minuteTicks)
    (leads : expression.LeadsTo unit start due) (onTheWay : OnTheWay unit start due time) :
    (expression.probe timePoint time = .ok (.return time) ∧ expression.Matches time ∧
        time.timePoint ≠ timePoint) ∨
      (∃ fault, expression.probe timePoint time = .error fault ∧
        expression.firstMismatch time fieldOrder = .error fault) ∨
      ∃ next field, expression.probe timePoint time = .ok (.continue next) ∧
        expression.Steps time field ∧
        Advance field (expression.value field) time next.timePoint ∧
        unit ∣ next.timePoint ∧ time.timePoint / minuteTicks < next.timePoint / minuteTicks ∧
        next.timePoint < due.timePoint + minuteTicks := by
  obtain ⟨nonneg, dueMinute, inClock, isDue, never⟩ := leads
  have timeNonneg := nonneg.trans onTheWay.since
  have timeInClock := inClock_of_le timeNonneg onTheWay.before.le inClock
  cases tested : expression.firstMismatch time fieldOrder with
  | error fault => exact .inr (.inl ⟨fault, bind_of_error tested _, rfl⟩)
  | ok mismatch =>
      rcases probe_of_mismatch parsed timeNonneg timeInClock.fits tested with
          ⟨rfl, notFirst, returned⟩ | ⟨_, target, continued, advance⟩
      · exact .inl ⟨returned, tested, notFirst⟩
      · have steps := (steps_iff tested).mpr rfl
        generalize mismatch.getD .minute = field at steps advance
        have otherDay (isDay : field = .dayOfMonth ∨ field = .dayOfWeek) :
            due.daysSinceEpoch ≠ time.daysSinceEpoch := by
          intro same
          refine steps.stepped.elim (by rcases isDay with rfl | rfl <;> decide) fun unfit => ?_
          exact unfit ((fieldFits_date isDay same).mp (isDue.fits field))
        have before := before_of_not_passes timeNonneg dueMinute onTheWay.before otherDay advance
          (never time field onTheWay steps)
        have later := advance.later timeNonneg
        have early : due.timePoint + minuteTicks < 2 ^ 63 := by
          have last := inClock.early
          have number : clockEnd = 106741 := rfl
          have dueSplit := dueMinute.split
          simp only [dayTicks, hourTicks, minuteTicks, secondTicks] at *
          omega
        have fits : Fits target := by
          simp only [Fits, minuteTicks, secondTicks] at *
          omega
        have reached : (ofTimePoint (wrap target)).timePoint = target := by
          rw [wrap_of_fits fits]
          exact timePoint_ofTimePoint (advance.whole second_dvd_minute time.wholeSeconds)
        refine .inr (.inr ⟨_, field, continued, steps, ?_⟩)
        rw [reached]
        exact ⟨advance, advance.whole minutes onTheWay.whole, later, before⟩

/-- The time is one that the search may return. -/
structure Found (expression : CronExpression) (unit timePoint : Int) (time due found : DateTime) :
    Prop where
  isDue : expression.Matches found
  whole : unit ∣ found.timePoint
  other : found.timePoint ≠ timePoint
  since : time.timePoint ≤ found.timePoint
  within : found.timePoint < due.timePoint + minuteTicks

/-- The search ends where a text does not convert. -/
def Throws (expression : CronExpression) (unit timePoint : Int) (iterations : Nat)
    (start due time : DateTime) : Prop :=
  ∃ fault thrower, expression.search timePoint iterations time = .error fault ∧
    OnTheWay unit start due thrower ∧ expression.firstMismatch thrower fieldOrder = .error fault

/-- On the way to a due minute that no step passes a search finds what it looks
for, unless a text does not convert or its iterations are fewer than the stops. -/
theorem search_onTheWay (parsed : ofText text = .ok expression) (minutes : unit ∣ minuteTicks)
    (leads : expression.LeadsTo unit start due) (future : timePoint < due.timePoint)
    (iterations : Nat) : ∀ time : DateTime, unit ∣ time.timePoint →
      start.timePoint ≤ time.timePoint → time.timePoint < due.timePoint + minuteTicks →
      (∃ found, expression.search timePoint iterations time = .ok found.timePoint ∧
        expression.Found unit timePoint time due found) ∨
      expression.Throws unit timePoint iterations start due time ∨
      expression.search timePoint iterations time = .ok 0 ∧
        (time.timePoint < due.timePoint →
          iterations < (expression.stopsAfter unit start due time).ncard + 2) ∧
        (due.timePoint ≤ time.timePoint → iterations = 0) := by
  induction iterations with
  | zero =>
      intro time whole since within
      exact .inr (.inr ⟨rfl, fun _ => by omega, fun _ => rfl⟩)
  | succ iterations ih =>
      intro time whole since within
      rcases le_or_gt due.timePoint time.timePoint with reached | before
      · have matched := matches_inMinute leads.dueMinute leads.isDue reached within
        have other : time.timePoint ≠ timePoint := by omega
        have returned : expression.probe timePoint time = .ok (.return time) :=
          probe_return_iff.mpr ⟨rfl, matched, other⟩
        refine .inl ⟨time, ?_, matched, whole, other, le_rfl, within⟩
        rw [search, bind_of_ok returned]
        rfl
      · have onTheWay : OnTheWay unit start due time := ⟨whole, since, before⟩
        rcases probe_onTheWay parsed minutes leads onTheWay with
            ⟨returned, matched, other⟩ | ⟨fault, thrown, tested⟩ |
            ⟨next, field, continued, steps, advance, nextWhole, later, nextWithin⟩
        · refine .inl ⟨time, ?_, matched, whole, other, le_rfl, within⟩
          rw [search, bind_of_ok returned]
          rfl
        · exact .inr (.inl ⟨fault, time, bind_of_error thrown _, onTheWay, tested⟩)
        · have ordered : time.timePoint ≤ next.timePoint := by
            simp only [minuteTicks, secondTicks] at later
            omega
          simp only [Throws, search, bind_of_ok continued]
          rcases ih next nextWhole (since.trans ordered) nextWithin with
              ⟨found, searched, result⟩ | throws | ⟨searched, more, atDue⟩
          · exact .inl ⟨found, searched, result.isDue, result.whole, result.other,
              ordered.trans result.since, result.within⟩
          · exact .inr (.inl throws)
          · refine .inr (.inr ⟨searched, fun _ => ?_, fun reached => by omega⟩)
            rcases le_or_gt due.timePoint next.timePoint with nextReached | nextBefore
            · have none := atDue nextReached
              omega
            · have stop : next.timePoint / minuteTicks ∈ expression.stops unit start due := by
                obtain ⟨minutes, isWhole⟩ := leads.dueMinute.whole
                have between : start.timePoint / minuteTicks < next.timePoint / minuteTicks ∧
                    next.timePoint / minuteTicks < due.timePoint / minuteTicks := by
                  simp only [minuteTicks, secondTicks] at *
                  omega
                exact ⟨between.1, between.2, time, field, next.timePoint, onTheWay, steps, advance, rfl⟩
              have fewer := ncard_stopsAfter_lt stop rfl later
              have left := more nextBefore
              omega

/-- Where the texts convert no search throws. -/
theorem not_throws {iterations : Nat} (parsed : ofText text = .ok expression)
    (leads : expression.LeadsTo unit start due)
    (converts : expression.ConvertsOnTheWay unit start due) :
    ¬ expression.Throws unit timePoint iterations start due time := by
  rintro ⟨fault, thrower, _, onTheWay, thrown⟩
  have inClock := inClock_of_le (leads.nonneg.trans onTheWay.since) onTheWay.before.le leads.inClock
  obtain ⟨mismatch, tested⟩ := (firstMismatch_returns_iff parsed inClock).mpr (converts thrower onTheWay)
  cases thrown.symm.trans tested

/-- Where the stops on the way are fewer than its iterations, the search for the
next time finds it, or throws. -/
theorem calcNext_onTheWay (parsed : ofText text = .ok expression) (minutes : unit ∣ minuteTicks)
    (leads : expression.LeadsTo unit start due) (few : (expression.stops unit start due).ncard ≤ 998)
    (whole : unit ∣ (ofTimePoint timePoint).timePoint)
    (since : start.timePoint ≤ (ofTimePoint timePoint).timePoint)
    (ahead : (ofTimePoint timePoint).timePoint ≤ timePoint) (future : timePoint < due.timePoint) :
    (∃ found, expression.calcNext timePoint = .ok found.timePoint ∧
      expression.Found unit timePoint (ofTimePoint timePoint) due found) ∨
    expression.Throws unit timePoint 1000 start due (ofTimePoint timePoint) := by
  have tick : 0 < minuteTicks := by decide
  have before := ahead.trans_lt future
  rcases search_onTheWay parsed minutes leads future 1000 _ whole since (by omega) with
      found | throws | ⟨_, more, _⟩
  · exact .inl found
  · exact .inr throws
  · have left := more before
    have most := left.trans_le (Nat.add_le_add_right (ncard_stopsAfter_le.trans few) 2)
    omega

end BabyLuigi.Cron.CronExpression
