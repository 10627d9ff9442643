import BabyLuigi.Cron.LeastOccurrenceProperties
import BabyLuigi.NextScheduledDagProperties

/-! When the time selected from the schedules lies in the future, for every
text a schedule may hold and every reading of the clock. -/

set_option autoImplicit false

namespace BabyLuigi.Cron

open ConcurrentShyguy

variable {Store : Type} {text : Str} {now : Int}

/-- The schedule matches the clock reading cut to whole seconds, and the
reading is not itself a whole second. -/
def FiresBehind (text : Str) (now : Int) : Prop :=
  ∃ expression, CronExpression.ofText text = .ok expression ∧
    (DateTime.ofTimePoint now).timePoint ≠ now ∧
    expression.Matches (.ofTimePoint now)

/-- Reading the schedule, or matching the clock reading, ends neither with a
value nor with an exception. -/
def Stuck (text : Str) (now : Int) : Prop :=
  ∃ fault : Fault, fault.isException = false ∧
    (CronExpression.ofText text = .error fault ∨
      ∃ expression, CronExpression.ofText text = .ok expression ∧
        expression.firstMismatch (.ofTimePoint now) CronExpression.fieldOrder = .error fault)

/-- The schedule matches some time after the clock reading. -/
def HasFutureMatch (text : Str) (now : Int) : Prop :=
  ∃ expression, CronExpression.ofText text = .ok expression ∧
    ∃ time : DateTime, now < time.timePoint ∧ expression.Matches time

/-- The schedule is due at a minute of the clock after the reading that no step
passes, with few enough stops on the way; what is thrown there is caught. -/
structure Reaches (expression : CronExpression) (now : Int) (due : DateTime) : Prop where
  leads : expression.LeadsTo secondTicks (.ofTimePoint now) due
  later : now < due.timePoint
  few : (expression.stops secondTicks (.ofTimePoint now) due).ncard ≤ 998
  caught : ∀ time fault, CronExpression.OnTheWay secondTicks (.ofTimePoint now) due time →
    expression.firstMismatch time CronExpression.fieldOrder = .error fault →
    fault.isException = true

/-- What the text and the reading tell of the search: it does not begin, its
first match does not end, or it comes to a minute at which the schedule is due. -/
inductive Settled (text : Str) (now : Int) : Prop where
  | unread {fault : Fault} : CronExpression.ofText text = .error fault → Settled text now
  | unmatched {expression : CronExpression} {fault : Fault} :
      CronExpression.ofText text = .ok expression →
      expression.firstMismatch (.ofTimePoint now) CronExpression.fieldOrder = .error fault →
      Settled text now
  | reaches {expression : CronExpression} {due : DateTime} :
      CronExpression.ofText text = .ok expression → Reaches expression now due → Settled text now

theorem nextOfText_of_calcNext {expression : CronExpression} {result : Int}
    (parsed : CronExpression.ofText text = .ok expression)
    (searched : expression.calcNext now = .ok result) : nextOfText text now = .ok (some result) := by
  simp only [nextOfText, bind_of_ok parsed, searched]

theorem calcNext_of_fault {expression : CronExpression} {fault : Fault}
    (tested : expression.firstMismatch (.ofTimePoint now) CronExpression.fieldOrder = .error fault) :
    expression.calcNext now = .error fault :=
  bind_of_error (bind_of_error tested _) _

theorem FiresBehind.nextOfText (fires : FiresBehind text now) :
    Cron.nextOfText text now = .ok (some (DateTime.ofTimePoint now).timePoint) := by
  obtain ⟨expression, parsed, different, matched⟩ := fires
  have found : expression.probe now (.ofTimePoint now) = .ok (.return (.ofTimePoint now)) :=
    CronExpression.probe_return_iff.mpr ⟨rfl, matched, different⟩
  refine nextOfText_of_calcNext parsed ?_
  rw [CronExpression.calcNext, CronExpression.search, bind_of_ok found]
  rfl

theorem Stuck.nextOfText (stuck : Stuck text now) : ∃ fault, Cron.nextOfText text now = .error fault := by
  obtain ⟨fault, hard, unread | ⟨expression, parsed, tested⟩⟩ := stuck
  · exact ⟨fault, by simp [Cron.nextOfText, bind_of_error unread, hard]⟩
  · exact ⟨fault, by simp [Cron.nextOfText, bind_of_ok parsed, calcNext_of_fault tested, hard]⟩

/-- A settled schedule is stuck, or dropped, or gives a time: the reading cut to
seconds, or a later one. -/
theorem Settled.nextOfText (settled : Settled text now) (since : 0 ≤ now) :
    Stuck text now ∨ Cron.nextOfText text now = .ok none ∨
      ∃ next, Cron.nextOfText text now = .ok (some next) ∧
        (FiresBehind text now ∨ now < next ∧ HasFutureMatch text now) := by
  cases settled with
  | @unread fault failed =>
      cases caught : fault.isException with
      | false => exact .inl ⟨fault, caught, .inl failed⟩
      | true => exact .inr (.inl (by simp [Cron.nextOfText, bind_of_error failed, caught]))
  | @unmatched expression fault parsed tested =>
      cases caught : fault.isException with
      | false => exact .inl ⟨fault, caught, .inr ⟨expression, parsed, tested⟩⟩
      | true =>
          refine .inr (.inl ?_)
          simp [Cron.nextOfText, bind_of_ok parsed, calcNext_of_fault tested, caught]
  | @reaches expression due parsed reaches =>
      have cut := DateTime.timePoint_ofTimePoint_of_nonneg since
      have ahead : (DateTime.ofTimePoint now).timePoint ≤ now := by
        simp only [secondTicks] at cut
        omega
      rcases CronExpression.calcNext_onTheWay parsed DateTime.second_dvd_minute reaches.leads reaches.few
          (DateTime.wholeSeconds _) le_rfl ahead reaches.later with
          ⟨found, searched, result⟩ | ⟨fault, thrower, searched, onTheWay, thrown⟩
      · refine .inr (.inr ⟨_, nextOfText_of_calcNext parsed searched, ?_⟩)
        rcases result.since.eq_or_lt with same | after
        · obtain rfl := DateTime.ext same
          exact .inl ⟨expression, parsed, result.other, result.isDue⟩
        · have later : now < found.timePoint := by
            obtain ⟨seconds, whole⟩ := found.wholeSeconds
            rw [whole] at after ⊢
            simp only [secondTicks] at *
            omega
          exact .inr ⟨later, expression, parsed, found, later, result.isDue⟩
      · refine .inr (.inl ?_)
        have caught := reaches.caught thrower fault onTheWay thrown
        simp [Cron.nextOfText, bind_of_ok parsed, CronExpression.calcNext, searched, caught]

end BabyLuigi.Cron
