import BabyLuigi.Cron.CronField

/-!
# Schedule expressions

The five fields of a schedule and the search for the next time they all match.
-/

set_option autoImplicit false

namespace BabyLuigi.Cron

structure CronExpression where
  minute : Str
  hour : Str
  dayOfMonth : Str
  month : Str
  dayOfWeek : Str
  deriving DecidableEq, Repr

namespace CronExpression

def value (expression : CronExpression) : CronFieldPos → Str
  | .minute => expression.minute
  | .hour => expression.hour
  | .dayOfMonth => expression.dayOfMonth
  | .month => expression.month
  | .dayOfWeek => expression.dayOfWeek

def requireValid (field : CronFieldPos) (value : Str) : Except Fault Unit := do
  if ← validate field value then return () else .error .invalidArgument

/-- The constructor from a text of five words. -/
def ofText (text : Str) : Except Fault CronExpression :=
  match words text with
  | [minute, hour, dayOfMonth, month, dayOfWeek] => do
    requireValid .minute minute
    requireValid .hour hour
    requireValid .dayOfMonth dayOfMonth
    requireValid .month month
    requireValid .dayOfWeek dayOfWeek
    return {
      minute := minute
      hour := hour
      dayOfMonth := dayOfMonth
      month := month
      dayOfWeek := dayOfWeek }
  | _ => .error .invalidArgument

def fieldOrder : List CronFieldPos := [.month, .dayOfMonth, .dayOfWeek, .hour, .minute]

/-- Whether some element of a list matches; it stops at the first that does. -/
def anyMatches (field : CronFieldPos) (time : DateTime) : List Str → Except Fault Bool
  | [] => .ok false
  | value :: rest => do if ← matchField field value time then return true else anyMatches field time rest

def fieldMatches (expression : CronExpression) (time : DateTime) (field : CronFieldPos) :
    Except Fault Bool :=
  let value := expression.value field
  if value = ascii "*" then return true
  else if hasList value then anyMatches field time (splitList value)
  else matchField field value time

/-- The first field of the order that does not match. -/
def firstMismatch (expression : CronExpression) (time : DateTime) :
    List CronFieldPos → Except Fault (Option CronFieldPos)
  | [] => .ok none
  | field :: rest => do
    if ← expression.fieldMatches time field then expression.firstMismatch time rest
    else return some field

/-- What one iteration of the search decides. -/
inductive Probe where
  | continue (nextTime : DateTime)
  | return (nextTime : DateTime)

def probe (expression : CronExpression) (timePoint : Int) (nextTime : DateTime) :
    Except Fault Probe := do
  match ← expression.firstMismatch nextTime fieldOrder with
  | some field => return .continue (← increment field (expression.value field) nextTime)
  | none =>
    if nextTime.timePoint = timePoint then
      return .continue (← increment .minute expression.minute nextTime)
    else return .return nextTime

/-- The search, for at most this many iterations; without success the epoch. -/
def search (expression : CronExpression) (timePoint : Int) : Nat → DateTime → Except Fault Int
  | 0, _ => .ok 0
  | iterations + 1, nextTime => do
    match ← expression.probe timePoint nextTime with
    | .continue nextTime => expression.search timePoint iterations nextTime
    | .return nextTime => return nextTime.timePoint

def calcNext (expression : CronExpression) (timePoint : Int) : Except Fault Int :=
  expression.search timePoint 1000 (.ofTimePoint timePoint)

end CronExpression

/-- The next time of a schedule; a text or a search that throws is ignored. -/
def nextOfText (text : Str) (timePoint : Int) : Except Fault (Option Int) :=
  match (do (← CronExpression.ofText text).calcNext timePoint) with
  | .ok next => .ok (some next)
  | .error fault => if fault.isException then .ok none else .error fault

end BabyLuigi.Cron
