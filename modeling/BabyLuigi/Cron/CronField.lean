import BabyLuigi.Cron.DateTime
import BabyLuigi.Cron.Text

/-!
# Schedule fields

The five kinds of field of a schedule: which texts they accept, which times a
text matches, and the next time to try when it does not match.
-/

set_option autoImplicit false

namespace BabyLuigi.Cron

inductive CronFieldPos where
  | minute
  | hour
  | dayOfMonth
  | month
  | dayOfWeek
  deriving DecidableEq, Repr

namespace CronFieldPos

def rangeStart : CronFieldPos → Int
  | minute | hour | dayOfWeek => 0
  | dayOfMonth | month => 1

def rangeEnd : CronFieldPos → Int
  | minute => 59
  | hour => 23
  | dayOfMonth => 31
  | month => 12
  | dayOfWeek => 6

def allowBackwardRange : CronFieldPos → Bool
  | dayOfMonth => false
  | _ => true

def literals : CronFieldPos → List (Str × Int)
  | month => [
      (ascii "JAN", 1), (ascii "FEB", 2), (ascii "MAR", 3), (ascii "APR", 4),
      (ascii "MAY", 5), (ascii "JUN", 6), (ascii "JUL", 7), (ascii "AUG", 8),
      (ascii "SEP", 9), (ascii "OCT", 10), (ascii "NOV", 11), (ascii "DEC", 12)]
  | dayOfWeek => [
      (ascii "SUN", 0), (ascii "MON", 1), (ascii "TUE", 2), (ascii "WED", 3),
      (ascii "THU", 4), (ascii "FRI", 5), (ascii "SAT", 6)]
  | _ => []

end CronFieldPos

/-- The first two pieces of a text; indexing past them is undefined. -/
def twoPieces : List Str → Except Fault (Str × Str)
  | first :: second :: _ => .ok (first, second)
  | _ => .error .undefinedBehavior

def fromLiteral (field : CronFieldPos) (value : Str) : Except Fault Int :=
  match field.literals.lookup value with
  | some number => .ok number
  | none => if isNumeric value then stoi value else .ok (-1)

/-- The loop `for (i = first; i <= last; i += step)` collecting `i`. -/
def countFrom (step last : Int) : Nat → Int → Except Fault (List Int)
  | 0, i => if i ≤ last then .error .outOfFuel else .ok []
  | fuel + 1, i =>
    if i ≤ last then
      if i + step > intMax then .error .undefinedBehavior
      else do
        let rest ← countFrom step last fuel (i + step)
        return i :: rest
    else .ok []

/-- With a positive step the loop ends within its fuel; otherwise it never ends. -/
def countUp (first last step : Int) : Except Fault (List Int) :=
  countFrom step last (last - first + 1).toNat first

/-- The bounds of a range and its step. -/
def rangeOf (field : CronFieldPos) (value : Str) : Except Fault (Int × Int × Int) :=
  if hasStep value then do
    let (range, stepText) ← twoPieces (splitStep value)
    let step ← stoi stepText
    if range = ascii "*" then return (field.rangeStart, field.rangeEnd, step)
    else
      match splitRange range with
      | [] => .error .undefinedBehavior
      | [first] => return (← fromLiteral field first, field.rangeEnd, step)
      | first :: second :: _ => return (← fromLiteral field first, ← fromLiteral field second, step)
  else do
    let (first, second) ← twoPieces (splitRange value)
    return (← fromLiteral field first, ← fromLiteral field second, 1)

def createElement (field : CronFieldPos) (value : Str) : Except Fault (List Int) :=
  if hasStep value || hasRange value then do
    let (offset, last, step) ← rangeOf field value
    if field.allowBackwardRange ∧ offset > last then
      return (← countUp offset field.rangeEnd step) ++ (← countUp field.rangeStart last step)
    else countUp offset last step
  else return [← fromLiteral field value]

def createList (field : CronFieldPos) (value : Str) : Except Fault (List Int) := do
  let elements ← (splitList value).mapM (createElement field)
  return elements.flatten

/-- `std::all_of` over texts whose check may fault; it stops at the first
text that does not pass. -/
def allPass (check : Str → Except Fault Bool) : List Str → Except Fault Bool
  | [] => .ok true
  | value :: rest => do if ← check value then allPass check rest else return false

/-- `cron_field::validate`, with the overridden check it recurses into. -/
def validateBase (field : CronFieldPos) (validate : Str → Except Fault Bool) (value : Str) :
    Except Fault Bool :=
  if value.isEmpty then return false
  else if value = ascii "*" then return true
  else if hasStep value then
    match splitStep value with
    | [range, stepText] => do
      if !(← validate range) then return false
      if stepText = ascii "*" || hasList stepText || hasRange stepText then return false
      let step ← stoi stepText
      if step < 1 then return false
      let bounds ←
        if range = ascii "*" then pure (field.rangeStart, field.rangeEnd)
        else
          match splitRange range with
          | [] => .error .undefinedBehavior
          | [first] => do pure (← fromLiteral field first, field.rangeEnd)
          | first :: second :: _ => do pure (← fromLiteral field first, ← fromLiteral field second)
      let length :=
        if bounds.2 < bounds.1 then
          (field.rangeEnd - bounds.1) + bounds.2 + (if field.rangeStart < 1 then 1 else 0)
        else bounds.2 - bounds.1
      return step ≤ length
    | _ => return false
  else if hasList value then
    if value.head? = some listChar || value.getLast? = some listChar then return false
    else do
      let valid ← allPass (fun v => if v = ascii "*" then return false else validate v)
        (splitList value)
      if !valid then return false
      let list ← createList field value
      return list.Nodup
  else if hasRange value then
    match splitRange value with
    | [first, second] =>
      if first = ascii "*" || first = ascii "?" || second = ascii "*" || second = ascii "?" then
        return false
      else do
        if !(← validate first) then return false
        if !(← validate second) then return false
        let start ← fromLiteral field first
        let last ← fromLiteral field second
        return if field.allowBackwardRange then start ≠ last else start < last
    | _ => return false
  else do
    let num ← fromLiteral field value
    return 0 ≤ num ∧ field.rangeStart ≤ num ∧ num ≤ field.rangeEnd

def parseNearestWeekday (value : Str) : Str := before 87 value

def parseLastDayOfWeek (value : Str) : Str := before 76 value

/-- Day and count of a text such as `5#2`; without the separator both are empty. -/
def parseNthDayOfWeek (value : Str) : Str × Str :=
  if value.contains 35 then (before 35 value, (value.dropWhile fun char => char != 35).drop 1)
  else ([], [])

/-- `validate` as dispatched on the kind of field; every recursive call is on a
shorter text, which the fuel counts. -/
def validateWithin : Nat → CronFieldPos → Str → Except Fault Bool
  | 0, _, _ => .error .outOfFuel
  | fuel + 1, .dayOfMonth, value =>
    if value = ascii "L" || value = ascii "?" then return true
    else
      let weekday := parseNearestWeekday value
      if hasList value && (!weekday.isEmpty || value.contains 76 || value.contains 63) then
        return false
      else
        validateBase .dayOfMonth (validateWithin fuel .dayOfMonth)
          (if weekday.isEmpty then value else weekday)
  | fuel + 1, .dayOfWeek, value =>
    if value = ascii "?" then return true
    else
      let lastDayOfWeek := parseLastDayOfWeek value
      if !lastDayOfWeek.isEmpty then
        validateBase .dayOfWeek (validateWithin fuel .dayOfWeek) lastDayOfWeek
      else
        let (day, countText) := parseNthDayOfWeek value
        if !day.isEmpty then do
          if !(← validateBase .dayOfWeek (validateWithin fuel .dayOfWeek) day) then return false
          let count ← stoi countText
          return 1 ≤ count ∧ count ≤ 5
        else validateBase .dayOfWeek (validateWithin fuel .dayOfWeek) value
  | fuel + 1, field, value => validateBase field (validateWithin fuel field) value

def validate (field : CronFieldPos) (value : Str) : Except Fault Bool :=
  validateWithin (value.length + 1) field value

/-! ### Matching -/

/-- `cron_field::match` against one number. -/
def matchNumber (field : CronFieldPos) (value : Str) (time : Int) : Except Fault Bool :=
  if value = ascii "*" then return true
  else if hasList value || hasRange value || hasStep value then do
    return (← createList field value).contains time
  else return time = (← fromLiteral field value)

/-- The loop over the offsets around a day on a weekend. -/
def nearestOffset (time : DateTime) : List Int → Except Fault Int
  | [] => return time.day
  | offset :: rest =>
    if time.day + offset > 0 ∧ time.day + offset ≤ time.lastDayOfMonth then do
      let other ← DateTime.ofDate time.year time.month (time.day + offset)
      if !other.isWeekend then return time.day + offset
      else nearestOffset time rest
    else nearestOffset time rest

def calcNearestWeekday (time : DateTime) : Except Fault Int :=
  if !time.isWeekend then return time.day
  else nearestOffset time [-1, 1, -2, 2]

/-- The loop back to a day of the week; weekdays repeat, so it never ends
when none of seven days is the target. -/
def backToWeekday (target : Int) : Nat → DateTime → Except Fault DateTime
  | 0, _ => .error .outOfFuel
  | fuel + 1, time =>
    if time.dayOfWeek ≠ target then backToWeekday target fuel (time.minus dayTicks) else return time

/-- The loop forward to the occurrence of a day of the week with this number.
Fourteen days hold an occurrence even where the ticks wrap around. -/
def forwardToWeekday (target targetCount lastDayOfMonth : Int) :
    Nat → DateTime → Int → Except Fault DateTime
  | 0, _, _ => .error .outOfFuel
  | fuel + 1, time, count =>
    let seen := if time.dayOfWeek = target then count + 1 else count
    if time.dayOfWeek = target ∧ seen ≥ targetCount then return time
    else
      let next := time.plus dayTicks
      if next.day < lastDayOfMonth + 1 then
        forwardToWeekday target targetCount lastDayOfMonth fuel next seen
      else return next

def matchDayOfMonth (value : Str) (time : DateTime) : Except Fault Bool :=
  if value = ascii "?" then return true
  else if value = ascii "L" then return time.day = time.lastDayOfMonth
  else
    let weekday := parseNearestWeekday value
    if !weekday.isEmpty then do
      let targetDay ← stoi weekday
      let target ← DateTime.ofDate time.year time.month (min targetDay time.lastDayOfMonth)
      return time.day = (← calcNearestWeekday target)
    else matchNumber .dayOfMonth value time.day

def matchDayOfWeek (value : Str) (time : DateTime) : Except Fault Bool :=
  if value = ascii "?" then return true
  else
    let lastDayOfWeek := parseLastDayOfWeek value
    if !lastDayOfWeek.isEmpty then do
      let target ← stoi lastDayOfWeek
      let last ← DateTime.ofDate time.year time.month time.lastDayOfMonth
      return time.day = (← backToWeekday target 7 last).day
    else
      let (day, countText) := parseNthDayOfWeek value
      if !day.isEmpty then do
        let target ← stoi day
        let targetCount ← stoi countText
        if time.dayOfWeek ≠ target then return false
        let first ← DateTime.ofDate time.year time.month 1
        let found ← forwardToWeekday target targetCount first.lastDayOfMonth
          (14 * (targetCount.toNat + 1)) first 0
        return time.day = found.day
      else matchNumber .dayOfWeek value time.dayOfWeek

/-- `match` as dispatched on the kind of field. -/
def matchField (field : CronFieldPos) (value : Str) (time : DateTime) : Except Fault Bool :=
  match field with
  | .minute => matchNumber .minute value time.minute
  | .hour => matchNumber .hour value time.hour
  | .dayOfMonth => matchDayOfMonth value time
  | .month => matchNumber .month value time.month
  | .dayOfWeek => matchDayOfWeek value time

/-! ### Stepping on -/

/-- The element after the first one at or below the number whose successor is
above it; the first element when there is none. -/
def nextElement (number : Int) : List Int → Option Int
  | [] => none
  | first :: rest =>
    let rec scan : Int → List Int → Int
      | _, [] => first
      | current, next :: rest =>
        if number ≥ current ∧ number < next then next else scan next rest
    some (scan first rest)

/-- The element chosen from the list of a field's text; the lists that are
empty are indexed out of bounds. -/
def chooseElement (field : CronFieldPos) (value : Str) (number : Int) : Except Fault Int := do
  match nextElement number (← createList field value) with
  | none => .error .undefinedBehavior
  | some element => return element

def incrementMinute (value : Str) (time : DateTime) : Except Fault DateTime :=
  if value = ascii "*" then return time.plus minuteTicks
  else do
    let element ← chooseElement .minute value time.minute
    let nextTime := time.minus (time.minute * minuteTicks)
    if time.minute ≥ element then return nextTime.plus hourTicks
    else return nextTime.plus (element * minuteTicks)

def incrementHour (value : Str) (time : DateTime) : Except Fault DateTime := do
  let nextTime := time.minus (time.minute * minuteTicks)
  if value = ascii "*" then return nextTime.plus hourTicks
  else
    let element ← chooseElement .hour value time.hour
    let nextTime := nextTime.minus (nextTime.hour * hourTicks)
    if time.hour ≥ element then return nextTime.plus dayTicks
    else return nextTime.plus (element * hourTicks)

def nextDay (time : DateTime) : DateTime :=
  let nextTime := time.minus (time.minute * minuteTicks)
  let nextTime := nextTime.minus (nextTime.hour * hourTicks)
  nextTime.plus dayTicks

def incrementDayOfMonth (value : Str) (time : DateTime) : Except Fault DateTime :=
  if value = ascii "*" || value = ascii "L" || !(parseNearestWeekday value).isEmpty then
    return nextDay time
  else do
    let element ← chooseElement .dayOfMonth value time.day
    if time.day ≥ element then
      let nextTime ← DateTime.ofDate time.year time.month 1
      return nextTime.plus (nextTime.lastDayOfMonth * dayTicks)
    else DateTime.ofDate time.year time.month element

def incrementMonth (value : Str) (time : DateTime) : Except Fault DateTime :=
  if value = ascii "*" then do
    let nextTime ← DateTime.ofDate time.year time.month 1
    return nextTime.plus (nextTime.lastDayOfMonth * dayTicks)
  else do
    let element ← chooseElement .month value time.month
    if time.month ≥ element then DateTime.ofDate (time.year + 1) 1 1
    else DateTime.ofDate time.year element 1

def incrementDayOfWeek (_ : Str) (time : DateTime) : Except Fault DateTime :=
  return nextDay time

/-- `increment` as dispatched on the kind of field. -/
def increment (field : CronFieldPos) (value : Str) (time : DateTime) : Except Fault DateTime :=
  match field with
  | .minute => incrementMinute value time
  | .hour => incrementHour value time
  | .dayOfMonth => incrementDayOfMonth value time
  | .month => incrementMonth value time
  | .dayOfWeek => incrementDayOfWeek value time

end BabyLuigi.Cron
