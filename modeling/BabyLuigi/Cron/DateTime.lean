import BabyLuigi.Graph
import Mathlib.Algebra.Group.Int.Defs
import Mathlib.Algebra.Group.Nat.Defs

/-!
# Dates

Broken-down system time. Times are nanosecond ticks since 1970, which 64 bits
hold until April 2262; a date holds whole seconds.
-/

set_option autoImplicit false

namespace BabyLuigi.Cron

def secondTicks : Int := 1000000000

def minuteTicks : Int := 60 * secondTicks

def hourTicks : Int := 60 * minuteTicks

def dayTicks : Int := 24 * hourTicks

/-- A sum or product of ticks as 64 bits hold it. The language leaves a signed
overflow undefined; compiled code wraps around. -/
def wrap (ticks : Int) : Int := ticks.bmod (2 ^ 64)

/-- Year, month and day of the day with this number, 1970-01-01 being day 0. -/
def yearMonthDayFromDays (daysSinceEpoch : Int) : Int × Int × Int :=
  let z := daysSinceEpoch + 719468
  let era := (if z ≥ 0 then z else z - 146096).tdiv 146097
  let doe := z - era * 146097
  let yoe := (doe - doe / 1460 + doe / 36524 - doe / 146096) / 365
  let y := yoe + era * 400
  let doy := doe - (365 * yoe + yoe / 4 - yoe / 100)
  let mp := (5 * doy + 2) / 153
  let d := doy - (153 * mp + 2) / 5 + 1
  let m := if mp < 10 then mp + 3 else mp - 9
  (y + (if m ≤ 2 then 1 else 0), m, d)

def toDays (year month day : Int) : Int :=
  let y := year - (if month ≤ 2 then 1 else 0)
  let era := (if y ≥ 0 then y else y - 399).tdiv 400
  let yoe := y - era * 400
  let doy := (153 * (if month > 2 then month - 3 else month + 9) + 2) / 5 + day - 1
  let doe := yoe * 365 + yoe / 4 - yoe / 100 + doy
  era * 146097 + doe - 719468

def weekdayFromDays (daysSinceEpoch : Int) : Int :=
  if daysSinceEpoch ≥ -4 then (daysSinceEpoch + 4).tmod 7
  else (daysSinceEpoch + 5).tmod 7 + 6

structure DateTime where
  timePoint : Int
  wholeSeconds : secondTicks ∣ timePoint

namespace DateTime

/-- The conversion drops what lies below a second. -/
def ofTimePoint (timePoint : Int) : DateTime where
  timePoint := timePoint.tdiv secondTicks * secondTicks
  wholeSeconds := ⟨_, Int.mul_comm _ _⟩

def ofDate (year month day : Int) : Except Fault DateTime :=
  if year < 1970 ∨ year > 5137 then .error .invalidArgument
  else if month < 1 ∨ month > 12 then .error .invalidArgument
  else if day < 1 ∨ day > 31 then .error .invalidArgument
  else .ok (ofTimePoint (wrap (toDays year month day * dayTicks)))

def daysSinceEpoch (time : DateTime) : Int := time.timePoint.tdiv dayTicks

def timeOfDay (time : DateTime) : Int := time.timePoint - time.daysSinceEpoch * dayTicks

def year (time : DateTime) : Int := (yearMonthDayFromDays time.daysSinceEpoch).1

def month (time : DateTime) : Int := (yearMonthDayFromDays time.daysSinceEpoch).2.1

def day (time : DateTime) : Int := (yearMonthDayFromDays time.daysSinceEpoch).2.2

def hour (time : DateTime) : Int := time.timeOfDay.tdiv hourTicks

def minute (time : DateTime) : Int :=
  (time.timeOfDay - time.hour * hourTicks).tdiv minuteTicks

def dayOfWeek (time : DateTime) : Int := weekdayFromDays time.daysSinceEpoch

def isWeekend (time : DateTime) : Bool := time.dayOfWeek = 0 || time.dayOfWeek = 6

def isLeap (year : Int) : Bool :=
  year.tmod 4 = 0 && (year.tmod 100 ≠ 0 || year.tmod 400 = 0)

/-- The length of a month other than February. -/
def lastDays (month : Int) : Int :=
  if month = 4 ∨ month = 6 ∨ month = 9 ∨ month = 11 then 30 else 31

def lastDayOfMonth (time : DateTime) : Int :=
  if time.month = 2 then (if isLeap time.year then 29 else 28) else lastDays time.month

def plus (time : DateTime) (duration : Int) : DateTime :=
  ofTimePoint (wrap (time.timePoint + duration))

def minus (time : DateTime) (duration : Int) : DateTime :=
  ofTimePoint (wrap (time.timePoint - duration))

end DateTime

end BabyLuigi.Cron
