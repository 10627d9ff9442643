import BabyLuigi.Cron.Text
import BabyLuigi.Storage.Json
import Mathlib.Data.List.DropRight

/-!
# The schedule form

The actions panel turns the text fields of its form into a schedule.
-/

set_option autoImplicit false

namespace BabyLuigi.Tui

open Cron (isDigit digitsValue intMin intMax)

def dagScheduleKindNames : List Str := [
  ascii "none", ascii "hourly", ascii "daily", ascii "weekly", ascii "monthly", ascii "yearly",
  ascii "custom"]

def trim (input : Str) : Str := (input.dropWhile isSpace).rdropWhile isSpace

/-- `std::from_chars` for an `int`: the number and what follows its digits.
Neither blanks nor a plus sign may come first. -/
def fromChars (text : Str) : Option (Int × Str) :=
  let unsigned (sign : Int) (rest : Str) : Option (Int × Str) :=
    let digits := rest.takeWhile isDigit
    let value := sign * digitsValue digits
    if digits.isEmpty || value < intMin || intMax < value then none
    else some (value, rest.dropWhile isDigit)
  match text with
  | 45 :: rest => unsigned (-1) rest
  | rest => unsigned 1 rest

def parseIntInRange (input : Str) (minValue maxValue : Int) : Option Int :=
  let s := trim input
  if s.isEmpty then none
  else do
    let (value, rest) ← fromChars s
    if !rest.isEmpty then none
    else if value < minValue || maxValue < value then none
    else some value

/-- The digits of a number; the fuel bounds their count. -/
def digitsWithin : Nat → Nat → Str
  | 0, _ => []
  | fuel + 1, number =>
    if number < 10 then [(48 + number).toUInt8]
    else digitsWithin fuel (number / 10) ++ [(48 + number % 10).toUInt8]

/-- `std::to_string` of an `int`. -/
def toString (number : Int) : Str :=
  let digits := digitsWithin (number.natAbs + 1) number.natAbs
  if number < 0 then 45 :: digits else digits

def buildCronFromForm (scheduleKind : Int)
    (cronCustom minute hour dayOfMonth month dayOfWeek : Str) : Option Str :=
  match scheduleKind with
  | 0 => none
  | 6 =>
    let cron := trim cronCustom
    if cron.isEmpty then none else some cron
  | 1 => do
    let m ← parseIntInRange minute 0 59
    return toString m ++ ascii " * * * *"
  | 2 => do
    let m ← parseIntInRange minute 0 59
    let h ← parseIntInRange hour 0 23
    return toString m ++ ascii " " ++ toString h ++ ascii " * * *"
  | 3 => do
    let m ← parseIntInRange minute 0 59
    let h ← parseIntInRange hour 0 23
    let dow ← parseIntInRange dayOfWeek 0 6
    return toString m ++ ascii " " ++ toString h ++ ascii " * * " ++ toString dow
  | 4 => do
    let m ← parseIntInRange minute 0 59
    let h ← parseIntInRange hour 0 23
    let dom ← parseIntInRange dayOfMonth 1 31
    return toString m ++ ascii " " ++ toString h ++ ascii " " ++ toString dom ++ ascii " * *"
  | 5 => do
    let m ← parseIntInRange minute 0 59
    let h ← parseIntInRange hour 0 23
    let dom ← parseIntInRange dayOfMonth 1 31
    let mon ← parseIntInRange month 1 12
    return toString m ++ ascii " " ++ toString h ++ ascii " " ++ toString dom ++ ascii " " ++
      toString mon ++ ascii " *"
  | _ => none

end BabyLuigi.Tui
