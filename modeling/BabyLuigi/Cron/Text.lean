import BabyLuigi.Graph
import BabyLuigi.Storage.Schedule

/-!
# Text of schedules

The string operations that schedule fields are read with.
-/

set_option autoImplicit false

namespace BabyLuigi.Cron

def intMin : Int := -2147483648

def intMax : Int := 2147483647

def isDigit (char : UInt8) : Bool := 48 ≤ char && char ≤ 57

/-- What a C string function sees of a `std::string`. -/
def cString (text : Str) : Str := text.takeWhile fun char => char != 0

def digitsValue (digits : Str) : Int :=
  digits.foldl (fun value digit => 10 * value + (digit.toNat - 48 : Int)) 0

/-- `strtol` in base 10: the number and what follows it, or `none` when no
conversion could be performed. -/
def strtol (text : Str) : Option (Int × Str) :=
  let unsigned (sign : Int) (rest : Str) : Option (Int × Str) :=
    match rest.takeWhile isDigit with
    | [] => none
    | digits => some (sign * digitsValue digits, rest.dropWhile isDigit)
  match (cString text).dropWhile isSpace with
  | 43 :: rest => unsigned 1 rest
  | 45 :: rest => unsigned (-1) rest
  | rest => unsigned 1 rest

def stoi (text : Str) : Except Fault Int :=
  match strtol text with
  | none => .error .invalidArgument
  | some (number, _) =>
    if intMin ≤ number ∧ number ≤ intMax then .ok number else .error .outOfRange

/-- Without a conversion `strtol` leaves its end pointer at the start. -/
def isNumeric (value : Str) : Bool :=
  !value.isEmpty &&
    match strtol value with
    | none => (cString value).isEmpty
    | some (_, rest) => rest.isEmpty

/-- The pieces that `std::getline` reads: an empty piece at the end is dropped. -/
def split (value : Str) (delimiter : UInt8) : List Str :=
  let pieces := value.splitOn delimiter
  match pieces.getLast? with
  | some [] => pieces.dropLast
  | _ => pieces

def stepChar : UInt8 := 47

def rangeChar : UInt8 := 45

def listChar : UInt8 := 44

def hasStep (value : Str) : Bool := value.contains stepChar

def hasRange (value : Str) : Bool := value.contains rangeChar

def hasList (value : Str) : Bool := value.contains listChar

def splitStep (value : Str) : List Str := split value stepChar

def splitRange (value : Str) : List Str := split value rangeChar

def splitList (value : Str) : List Str := split value listChar

def before (char : UInt8) (value : Str) : Str :=
  if value.contains char then value.takeWhile fun other => other != char else []

end BabyLuigi.Cron
