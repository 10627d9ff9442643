import BabyLuigi.Storage.Interface

/-!
# Schedule frequencies

The label a schedule gets when a task is stored.
-/

set_option autoImplicit false

namespace BabyLuigi

def isStarLike (token : Str) : Bool := token == ascii "*" || token == ascii "?"

def isSimpleValue (token : Str) : Bool :=
  !token.isEmpty && !token.any fun char => (ascii "*/-,").contains char

/-- `std::isspace` in the C locale. -/
def isSpace (char : UInt8) : Bool := char == 32 || (9 ≤ char && char ≤ 13)

/-- The non-blank stretches of a text, from left to right. -/
def words (text : Str) : List Str :=
  (text.splitOnP isSpace).filter fun word => !word.isEmpty

/-- Five tokens are read; whatever follows the fifth is ignored. -/
def tokenizeCron (cron : Str) : Option (Str × Str × Str × Str × Str) :=
  match words cron with
  | minute :: hour :: dom :: month :: dow :: _ => some (minute, hour, dom, month, dow)
  | _ => none

def classifySchedule (cronExpression : Str) : ScheduleFrequency :=
  if cronExpression.isEmpty then .custom
  else
    match tokenizeCron cronExpression with
    | none => .custom
    | some (minute, hour, dom, month, dow) =>
      if !isSimpleValue minute then .custom
      else if isStarLike hour && isStarLike dom && isStarLike month && isStarLike dow then .hourly
      else if isSimpleValue hour && isStarLike dom && isStarLike month && isStarLike dow then .daily
      else if isSimpleValue hour && isStarLike dom && isStarLike month && !isStarLike dow then
        .weekly
      else if isSimpleValue hour && !isStarLike dom && isStarLike month && isStarLike dow then
        .monthly
      else if isSimpleValue hour && !isStarLike dom && !isStarLike month then .yearly
      else .custom

end BabyLuigi
