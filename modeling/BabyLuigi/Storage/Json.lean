import BabyLuigi.Storage.Interface
import Mathlib.Algebra.Group.Int.Defs
import Mathlib.Algebra.Group.Nat.Defs

/-!
# Stored documents

The JSON values of stored DAGs and tasks, and the conversions from and to them
with the exceptions they throw.
-/

set_option autoImplicit false

namespace BabyLuigi

inductive Json where
  | null
  | boolean (value : Bool)
  | unsigned (value : Nat)
  | integer (value : Int)
  | float (value : Rat)
  | string (value : Str)
  | array (elements : List Json)
  | object (members : List (Str × Json))

namespace Json

/-! ### Access -/

def find : List (Str × Json) → Str → Option Json
  | [], _ => none
  | (key, value) :: rest, name => if key = name then some value else find rest name

/-- `json.find`: only objects have members. -/
def member (json : Json) (name : Str) : Option Json :=
  match json with
  | .object members => find members name
  | _ => none

def isObject : Json → Bool
  | .object _ => true
  | _ => false

def contains (json : Json) (name : Str) : Bool := (json.member name).isSome

/-- `json.at`: throws on a missing member and on anything but an object. -/
def at' (json : Json) (name : Str) : Except Fault Json :=
  match json.member name with
  | some value => .ok value
  | none => .error .jsonException

def getString : Json → Except Fault Str
  | .string value => .ok value
  | _ => .error .jsonException

def getOptional {Value : Type} (get : Json → Except Fault Value) (json : Json) :
    Except Fault (Option Value) :=
  match json with
  | .null => .ok none
  | json => (get json).map some

def getStrings (json : Json) : Except Fault (List Str) :=
  match json with
  | .array elements => elements.mapM getString
  | _ => .error .jsonException

/-- `json.value` with a string as its default. -/
def stringOr (json : Json) (name fallback : Str) : Except Fault Str :=
  if json.isObject then
    match json.member name with
    | some value => value.getString
    | none => .ok fallback
  else .error .jsonException

/-- The conversion to `int`: integers keep their low 32 bits, and a float out
of range is undefined. -/
def getInt : Json → Except Fault Int
  | .unsigned value => .ok (Int.bmod value (2 ^ 32))
  | .integer value => .ok (value.bmod (2 ^ 32))
  | .float value =>
    let whole := value.num.tdiv value.den
    if -(2 ^ 31) ≤ whole ∧ whole < 2 ^ 31 then .ok whole else .error .undefinedBehavior
  | .boolean value => .ok (if value then 1 else 0)
  | _ => .error .jsonException

/-- The conversion of an `int` to `uint64_t`. -/
def versionOfInt (value : Int) : UInt64 := .ofNat (value % 2 ^ 64).toNat

/-- `value("version", 0)`: the default makes the stored number an `int`. -/
def version (json : Json) : Except Fault UInt64 :=
  if json.isObject then
    match json.member (ascii "version") with
    | some value => value.getInt.map versionOfInt
    | none => .ok 0
  else .error .jsonException

/-! ### Conversions -/

def ofOptional {Value : Type} (convert : Value → Json) : Option Value → Json
  | none => .null
  | some value => convert value

def ofDag (dag : ShyguyDag) : Json :=
  .object [(ascii "name", .string dag.name), (ascii "schedule", ofOptional .string dag.schedule)]

def getDag (json : Json) : Except Fault ShyguyDag := do
  let name ← (← json.at' (ascii "name")).getString
  let schedule ← (← json.at' (ascii "schedule")).getOptional getString
  return { name := name, schedule := schedule }

def ofStrings (values : List Str) : Json := .array (values.map .string)

def ofTask (task : ShyguyTask) : Json :=
  .object [
    (ascii "name", .string task.name),
    (ascii "associated_dag", .string task.associatedDag),
    (ascii "type", ofOptional .string task.type),
    (ascii "filename", ofOptional .string task.filename),
    (ascii "file_content", ofOptional .string task.fileContent),
    (ascii "dependency_names", ofOptional ofStrings task.dependencyNames)]

def getTask (json : Json) : Except Fault ShyguyTask := do
  let name ← (← json.at' (ascii "name")).getString
  let associatedDag ← (← json.at' (ascii "associated_dag")).getString
  let type ← (← json.at' (ascii "type")).getOptional getString
  let filename ← (← json.at' (ascii "filename")).getOptional getString
  let fileContent ← (← json.at' (ascii "file_content")).getOptional getString
  let dependencyNames ← (← json.at' (ascii "dependency_names")).getOptional getStrings
  return {
    name := name
    associatedDag := associatedDag
    type := type
    filename := filename
    fileContent := fileContent
    dependencyNames := dependencyNames }

/-- `std::tolower` in the C locale. -/
def toLower (char : UInt8) : UInt8 := if 65 ≤ char && char ≤ 90 then char + 32 else char

def normalizeToken (value : Str) : Str := value.map toLower

def frequencyName : ScheduleFrequency → Str
  | .hourly => ascii "hourly"
  | .daily => ascii "daily"
  | .weekly => ascii "weekly"
  | .monthly => ascii "monthly"
  | .yearly => ascii "yearly"
  | _ => ascii "custom"

def scheduleFrequencyFromString (value : Str) : ScheduleFrequency :=
  let normalized := normalizeToken value
  if normalized = ascii "hourly" then .hourly
  else if normalized = ascii "daily" then .daily
  else if normalized = ascii "weekly" then .weekly
  else if normalized = ascii "monthly" then .monthly
  else if normalized = ascii "yearly" then .yearly
  else .custom

def statusName : DagRunStatus → Str
  | .none => ascii "none"
  | .success => ascii "success"
  | .running => ascii "running"
  | .failed => ascii "failed"
  | .skipped => ascii "skipped"
  | .queued => ascii "queued"

def dagRunStatusFromString (value : Str) : DagRunStatus :=
  let normalized := normalizeToken value
  if normalized = ascii "success" then .success
  else if normalized = ascii "running" then .running
  else if normalized = ascii "failed" then .failed
  else if normalized = ascii "skipped" then .skipped
  else if normalized = ascii "queued" then .queued
  else .none

def metadataToJson (metadata : TaskMetadata) : Json :=
  .object [
    (ascii "schedule", .object [
      (ascii "cron", .string metadata.schedule.cronExpression),
      (ascii "frequency", .string (frequencyName metadata.schedule.frequency))]),
    (ascii "statuses", .object [
      (ascii "previous", .string (statusName metadata.statuses.previous)),
      (ascii "current", .string (statusName metadata.statuses.current))])]

/-- A member that is an object. -/
def objectMember (json : Json) (name : Str) : Option Json :=
  (json.member name).filter isObject

def metadataFromJson (json : Json) : Except Fault (Option TaskMetadata) :=
  if !json.isObject then return none
  else do
    let schedule ←
      match json.objectMember (ascii "schedule") with
      | none => pure none
      | some schedule => do
        let cron ← schedule.stringOr (ascii "cron") []
        let frequency ← schedule.stringOr (ascii "frequency") (ascii "custom")
        pure (some {
          cronExpression := cron
          frequency := scheduleFrequencyFromString frequency : ScheduleMetadata })
    let statuses ←
      match json.objectMember (ascii "statuses") with
      | none => pure none
      | some statuses => do
        let previous ← statuses.stringOr (ascii "previous") (ascii "none")
        let current ← statuses.stringOr (ascii "current") (ascii "none")
        pure (some {
          previous := dagRunStatusFromString previous
          current := dagRunStatusFromString current : TaskStatusPair })
    match schedule, statuses with
    | none, none => return none
    | schedule, statuses => return some {
        schedule := schedule.getD { cronExpression := [], frequency := .unset }
        statuses := statuses.getD { previous := .none, current := .none } }

/-! ### Printing -/

/-- How far a UTF-8 decoder is into a character: how many bytes follow the next
one, and the range the next one must be in. -/
inductive Utf8State where
  | accept
  | expect (following : Nat) (low high : UInt8)
  | reject
  deriving DecidableEq, Repr

/-- Overlong forms, surrogates and values past the last character are rejected
at their second byte. -/
def Utf8State.next : Utf8State → UInt8 → Utf8State
  | .accept, byte =>
    if byte ≤ 0x7F then .accept
    else if 0xC2 ≤ byte && byte ≤ 0xDF then .expect 0 0x80 0xBF
    else if byte == 0xE0 then .expect 1 0xA0 0xBF
    else if byte == 0xED then .expect 1 0x80 0x9F
    else if 0xE1 ≤ byte && byte ≤ 0xEF then .expect 1 0x80 0xBF
    else if byte == 0xF0 then .expect 2 0x90 0xBF
    else if byte == 0xF4 then .expect 2 0x80 0x8F
    else if 0xF1 ≤ byte && byte ≤ 0xF3 then .expect 2 0x80 0xBF
    else .reject
  | .expect 0 low high, byte => if low ≤ byte && byte ≤ high then .accept else .reject
  | .expect (following + 1) low high, byte =>
    if low ≤ byte && byte ≤ high then .expect following 0x80 0xBF else .reject
  | .reject, _ => .reject

def validUtf8 (text : Str) : Bool := text.foldl Utf8State.next .accept = .accept

mutual

/-- `dump` throws on a string that is not valid UTF-8. -/
def dumpable : Json → Bool
  | .string value => validUtf8 value
  | .array elements => dumpableElements elements
  | .object members => dumpableMembers members
  | _ => true

def dumpableElements : List Json → Bool
  | [] => true
  | element :: rest => dumpable element && dumpableElements rest

def dumpableMembers : List (Str × Json) → Bool
  | [] => true
  | (key, value) :: rest => validUtf8 key && dumpable value && dumpableMembers rest

end

end Json

end BabyLuigi
