import BabyLuigi.Request

/-!
# Storage interface

The operations the server calls on its blob, DAG and task stores, and the data
they exchange.
-/

set_option autoImplicit false

namespace BabyLuigi

inductive StorageError where
  | notFound
  | alreadyExists
  | conflict
  | io
  | corrupt
  | transient
  | permission
  | unsupported
  deriving DecidableEq, Repr

structure DagEntry where
  value : ShyguyDag
  version : UInt64
  deriving DecidableEq, Repr

inductive ScheduleFrequency where
  | hourly
  | daily
  | weekly
  | monthly
  | yearly
  | custom
  | unset
  | unknown
  deriving DecidableEq, Repr

structure ScheduleMetadata where
  cronExpression : Str
  frequency : ScheduleFrequency
  deriving DecidableEq, Repr

inductive DagRunStatus where
  | none
  | success
  | running
  | failed
  | skipped
  | queued
  deriving DecidableEq, Repr

structure TaskStatusPair where
  previous : DagRunStatus
  current : DagRunStatus
  deriving DecidableEq, Repr

structure TaskMetadata where
  schedule : ScheduleMetadata
  statuses : TaskStatusPair
  deriving DecidableEq, Repr

structure TaskEntry where
  value : ShyguyTask
  version : UInt64
  blobId : Option Str
  metadata : Option TaskMetadata
  deriving DecidableEq, Repr

/-- How a call on a store ends: it returns a value or an error, or it throws. -/
inductive Outcome (Value : Type) where
  | value (value : Value)
  | error (error : StorageError)
  | exception (fault : Fault)
  deriving DecidableEq, Repr

def Outcome.map {Value Result : Type} (change : Value → Result) : Outcome Value → Outcome Result
  | .value returned => .value (change returned)
  | .error failure => .error failure
  | .exception fault => .exception fault

@[simp] theorem Outcome.map_value {Value Result : Type} (change : Value → Result) (value : Value) :
    (Outcome.value value).map change = .value (change value) := rfl

theorem Outcome.map_eq_value {Value Result : Type} {change : Value → Result}
    {outcome : Outcome Value} {result : Result} :
    outcome.map change = .value result ↔ ∃ value, outcome = .value value ∧ change value = result := by
  cases outcome <;> simp [Outcome.map]

def Outcome.isValue {Value : Type} : Outcome Value → Bool
  | .value _ => true
  | _ => false

/-- The operations of one storage over its state. A call that throws may
already have changed the state. -/
structure Storage (State : Type) where
  putBlob : State → Str → State × Outcome Str
  upsertDag : State → ShyguyDag → Option UInt64 → State × Outcome UInt64
  getDag : State → Str → Outcome DagEntry
  listDags : State → Outcome (List DagEntry)
  eraseDag : State → Str → Option UInt64 → State × Outcome Unit
  upsertTask : State → ShyguyTask → Option Str → Option UInt64 → Option TaskMetadata →
    State × Outcome UInt64
  getTask : State → Str → Str → Outcome TaskEntry
  listTasks : State → Str → Outcome (List TaskEntry)
  eraseTask : State → Str → Str → Option UInt64 → State × Outcome Unit

end BabyLuigi
