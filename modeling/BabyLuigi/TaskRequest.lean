import BabyLuigi.Graph
import BabyLuigi.Vocabulary

/-!
# Task requests

What a run of a DAG carries to the executioner: the runners in their run order
and a copy of the graph.
-/

set_option autoImplicit false

namespace BabyLuigi

/-- The fields of a runner that the executioner reads. Starting the runner
stands for starting its task function, whose exceptions are caught. -/
structure TaskRunner (Name : Type) where
  name : Name
  contents : Str
  deriving DecidableEq, Repr

structure TaskRequestPayload (Name : Type) where
  taskRunners : List (TaskRunner Name)
  dag : DirectedAcyclicGraph Name

structure TaskRequest (Name : Type) where
  scheduledTime : Int
  sequence : Nat
  payload : TaskRequestPayload Name

/-- A `std::shared_ptr<task_request>`, which may be null. -/
abbrev TaskRequestPtr (Name : Type) := Option (TaskRequest Name)

/-- The pointer with the earlier time, then the earlier sequence, is the greater. -/
def taskRequestPtrCompare {Name : Type} (lhs rhs : TaskRequestPtr Name) : Bool :=
  match lhs, rhs with
  | none, _ => true
  | some _, none => false
  | some lhs, some rhs =>
    if lhs.scheduledTime ≠ rhs.scheduledTime then rhs.scheduledTime < lhs.scheduledTime
    else rhs.sequence < lhs.sequence

/-- `scheduled_time_of` reads through the pointer. -/
def scheduledTimeOf {Name : Type} : TaskRequestPtr Name → Except Fault Int
  | none => .error .undefinedBehavior
  | some request => .ok request.scheduledTime

end BabyLuigi
