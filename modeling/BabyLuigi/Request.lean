import BabyLuigi.Graph
import BabyLuigi.Vocabulary

/-!
# Requests

What a client asks of the server and what the server answers.
-/

set_option autoImplicit false

namespace BabyLuigi

structure ShyguyTask where
  name : Str
  associatedDag : Str
  type : Option Str
  filename : Option Str
  fileContent : Option Str
  dependencyNames : Option (List Str)
  deriving DecidableEq, Repr

structure ShyguyDag where
  name : Str
  schedule : Option Str
  deriving DecidableEq, Repr

inductive CommandEnum where
  | notSet
  | create
  | remove
  | execute
  | snapshot
  | error
  deriving DecidableEq, Repr

/-- The variant held by a request. -/
inductive RequestData where
  | monostate
  | dag (dag : ShyguyDag)
  | task (task : ShyguyTask)
  deriving DecidableEq, Repr

structure ShyguyRequest where
  data : RequestData
  command : CommandEnum
  deriving DecidableEq, Repr

inductive CommandError where
  | dependenciesNotFound
  | containsDuplicates
  | taskCreatesCycle
  | taskNotFound
  | monostateReached
  | dagDuplicate
  | dagDeletionFailed
  | dagInsertionFailed
  | notCurrentlySupported
  | dagNotFound
  | dagNotScheduled
  | dagScheduleNotFound
  | dagScheduleNotValid
  | taskInsertionFailed
  | taskDeletionFailed
  | taskFileNotFound
  | taskFileCreationFailed
  | taskNotRunnable
  | unknownCommand
  deriving DecidableEq, Repr

abbrev CommandResultType := Except CommandError Str

/-- The cast between the two enumerations: their first four members agree. -/
def GraphError.toCommandError : GraphError → CommandError
  | .dependenciesNotFound => .dependenciesNotFound
  | .containsDuplicates => .containsDuplicates
  | .taskCreatesCycle => .taskCreatesCycle
  | .taskNotFound => .taskNotFound

/-- Times are nanosecond ticks of the steady clock. -/
structure NotificationType where
  time : Int
  associatedRequest : ShyguyRequest
  commandType : CommandEnum
  deriving DecidableEq, Repr

def existsValue {Element : Type} : Option (List Element) → Bool
  | none => false
  | some value => !value.isEmpty

def hasSchedule (request : ShyguyDag) : Bool := existsValue request.schedule

end BabyLuigi
