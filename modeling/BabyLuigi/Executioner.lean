import BabyLuigi.TaskRequest
import Mathlib.Algebra.Group.Nat.Defs
import Mathlib.Data.Finset.SDiff

/-!
# Dependency waves

The loop that runs one DAG in waves, as a step relation. A wave is cut off at
the concurrency limit in the iteration order of an unordered set; its tasks
start and finish in any order, and the loop waits for all of them.
-/

set_option autoImplicit false

namespace BabyLuigi.ShyExecutioner

variable {Name : Type} [DecidableEq Name]

abbrev TaskIndex (Name : Type) := UnorderedMap Name Nat

/-- The loop that fills `by_name` from position `position` on: the first runner
of a name wins. -/
def indexRunners : List (TaskRunner Name) → Nat → TaskIndex Name → TaskIndex Name
  | [], _, byName => byName
  | runner :: rest, position, byName =>
    indexRunners rest (position + 1) (UnorderedMap.emplace runner.name position byName).1

def byName (payload : TaskRequestPayload Name) : TaskIndex Name :=
  indexRunners payload.taskRunners 0 ∅

/-- The scan over the pending names; `ready` holds the names taken so far. -/
def selectReadyTasks (dag : DirectedAcyclicGraph Name) (completed : Finset Name)
    (maxTaskConcurrency : Nat) : List Name → List Name → List Name
  | [], ready => ready
  | name :: rest, ready =>
    if dag.isTaskReady completed name then
      if (ready ++ [name]).length ≥ maxTaskConcurrency then ready ++ [name]
      else selectReadyTasks dag completed maxTaskConcurrency rest (ready ++ [name])
    else selectReadyTasks dag completed maxTaskConcurrency rest ready

/-- The largest size of a vector of strings, at 32 bytes each: `reserve` beyond
it throws. -/
def maxSize : Nat := (2 ^ 63 - 1) / 32

/-- Where one run of the loop stands. A wave splits its tasks into those not
yet started, those in progress and those finished. -/
inductive Phase (Name : Type) where
  | loopHead
  | wave (spawned inProgress finishedNames : List Name)
  | stopped
  | threw

/-- The loop has been left, at its end or by an exception. -/
def Phase.isOver : Phase Name → Bool
  | .stopped | .threw => true
  | _ => false

inductive Event (Name : Type) where
  | started (name : Name) (runner : Nat)
  | finished (name : Name) (runner : Nat)

/-- The log lists the newest event first. -/
structure Execution (Name : Type) where
  pending : Finset Name
  completed : Finset Name
  phase : Phase Name
  waves : Nat
  log : List (Event Name)

def Execution.initial (payload : TaskRequestPayload Name) : Execution Name where
  pending := (byName payload).keys.toFinset
  completed := ∅
  phase := .loopHead
  waves := 0
  log := []

/-- An iteration order of an unordered set. -/
def IterationOrder (order : List Name) (names : Finset Name) : Prop :=
  order.Nodup ∧ order.toFinset = names

/-- One step of `run_dependency_waves`, where `running` is the flag as read at
the loop head. The scan reserves room for the whole limit first: beyond the
largest size that throws, and below it memory can still run out. -/
inductive Step (payload : TaskRequestPayload Name) (maxTaskConcurrency : Nat) (running : Bool) :
    Execution Name → Execution Name → Prop where
  | finished {state : Execution Name} :
      state.phase = .loopHead → state.pending = ∅ →
      Step payload maxTaskConcurrency running state { state with phase := .stopped }
  | cleared {state : Execution Name} :
      state.phase = .loopHead → state.pending ≠ ∅ → running = false →
      Step payload maxTaskConcurrency running state { state with phase := .stopped }
  | reserveThrows {state : Execution Name} :
      state.phase = .loopHead → state.pending ≠ ∅ → running = true →
      Step payload maxTaskConcurrency running state { state with phase := .threw }
  | blocked {state : Execution Name} {order : List Name} :
      state.phase = .loopHead → state.pending ≠ ∅ → running = true →
      maxTaskConcurrency ≤ maxSize → IterationOrder order state.pending →
      selectReadyTasks payload.dag state.completed maxTaskConcurrency order [] = [] →
      Step payload maxTaskConcurrency running state { state with phase := .stopped }
  | wave {state : Execution Name} {order ready : List Name} :
      state.phase = .loopHead → state.pending ≠ ∅ → running = true →
      maxTaskConcurrency ≤ maxSize → IterationOrder order state.pending →
      selectReadyTasks payload.dag state.completed maxTaskConcurrency order [] = ready →
      ready ≠ [] →
      Step payload maxTaskConcurrency running state
        { state with phase := .wave ready [] [], waves := state.waves + 1 }
  | start {state : Execution Name} {spawned inProgress finishedNames : List Name}
      {name : Name} {runner : Nat} :
      state.phase = .wave spawned inProgress finishedNames → name ∈ spawned →
      (byName payload).lookup name = some runner →
      Step payload maxTaskConcurrency running state
        { state with
          phase := .wave (spawned.erase name) (name :: inProgress) finishedNames
          log := .started name runner :: state.log }
  | finish {state : Execution Name} {spawned inProgress finishedNames : List Name}
      {name : Name} {runner : Nat} :
      state.phase = .wave spawned inProgress finishedNames → name ∈ inProgress →
      (byName payload).lookup name = some runner →
      Step payload maxTaskConcurrency running state
        { state with
          phase := .wave spawned (inProgress.erase name) (finishedNames ++ [name])
          log := .finished name runner :: state.log }
  | join {state : Execution Name} {finishedNames : List Name} :
      state.phase = .wave [] [] finishedNames →
      Step payload maxTaskConcurrency running state
        { state with
          pending := state.pending \ finishedNames.toFinset
          completed := state.completed ∪ finishedNames.toFinset
          phase := .loopHead }

/-- The tasks whose function has been entered and has not returned. -/
def Execution.inProgress (state : Execution Name) : List Name :=
  match state.phase with
  | .wave _ inProgress _ => inProgress
  | _ => []

def startedTasks (log : List (Event Name)) : List (Name × Nat) :=
  log.filterMap fun
    | .started name runner => some (name, runner)
    | .finished _ _ => none

def startedNames (log : List (Event Name)) : List Name := (startedTasks log).map Prod.fst

def startedRunners (log : List (Event Name)) : List Nat := (startedTasks log).map Prod.snd

def finishedNames (log : List (Event Name)) : List Name :=
  log.filterMap fun
    | .started _ _ => none
    | .finished name _ => some name

/-- Reachable states, whatever is read from `running`. -/
def Reachable (payload : TaskRequestPayload Name) (maxTaskConcurrency : Nat)
    (state : Execution Name) : Prop :=
  Relation.ReflTransGen
    (fun before after => ∃ running, Step payload maxTaskConcurrency running before after)
    (Execution.initial payload) state

/-- Reachable states while `running` stays true. -/
def ReachableRunning (payload : TaskRequestPayload Name) (maxTaskConcurrency : Nat)
    (state : Execution Name) : Prop :=
  Relation.ReflTransGen (Step payload maxTaskConcurrency true) (Execution.initial payload) state

end BabyLuigi.ShyExecutioner
