import BabyLuigi.ExecutionControl
import Mathlib.Logic.Relation

/-!
# The life of the server

`shyguy::run` from the start of its two threads to its return: their loops, the
executioners they start, the server's mutex, which the threads, the tasks and
the view lock, and the joins of the shutdown sequence.
-/

set_option autoImplicit false

namespace BabyLuigi

/-- The two threads that call `ensure_executioner_running`. -/
inductive Worker where
  | requestThread
  | scheduleThread
  deriving DecidableEq, Repr

/-- Where the loop of a thread stands. A round calls the server a few times, each
time under its mutex, and then `ensure_executioner_running` at most once. -/
inductive WorkerPhase where
  | loopHead
  | body (serverCalls : Nat) (called : Bool)
  | waiting (serverCalls : Nat)
  | inside (serverCalls : Nat)
  | ended
  deriving DecidableEq, Repr

/-- Who holds the server's mutex: a thread, the view, or a task of an executioner
while its command runs. -/
inductive MutexHolder where
  | worker (worker : Worker)
  | view
  | task
  deriving DecidableEq, Repr

/-- Where `run` stands: it waits for the interactive view, stores into the
terminator and joins one thread after the other. -/
inductive RunPhase where
  | viewing
  | stopping
  | joiningRequestThread
  | joiningScheduleThread
  | joiningExecutionThread
  | returned
  deriving DecidableEq, Repr

/-- The actions that belong to a call which has been entered, or to an
executioner. -/
def ControlAction.Continues {Caller : Type} : ControlAction Caller → Prop
  | .call _ | .stop => False
  | _ => True

/-- `openTasks` counts the tasks of the executioner's waves that have not ended. -/
structure ShyguyRun where
  control : ExecutionControl Worker
  workers : Worker → WorkerPhase
  phase : RunPhase
  serverMutex : Option MutexHolder
  openTasks : Nat

namespace ShyguyRun

def initial : ShyguyRun where
  control := .initial
  workers := fun _ => .loopHead
  phase := .viewing
  serverMutex := none
  openTasks := 0

def setWorker (run : ShyguyRun) (worker : Worker) (phase : WorkerPhase) : ShyguyRun :=
  { run with workers := Function.update run.workers worker phase }

@[simp] theorem setWorker_workers (run : ShyguyRun) (worker other : Worker) (phase : WorkerPhase) :
    (run.setWorker worker phase).workers other =
      if other = worker then phase else run.workers other :=
  Function.update_apply ..

/-- A step of one thread. A round calls the server twice: `process` or
`execute_at`, and `next_scheduled_dag`. The other waits of a round, for a request
and for a notification, have a deadline and end with the round; a command that
runs is taken to end. -/
inductive Step (run : ShyguyRun) : ShyguyRun → Prop where
  | loadTrue (worker : Worker) :
      run.workers worker = .loopHead → run.control.terminator = true →
      Step run (run.setWorker worker (.body 2 false))
  | loadFalse (worker : Worker) :
      run.workers worker = .loopHead → run.control.terminator = false →
      Step run (run.setWorker worker .ended)
  | callServer (worker : Worker) {serverCalls : Nat} :
      run.workers worker = .body (serverCalls + 1) false →
      Step run (run.setWorker worker (.waiting serverCalls))
  | lockServer (worker : Worker) {serverCalls : Nat} :
      run.workers worker = .waiting serverCalls → run.serverMutex = none →
      Step run
        { run.setWorker worker (.inside serverCalls) with serverMutex := some (.worker worker) }
  | unlockServer (worker : Worker) {serverCalls : Nat} :
      run.workers worker = .inside serverCalls →
      Step run { run.setWorker worker (.body serverCalls false) with serverMutex := none }
  | call (worker : Worker) {serverCalls : Nat} {control : ExecutionControl Worker} :
      run.workers worker = .body serverCalls false → run.control.Step (.call worker) control →
      Step run { run.setWorker worker (.body serverCalls true) with control := control }
  | continue (action : ControlAction Worker) {control : ExecutionControl Worker} :
      action.Continues → (∀ executioner, action = .leave executioner → run.openTasks = 0) →
      run.control.Step action control → Step run { run with control := control }
  | endRound (worker : Worker) {serverCalls : Nat} {called : Bool} :
      run.workers worker = .body serverCalls called → run.control.calls worker = .outside →
      Step run (run.setWorker worker .loopHead)
  | openWave (executioner tasks : Nat) :
      run.control.executioners executioner = .running → run.control.terminator = true →
      Step run { run with openTasks := run.openTasks + tasks }
  | lockTask :
      0 < run.openTasks → run.serverMutex = none →
      Step run { run with serverMutex := some .task }
  | endTask :
      run.serverMutex = some .task →
      Step run { run with serverMutex := none, openTasks := run.openTasks - 1 }
  | lockView :
      run.phase = .viewing → run.serverMutex = none → Step run { run with serverMutex := some .view }
  | unlockView :
      run.serverMutex = some .view → Step run { run with serverMutex := none }
  | viewStores {control : ExecutionControl Worker} :
      run.phase = .viewing → run.serverMutex ≠ some .view → run.control.Step .stop control →
      Step run { run with control := control, phase := .stopping }
  | noView :
      run.phase = .viewing → run.serverMutex ≠ some .view → Step run { run with phase := .stopping }
  | runStores {control : ExecutionControl Worker} :
      run.phase = .stopping → run.control.Step .stop control →
      Step run { run with control := control, phase := .joiningRequestThread }
  | joinRequestThread :
      run.phase = .joiningRequestThread → run.workers .requestThread = .ended →
      Step run { run with phase := .joiningScheduleThread }
  | joinScheduleThread :
      run.phase = .joiningScheduleThread → run.workers .scheduleThread = .ended →
      Step run { run with phase := .joiningExecutionThread }
  | joinExecutionThread {executioner : Nat} :
      run.phase = .joiningExecutionThread → run.control.executionThread = some executioner →
      run.control.executioners executioner = .ended →
      Step run { run with phase := .returned }
  | noExecutionThread :
      run.phase = .joiningExecutionThread → run.control.executionThread = none →
      Step run { run with phase := .returned }

/-- A step of a process that has not been aborted. -/
def Moves (before after : ShyguyRun) : Prop :=
  before.control.aborted = false ∧ Step before after

def Reachable (run : ShyguyRun) : Prop := Relation.ReflTransGen Moves initial run

end ShyguyRun

end BabyLuigi
