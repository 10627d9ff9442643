import BabyLuigi.Executioner
import BabyLuigi.Support.Processes

/-!
# Execution pools

One run of `run_until_idle` with all its DAGs at once: the dequeue loop, the
DAGs it hands to one thread pool, and the waves that share another. The tasks
run under the server's mutex, which other threads take as well.
-/

set_option autoImplicit false

namespace BabyLuigi.ShyExecutioner

variable {Name : Type}

/-- The arguments of `run_until_idle`. -/
structure Limits where
  idleTimeout : Int
  maxDagConcurrency : Nat
  maxTaskConcurrency : Nat

/-- The size of a pool, cast to 32 bits. -/
def poolThreads (limit : Nat) : Nat := max 1 limit % 2 ^ 32

inductive PoolPhase (Name : Type) where
  | looping
  | dequeuing
  | received (request : Option (TaskRequestPayload Name))
  | timedOut
  | draining
  | returned

/-- One request handed to the DAG pool. Among the tasks in progress, those in
`locked` hold the mutex and those in `ran` have released it. -/
inductive DagJob (Name : Type) where
  | queued (request : Option (TaskRequestPayload Name))
  | running (payload : TaskRequestPayload Name) (execution : Execution Name)
      (locked ran : List Name)
  | ended (payload : TaskRequestPayload Name) (execution : Execution Name)
  | dropped

namespace DagJob

/-- The threads of the DAG pool that the job occupies. -/
def dagThreads : DagJob Name → Nat
  | .running _ _ _ _ => 1
  | _ => 0

/-- The threads of the task pool that the job occupies. -/
def taskThreads : DagJob Name → Nat
  | .running _ execution _ _ => execution.inProgress.length
  | _ => 0

/-- The tasks of the job that hold the mutex. -/
def locks : DagJob Name → Nat
  | .running _ _ locked _ => locked.length
  | _ => 0

/-- Whether the job has yet to lower the count of DAGs in flight; a null request
returns before it does. -/
def counted : DagJob Name → Nat
  | .ended _ _ => 0
  | _ => 1

def isDone : DagJob Name → Bool
  | .ended _ _ | .dropped => true
  | _ => false

/-- What the job was handed to run. -/
def request : DagJob Name → Option (TaskRequestPayload Name)
  | .queued request => request
  | .running payload _ _ _ => some payload
  | .ended payload _ => some payload
  | .dropped => none

end DagJob

/-- `serverInside` tells whether another thread is in one of the server's
critical sections. -/
structure ExecutionPools (Name : Type) where
  running : Bool
  now : Int
  phase : PoolPhase Name
  lastWork : Int
  inFlightDags : Nat
  jobs : List (DagJob Name)
  mutexHeld : Bool
  serverInside : Bool

namespace ExecutionPools

def initial (now : Int) : ExecutionPools Name where
  running := true
  now := now
  phase := .looping
  lastWork := now
  inFlightDags := 0
  jobs := []
  mutexHeld := false
  serverInside := false

def total (pools : ExecutionPools Name) (weight : DagJob Name → Nat) : Nat :=
  (pools.jobs.map weight).sum

def setJob (pools : ExecutionPools Name) (index : Nat) (job : DagJob Name) :
    ExecutionPools Name :=
  { pools with jobs := pools.jobs.set index job }

variable [DecidableEq Name]

/-- One step of the executioner: of its loop, of the loop over one DAG or of a
task. A step of a DAG is one of the dependency waves; its log tells whether it
starts or finishes a task. -/
inductive Step (limits : Limits) (pools : ExecutionPools Name) : ExecutionPools Name → Prop where
  | loadTrue :
      pools.phase = .looping → pools.running = true →
      Step limits pools { pools with phase := .dequeuing }
  | loadFalse :
      pools.phase = .looping → pools.running = false →
      Step limits pools { pools with phase := .draining }
  | receive (request : Option (TaskRequestPayload Name)) :
      pools.phase = .dequeuing → Step limits pools { pools with phase := .received request }
  | timeOut :
      pools.phase = .dequeuing → Step limits pools { pools with phase := .timedOut }
  | idle :
      pools.phase = .timedOut → pools.inFlightDags = 0 →
      limits.idleTimeout ≤ pools.now - pools.lastWork →
      Step limits pools { pools with phase := .draining }
  | busy :
      pools.phase = .timedOut →
      ¬ (pools.inFlightDags = 0 ∧ limits.idleTimeout ≤ pools.now - pools.lastWork) →
      Step limits pools { pools with phase := .looping }
  | dispatch {request : Option (TaskRequestPayload Name)} :
      pools.phase = .received request →
      Step limits pools
        { pools with
          phase := .looping
          lastWork := pools.now
          inFlightDags := pools.inFlightDags + 1
          jobs := pools.jobs ++ [.queued request] }
  | begin (index : Nat) {payload : TaskRequestPayload Name} :
      pools.jobs[index]? = some (.queued (some payload)) →
      pools.total DagJob.dagThreads < poolThreads limits.maxDagConcurrency →
      Step limits pools (pools.setJob index (.running payload (.initial payload) [] []))
  | drop (index : Nat) :
      pools.jobs[index]? = some (.queued none) →
      pools.total DagJob.dagThreads < poolThreads limits.maxDagConcurrency →
      Step limits pools (pools.setJob index .dropped)
  | wave (index : Nat) {payload : TaskRequestPayload Name} {execution next : Execution Name}
      {locked ran : List Name} :
      pools.jobs[index]? = some (.running payload execution locked ran) →
      ShyExecutioner.Step payload limits.maxTaskConcurrency pools.running execution next →
      next.log = execution.log →
      Step limits pools (pools.setJob index (.running payload next locked ran))
  | startTask (index : Nat) {payload : TaskRequestPayload Name} {execution next : Execution Name}
      {locked ran : List Name} {name : Name} {runner : Nat} :
      pools.jobs[index]? = some (.running payload execution locked ran) →
      ShyExecutioner.Step payload limits.maxTaskConcurrency pools.running execution next →
      next.log = .started name runner :: execution.log →
      pools.total DagJob.taskThreads < poolThreads limits.maxTaskConcurrency →
      Step limits pools (pools.setJob index (.running payload next locked ran))
  | lockTask (index : Nat) {payload : TaskRequestPayload Name} {execution : Execution Name}
      {locked ran : List Name} {name : Name} :
      pools.jobs[index]? = some (.running payload execution locked ran) →
      name ∈ execution.inProgress → name ∉ locked → name ∉ ran → pools.mutexHeld = false →
      Step limits pools
        { pools.setJob index (.running payload execution (name :: locked) ran) with
          mutexHeld := true }
  | unlockTask (index : Nat) {payload : TaskRequestPayload Name} {execution : Execution Name}
      {locked ran : List Name} {name : Name} :
      pools.jobs[index]? = some (.running payload execution locked ran) → name ∈ locked →
      Step limits pools
        { pools.setJob index (.running payload execution (locked.erase name) (name :: ran)) with
          mutexHeld := false }
  | finishTask (index : Nat) {payload : TaskRequestPayload Name} {execution next : Execution Name}
      {locked ran : List Name} {name : Name} {runner : Nat} :
      pools.jobs[index]? = some (.running payload execution locked ran) → name ∈ ran →
      ShyExecutioner.Step payload limits.maxTaskConcurrency pools.running execution next →
      next.log = .finished name runner :: execution.log →
      Step limits pools (pools.setJob index (.running payload next locked (ran.erase name)))
  | finish (index : Nat) {payload : TaskRequestPayload Name} {execution : Execution Name}
      {locked ran : List Name} :
      pools.jobs[index]? = some (.running payload execution locked ran) →
      execution.phase.isOver = true →
      Step limits pools
        { pools.setJob index (.ended payload execution) with
          inFlightDags := pools.inFlightDags - 1 }
  | leave :
      pools.phase = .draining → (∀ job ∈ pools.jobs, job.isDone = true) →
      Step limits pools { pools with phase := .returned }

/-- What happens outside the executioner. -/
inductive Environment (pools : ExecutionPools Name) : ExecutionPools Name → Prop where
  | stop : Environment pools { pools with running := false }
  | tick (later : Int) : pools.now ≤ later → Environment pools { pools with now := later }
  | serverLock :
      pools.mutexHeld = false →
      Environment pools { pools with mutexHeld := true, serverInside := true }
  | serverUnlock :
      pools.serverInside = true →
      Environment pools { pools with mutexHeld := false, serverInside := false }

def Moves (limits : Limits) (before after : ExecutionPools Name) : Prop :=
  Step limits before after ∨ Environment before after

def Reachable (limits : Limits) (now : Int) (pools : ExecutionPools Name) : Prop :=
  Relation.ReflTransGen (Moves limits) (initial now) pools

end ExecutionPools

end BabyLuigi.ShyExecutioner
