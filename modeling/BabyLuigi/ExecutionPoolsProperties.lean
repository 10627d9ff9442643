import BabyLuigi.ExecutionPools
import BabyLuigi.ExecutionerTerminationProperties

/-! All DAGs of one executioner at once: the bounds of the two pools, the mutex
around the tasks, the count of DAGs in flight, and what has run when the
executioner returns. -/

set_option autoImplicit false

namespace BabyLuigi.ShyExecutioner

variable {Name : Type}

section Waves

variable [DecidableEq Name] {payload : TaskRequestPayload Name} {maxTaskConcurrency : Nat}
  {running : Bool} {before after : Execution Name}

/-- What one step of the waves does to the log and to the tasks in progress. -/
theorem Step.log_cases (step : Step payload maxTaskConcurrency running before after) :
    (after.log = before.log ∧ before.inProgress = [] ∧ after.inProgress = []) ∨
    (∃ name runner, after.log = .started name runner :: before.log ∧
      after.inProgress = name :: before.inProgress) ∨
    ∃ name runner, after.log = .finished name runner :: before.log ∧
      name ∈ before.inProgress ∧ after.inProgress = before.inProgress.erase name := by
  cases step with
  | finished head _ => exact .inl ⟨rfl, by simp [Execution.inProgress, head], rfl⟩
  | cleared head _ _ => exact .inl ⟨rfl, by simp [Execution.inProgress, head], rfl⟩
  | reserveThrows head _ _ => exact .inl ⟨rfl, by simp [Execution.inProgress, head], rfl⟩
  | blocked head _ _ _ _ _ => exact .inl ⟨rfl, by simp [Execution.inProgress, head], rfl⟩
  | wave head _ _ _ _ _ _ => exact .inl ⟨rfl, by simp [Execution.inProgress, head], rfl⟩
  | @start spawned inProgress finished name runner phase _ _ =>
      exact .inr (.inl ⟨name, runner, rfl, by simp [Execution.inProgress, phase]⟩)
  | @finish spawned inProgress finished name runner phase member _ =>
      refine .inr (.inr ⟨name, runner, rfl, ?_, ?_⟩)
      · simpa [Execution.inProgress, phase] using member
      · simp [Execution.inProgress, phase]
  | join phase => exact .inl ⟨rfl, by simp [Execution.inProgress, phase], rfl⟩

theorem Step.inProgress_of_log_eq
    (step : Step payload maxTaskConcurrency running before after) (same : after.log = before.log) :
    before.inProgress = [] ∧ after.inProgress = [] := by
  rcases step.log_cases with ⟨_, none, stillNone⟩ | ⟨_, _, grown, _⟩ | ⟨_, _, grown, _, _⟩
  · exact ⟨none, stillNone⟩
  · exact absurd (grown.symm.trans same) (List.cons_ne_self _ _)
  · exact absurd (grown.symm.trans same) (List.cons_ne_self _ _)

theorem Step.inProgress_of_started {name : Name} {runner : Nat}
    (step : Step payload maxTaskConcurrency running before after)
    (log : after.log = .started name runner :: before.log) :
    after.inProgress = name :: before.inProgress := by
  rcases step.log_cases with ⟨same, _, _⟩ | ⟨_, _, grown, started⟩ | ⟨_, _, grown, _, _⟩
  · exact absurd (log.symm.trans same) (List.cons_ne_self _ _)
  · cases grown.symm.trans log
    exact started
  · cases grown.symm.trans log

theorem Step.inProgress_of_finished {name : Name} {runner : Nat}
    (step : Step payload maxTaskConcurrency running before after)
    (log : after.log = .finished name runner :: before.log) :
    name ∈ before.inProgress ∧ after.inProgress = before.inProgress.erase name := by
  rcases step.log_cases with ⟨same, _, _⟩ | ⟨_, _, grown, _⟩ | ⟨_, _, grown, member, finished⟩
  · exact absurd (log.symm.trans same) (List.cons_ne_self _ _)
  · cases grown.symm.trans log
  · cases grown.symm.trans log
    exact ⟨member, finished⟩

/-- The execution is one of the payload alone. -/
structure Follows (payload : TaskRequestPayload Name) (maxTaskConcurrency : Nat) (running : Bool)
    (execution : Execution Name) : Prop where
  reachable : Reachable payload maxTaskConcurrency execution
  whileRunning : running = true → ReachableRunning payload maxTaskConcurrency execution

theorem Follows.initial : Follows payload maxTaskConcurrency running (.initial payload) :=
  ⟨.refl, fun _ => .refl⟩

theorem Follows.step (follows : Follows payload maxTaskConcurrency running before)
    (step : Step payload maxTaskConcurrency running before after) :
    Follows payload maxTaskConcurrency running after := by
  refine ⟨follows.reachable.tail ⟨running, step⟩, ?_⟩
  intro isRunning
  subst isRunning
  exact (follows.whileRunning rfl).tail step

theorem Follows.stop (follows : Follows payload maxTaskConcurrency running before) :
    Follows payload maxTaskConcurrency false before :=
  ⟨follows.reachable, fun impossible => by cases impossible⟩

end Waves

/-! ### The invariant -/

variable [DecidableEq Name]

inductive DagJob.Valid (limits : Limits) (flag : Bool) : DagJob Name → Prop where
  | queued (request : Option (TaskRequestPayload Name)) : Valid limits flag (.queued request)
  | running {payload : TaskRequestPayload Name} {execution : Execution Name}
      {locked ran : List Name} :
      Follows payload limits.maxTaskConcurrency flag execution → (locked ++ ran).Nodup →
      (∀ name ∈ locked ++ ran, name ∈ execution.inProgress) →
      Valid limits flag (.running payload execution locked ran)
  | ended {payload : TaskRequestPayload Name} {execution : Execution Name} :
      Follows payload limits.maxTaskConcurrency flag execution → execution.phase.isOver = true →
      Valid limits flag (.ended payload execution)
  | dropped : Valid limits flag .dropped

theorem DagJob.Valid.stop {limits : Limits} {flag : Bool} {job : DagJob Name}
    (valid : job.Valid limits flag) : job.Valid limits false := by
  cases valid with
  | queued request => exact .queued request
  | running follows nodup inside => exact .running follows.stop nodup inside
  | ended follows isOver => exact .ended follows.stop isOver
  | dropped => exact .dropped

namespace ExecutionPools

variable {limits : Limits} {pools after : ExecutionPools Name}

/-- What holds in every reachable state. -/
structure Invariant (limits : Limits) (pools : ExecutionPools Name) : Prop where
  jobs : ∀ job ∈ pools.jobs, job.Valid limits pools.running
  dagThreads : pools.total DagJob.dagThreads ≤ poolThreads limits.maxDagConcurrency
  taskThreads : pools.total DagJob.taskThreads ≤ poolThreads limits.maxTaskConcurrency
  mutex : pools.total DagJob.locks + pools.serverInside.toNat = pools.mutexHeld.toNat
  inFlight : pools.inFlightDags = pools.total DagJob.counted
  drained : pools.phase = .draining ∨ pools.phase = .returned → pools.running = true →
    pools.total DagJob.counted = 0
  returned : pools.phase = .returned → ∀ job ∈ pools.jobs, job.isDone = true

theorem Invariant.initial (limits : Limits) (now : Int) :
    Invariant limits (initial now : ExecutionPools Name) where
  jobs := by simp [ExecutionPools.initial]
  dagThreads := Nat.zero_le _
  taskThreads := Nat.zero_le _
  mutex := rfl
  inFlight := rfl
  drained _ _ := rfl
  returned := by simp [ExecutionPools.initial]

omit [DecidableEq Name] in
theorem total_setJob {index : Nat} {before : DagJob Name} (weight : DagJob Name → Nat)
    (here : pools.jobs[index]? = some before) (job : DagJob Name) :
    (pools.setJob index job).total weight + weight before = pools.total weight + weight job :=
  Processes.sum_map_set weight here

/-- The loop moves to a phase in which the executioner has not left it. -/
theorem Invariant.setPhase (valid : Invariant limits pools) {phase : PoolPhase Name}
    (staysIn : phase ≠ .draining ∧ phase ≠ .returned) :
    Invariant limits { pools with phase := phase } :=
  { valid with
    drained := fun out => absurd out (not_or.mpr staysIn)
    returned := fun out => absurd out staysIn.2 }

/-- One job moves on; the hypotheses say what becomes of the threads, the mutex
and the count. -/
theorem Invariant.setJob (valid : Invariant limits pools) {index : Nat} {before job : DagJob Name}
    {held : Bool} {inFlight : Nat} (here : pools.jobs[index]? = some before)
    (undone : before.isDone = false) (moved : job.Valid limits pools.running)
    (dagThreads : pools.total DagJob.dagThreads + job.dagThreads ≤
      poolThreads limits.maxDagConcurrency + before.dagThreads)
    (taskThreads : pools.total DagJob.taskThreads + job.taskThreads ≤
      poolThreads limits.maxTaskConcurrency + before.taskThreads)
    (mutex : job.locks + pools.mutexHeld.toNat = before.locks + held.toNat)
    (counted : inFlight + before.counted = pools.inFlightDags + job.counted)
    (fewer : job.counted ≤ before.counted) :
    Invariant limits
      { pools.setJob index job with mutexHeld := held, inFlightDags := inFlight } where
  jobs := Processes.forall_mem_set valid.jobs moved
  dagThreads := by
    have total := total_setJob DagJob.dagThreads here job
    simp only [ExecutionPools.total, ExecutionPools.setJob] at total dagThreads ⊢
    omega
  taskThreads := by
    have total := total_setJob DagJob.taskThreads here job
    simp only [ExecutionPools.total, ExecutionPools.setJob] at total taskThreads ⊢
    omega
  mutex := by
    have total := total_setJob DagJob.locks here job
    have previous := valid.mutex
    simp only [ExecutionPools.total, ExecutionPools.setJob] at total previous ⊢
    omega
  inFlight := by
    have total := total_setJob DagJob.counted here job
    have previous := valid.inFlight
    simp only [ExecutionPools.total, ExecutionPools.setJob] at total previous ⊢
    omega
  drained := by
    intro out isRunning
    have total := total_setJob DagJob.counted here job
    have none := valid.drained out isRunning
    simp only [ExecutionPools.total, ExecutionPools.setJob] at total none ⊢
    omega
  returned out := by
    have done := valid.returned out before (List.mem_of_getElem? here)
    rw [undone] at done
    cases done

/-- A step of one DAG that leaves the mutex and the count alone. -/
theorem Invariant.moveDag (valid : Invariant limits pools) {index : Nat}
    {payload : TaskRequestPayload Name} {execution next : Execution Name}
    {locked ran stillRan : List Name}
    (here : pools.jobs[index]? = some (.running payload execution locked ran))
    (moved : (DagJob.running payload next locked stillRan).Valid limits pools.running)
    (taskThreads : pools.total DagJob.taskThreads + next.inProgress.length ≤
      poolThreads limits.maxTaskConcurrency + execution.inProgress.length) :
    Invariant limits (pools.setJob index (.running payload next locked stillRan)) :=
  valid.setJob here rfl moved (Nat.add_le_add_right valid.dagThreads 1) taskThreads rfl rfl le_rfl

theorem Invariant.valid_running (valid : Invariant limits pools) {index : Nat}
    {payload : TaskRequestPayload Name} {execution : Execution Name} {locked ran : List Name}
    (here : pools.jobs[index]? = some (.running payload execution locked ran)) :
    Follows payload limits.maxTaskConcurrency pools.running execution ∧ (locked ++ ran).Nodup ∧
      ∀ name ∈ locked ++ ran, name ∈ execution.inProgress := by
  cases valid.jobs _ (List.mem_of_getElem? here) with
  | running follows nodup inside => exact ⟨follows, nodup, inside⟩

theorem Invariant.dispatch (valid : Invariant limits pools)
    (request : Option (TaskRequestPayload Name)) :
    Invariant limits
      { pools with
        phase := .looping
        lastWork := pools.now
        inFlightDags := pools.inFlightDags + 1
        jobs := pools.jobs ++ [.queued request] } := by
  have grown : ∀ weight : DagJob Name → Nat,
      ((pools.jobs ++ [DagJob.queued request]).map weight).sum =
        pools.total weight + weight (.queued request) := by
    intro weight
    simp [ExecutionPools.total]
  refine ⟨?_, ?_, ?_, ?_, ?_, by simp, by simp⟩
  · intro job member
    rcases List.mem_append.mp member with old | new
    · exact valid.jobs job old
    · obtain rfl := List.mem_singleton.mp new
      exact .queued request
  · exact (grown _).trans_le valid.dagThreads
  · exact (grown _).trans_le valid.taskThreads
  · exact (congrArg (· + _) (grown _)).trans valid.mutex
  · exact (congrArg (· + 1) valid.inFlight).trans (grown _).symm

section Running

variable {index : Nat} {payload : TaskRequestPayload Name} {execution next : Execution Name}
  {locked ran : List Name} {name : Name}

theorem Invariant.lockTask (valid : Invariant limits pools)
    (here : pools.jobs[index]? = some (.running payload execution locked ran))
    (member : name ∈ execution.inProgress) (unlocked : name ∉ locked) (notRan : name ∉ ran)
    (free : pools.mutexHeld = false) :
    Invariant limits
      { pools.setJob index (.running payload execution (name :: locked) ran) with
        mutexHeld := true } := by
  obtain ⟨follows, nodup, inside⟩ := valid.valid_running here
  refine valid.setJob here rfl (.running follows ?_ ?_)
    (Nat.add_le_add_right valid.dagThreads 1) (Nat.add_le_add_right valid.taskThreads _)
    ?_ rfl le_rfl
  · refine List.nodup_cons.mpr ⟨?_, nodup⟩
    simp [unlocked, notRan]
  · exact List.forall_mem_cons.mpr ⟨member, inside⟩
  · rw [free]
    rfl

theorem Invariant.mutexHeld_of_mem (valid : Invariant limits pools)
    (here : pools.jobs[index]? = some (.running payload execution locked ran))
    (member : name ∈ locked) : pools.mutexHeld = true := by
  have some := Processes.le_sum_map DagJob.locks here
  have positive := List.length_pos_of_mem member
  have previous := valid.mutex
  by_contra free
  simp only [DagJob.locks, ExecutionPools.total, Bool.not_eq_true] at some previous free
  rw [free] at previous
  simp only [Bool.toNat_false] at previous
  omega

theorem Invariant.unlockTask (valid : Invariant limits pools)
    (here : pools.jobs[index]? = some (.running payload execution locked ran))
    (member : name ∈ locked) :
    Invariant limits
      { pools.setJob index (.running payload execution (locked.erase name) (name :: ran)) with
        mutexHeld := false } := by
  obtain ⟨follows, nodup, inside⟩ := valid.valid_running here
  have regrouped : (locked.erase name ++ name :: ran).Perm (locked ++ ran) :=
    List.perm_middle.trans ((List.perm_cons_erase member).symm.append_right ran)
  refine valid.setJob here rfl (.running follows (regrouped.nodup_iff.mpr nodup) ?_)
    (Nat.add_le_add_right valid.dagThreads 1) (Nat.add_le_add_right valid.taskThreads _)
    ?_ rfl le_rfl
  · intro other moved
    exact inside other (regrouped.mem_iff.mp moved)
  · have shorter := List.length_erase_add_one member
    simp only [DagJob.locks, valid.mutexHeld_of_mem here member, Bool.toNat_true, Bool.toNat_false]
    omega

/-- The task that finishes is in progress no more and was in neither list twice. -/
theorem Invariant.finishTask (valid : Invariant limits pools) {runner : Nat}
    (here : pools.jobs[index]? = some (.running payload execution locked ran))
    (member : name ∈ ran)
    (moved : ShyExecutioner.Step payload limits.maxTaskConcurrency pools.running execution next)
    (log : next.log = .finished name runner :: execution.log) :
    Invariant limits (pools.setJob index (.running payload next locked (ran.erase name))) := by
  obtain ⟨follows, nodup, inside⟩ := valid.valid_running here
  obtain ⟨held, finished⟩ := moved.inProgress_of_finished log
  refine valid.moveDag here (.running (follows.step moved) ?_ ?_) ?_
  · exact nodup.sublist (List.Sublist.append_left List.erase_sublist locked)
  · intro other kept
    rw [finished]
    refine (List.mem_erase_of_ne ?_).mpr
      (inside other ((List.Sublist.append_left List.erase_sublist locked).mem kept))
    rintro rfl
    rcases List.mem_append.mp kept with isLocked | isRan
    · exact List.disjoint_of_nodup_append nodup isLocked member
    · exact (nodup.of_append_right.mem_erase_iff.mp isRan).1 rfl
  · have shorter := List.length_erase_add_one held
    have within := valid.taskThreads
    rw [finished]
    omega

/-- A DAG whose loop is over has no task in progress, so that none holds the mutex. -/
theorem Invariant.finish (valid : Invariant limits pools)
    (here : pools.jobs[index]? = some (.running payload execution locked ran))
    (isOver : execution.phase.isOver = true) :
    Invariant limits
      { pools.setJob index (.ended payload execution) with
        inFlightDags := pools.inFlightDags - 1 } := by
  obtain ⟨follows, nodup, inside⟩ := valid.valid_running here
  have none := Execution.inProgress_of_isOver isOver
  have noLock : locked = [] := by
    refine List.eq_nil_iff_forall_not_mem.mpr fun name member => ?_
    have impossible := inside name (List.mem_append_left _ member)
    rw [none] at impossible
    cases impossible
  have some := Processes.le_sum_map DagJob.counted here
  have counted := valid.inFlight
  refine valid.setJob here rfl (.ended follows isOver)
    (valid.dagThreads.trans (Nat.le_add_right _ _))
    (valid.taskThreads.trans (Nat.le_add_right _ _)) ?_ ?_ (Nat.zero_le _)
  · rw [noLock]
    rfl
  · simp only [DagJob.counted, ExecutionPools.total] at some counted ⊢
    omega

end Running

theorem Invariant.step (valid : Invariant limits pools) (step : Step limits pools after) :
    Invariant limits after := by
  cases step with
  | loadTrue _ _ => exact valid.setPhase (by simp)
  | loadFalse _ cleared =>
      refine { valid with drained := ?_, returned := by simp }
      intro _ isRunning
      cases cleared.symm.trans isRunning
  | receive _ _ => exact valid.setPhase (by simp)
  | timeOut _ => exact valid.setPhase (by simp)
  | idle _ none _ =>
      exact { valid with
        drained := fun _ _ => valid.inFlight.symm.trans none
        returned := by simp }
  | busy _ _ => exact valid.setPhase (by simp)
  | dispatch _ => exact valid.dispatch _
  | begin _ here room =>
      exact valid.setJob here rfl (.running .initial List.nodup_nil (by simp)) room
        valid.taskThreads rfl rfl le_rfl
  | drop _ here _ =>
      exact valid.setJob here rfl .dropped valid.dagThreads valid.taskThreads rfl rfl le_rfl
  | wave _ here moved same =>
      obtain ⟨follows, nodup, inside⟩ := valid.valid_running here
      obtain ⟨none, stillNone⟩ := moved.inProgress_of_log_eq same
      refine valid.moveDag here (.running (follows.step moved) nodup ?_) ?_
      · rwa [stillNone, ← none]
      · rw [none, stillNone]
        exact valid.taskThreads
  | @startTask index payload execution next locked ran name runner here moved log room =>
      obtain ⟨follows, nodup, inside⟩ := valid.valid_running here
      have started := moved.inProgress_of_started log
      refine valid.moveDag here (.running (follows.step moved) nodup ?_) ?_
      · intro other member
        rw [started]
        exact List.mem_cons_of_mem name (inside other member)
      · rw [started, List.length_cons]
        omega
  | lockTask _ here member unlocked notRan free =>
      exact valid.lockTask here member unlocked notRan free
  | unlockTask _ here member => exact valid.unlockTask here member
  | finishTask _ here member moved log => exact valid.finishTask here member moved log
  | finish _ here isOver => exact valid.finish here isOver
  | leave draining done =>
      exact { valid with
        drained := fun _ => valid.drained (.inl draining)
        returned := fun _ => done }

theorem Invariant.environment (valid : Invariant limits pools)
    (step : Environment pools after) : Invariant limits after := by
  cases step with
  | stop =>
      exact { valid with
        jobs := fun job member => (valid.jobs job member).stop
        drained := by simp }
  | tick later _ => exact { valid with }
  | serverLock free =>
      refine { valid with mutex := ?_ }
      have previous := valid.mutex
      rw [free] at previous
      simp only [ExecutionPools.total, Bool.toNat_false, Bool.toNat_true] at previous ⊢
      omega
  | serverUnlock inside =>
      refine { valid with mutex := ?_ }
      have previous := valid.mutex
      rw [inside] at previous
      have atMost := Bool.toNat_le pools.mutexHeld
      simp only [ExecutionPools.total, Bool.toNat_false, Bool.toNat_true] at previous ⊢
      omega

theorem Invariant.moves (valid : Invariant limits pools) (moves : Moves limits pools after) :
    Invariant limits after := by
  rcases moves with step | step
  · exact valid.step step
  · exact valid.environment step

theorem Reachable.invariant {now : Int} (reachable : Reachable limits now pools) :
    Invariant limits pools :=
  Transition.invariant_of_reflTransGen (fun _ _ valid moves => valid.moves moves)
    (.initial limits now) reachable

theorem Reachable.step {now : Int} (reachable : Reachable limits now pools)
    (step : Step limits pools after) : Reachable limits now after :=
  reachable.tail (.inl step)

theorem Reachable.environment {now : Int} (reachable : Reachable limits now pools)
    (step : Environment pools after) : Reachable limits now after :=
  reachable.tail (.inr step)

/-! ### Safety -/

omit [DecidableEq Name] in
theorem total_locks_le_one (mutex : pools.total DagJob.locks + pools.serverInside.toNat =
    pools.mutexHeld.toNat) : pools.total DagJob.locks + pools.serverInside.toNat ≤ 1 :=
  mutex.trans_le (Bool.toNat_le _)

/-- The task of this job has locked the mutex and has yet to release it. -/
def HoldsMutex (pools : ExecutionPools Name) (index : Nat) (name : Name) : Prop :=
  ∃ payload execution locked ran,
    pools.jobs[index]? = some (.running payload execution locked ran) ∧ name ∈ locked

/-- Two tasks that hold the mutex are the same task. -/
theorem Invariant.same_holder (valid : Invariant limits pools) {index other : Nat}
    {name otherName : Name} (holds : HoldsMutex pools index name)
    (otherHolds : HoldsMutex pools other otherName) : index = other ∧ name = otherName := by
  obtain ⟨payload, execution, locked, ran, here, member⟩ := holds
  obtain ⟨_, _, otherLocked, _, there, otherMember⟩ := otherHolds
  have atMost := total_locks_le_one valid.mutex
  by_cases same : index = other
  · subst other
    cases here.symm.trans there
    refine ⟨rfl, ?_⟩
    have some := Processes.le_sum_map DagJob.locks here
    simp only [DagJob.locks, ExecutionPools.total] at some atMost
    obtain ⟨only, rfl⟩ := List.length_eq_one_iff.mp
      (Nat.le_antisymm (by omega) (List.length_pos_of_mem member))
    exact (List.mem_singleton.mp member).trans (List.mem_singleton.mp otherMember).symm
  · have both := Processes.add_le_sum_map DagJob.locks here there same
    have positive := List.length_pos_of_mem member
    have otherPositive := List.length_pos_of_mem otherMember
    simp only [DagJob.locks, ExecutionPools.total] at both atMost
    omega

theorem Invariant.server_outside (valid : Invariant limits pools) {index : Nat} {name : Name}
    (holds : HoldsMutex pools index name) : pools.serverInside = false := by
  obtain ⟨payload, execution, locked, ran, here, member⟩ := holds
  have atMost := total_locks_le_one valid.mutex
  have some := Processes.le_sum_map DagJob.locks here
  have positive := List.length_pos_of_mem member
  simp only [DagJob.locks, ExecutionPools.total] at some atMost
  by_contra inside
  rw [Bool.not_eq_false] at inside
  rw [inside, Bool.toNat_true] at atMost
  omega

/-- In every state of every run, whatever is dequeued and whatever the server
does: the DAGs that run and the tasks in progress over all of them fit their
pools, each DAG runs as it would alone, one task at most holds the mutex, and
the server is outside its critical sections while one does. -/
theorem pools_safe {now : Int} (reachable : Reachable limits now pools) :
    pools.total DagJob.dagThreads ≤ poolThreads limits.maxDagConcurrency ∧
    pools.total DagJob.taskThreads ≤ poolThreads limits.maxTaskConcurrency ∧
    (∀ payload execution locked ran, DagJob.running payload execution locked ran ∈ pools.jobs →
      ShyExecutioner.Reachable payload limits.maxTaskConcurrency execution ∧
      ∀ name ∈ locked, name ∈ execution.inProgress) ∧
    ∀ index name, HoldsMutex pools index name → pools.serverInside = false ∧
      ∀ other otherName, HoldsMutex pools other otherName → index = other ∧ name = otherName := by
  have valid := reachable.invariant
  refine ⟨valid.dagThreads, valid.taskThreads, ?_, ?_⟩
  · intro payload execution locked ran member
    obtain ⟨index, here⟩ := List.mem_iff_getElem?.mp member
    obtain ⟨follows, _, inside⟩ := valid.valid_running here
    exact ⟨follows.reachable, fun name held => inside name (List.mem_append_left _ held)⟩
  · intro index name holds
    exact ⟨valid.server_outside holds, fun _ _ otherHolds => valid.same_holder holds otherHolds⟩

def oneAtATime : Limits where
  idleTimeout := 10
  maxDagConcurrency := 1
  maxTaskConcurrency := 1

def extractPayload : TaskRequestPayload Str where
  taskRunners := [⟨ascii "extract", []⟩]
  dag := {
    rootName := ascii "etl"
    adjacencyList := (∅ : AdjacencyList Str).insert (ascii "extract") [] }

/-- The first task of a DAG runs under the mutex. -/
theorem pools_safe_extract : ∃ pools : ExecutionPools Str, Reachable oneAtATime 0 pools ∧
    HoldsMutex pools 0 (ascii "extract") ∧ pools.serverInside = false := by
  have run : ∃ pools : ExecutionPools Str, Reachable oneAtATime 0 pools ∧
      HoldsMutex pools 0 (ascii "extract") := by
    have order : IterationOrder [ascii "extract"] (Execution.initial extractPayload).pending :=
      ⟨by decide, by decide⟩
    have ready : ascii "extract" ∈ [ascii "extract"] := List.mem_cons_self
    refine ⟨_, .step (.step (.step (.step (.step (.step (.step .refl
      (.loadTrue rfl rfl))
      (.receive (some extractPayload) rfl))
      (.dispatch rfl))
      (.begin 0 rfl (by decide)))
      (.wave 0 rfl (.wave rfl (by decide) rfl (by decide) order rfl (by decide)) rfl))
      (.startTask 0 rfl (.start rfl ready rfl) rfl (by decide)))
      (.lockTask 0 rfl ready (by simp) (by simp) rfl), ?_⟩
    exact ⟨_, _, _, _, rfl, ready⟩
  obtain ⟨pools, reachable, holds⟩ := run
  exact ⟨pools, reachable, holds, ((pools_safe reachable).2.2.2 0 _ holds).1⟩

/-! ### What has run -/

omit [DecidableEq Name] in
theorem total_counted_eq_zero (none : pools.total DagJob.counted = 0) {job : DagJob Name}
    (member : job ∈ pools.jobs) : ∃ payload execution, job = .ended payload execution := by
  obtain ⟨index, here⟩ := List.mem_iff_getElem?.mp member
  have some := Processes.le_sum_map DagJob.counted here
  rw [ExecutionPools.total] at none
  cases job with
  | ended payload execution => exact ⟨payload, execution, rfl⟩
  | _ => simp [DagJob.counted, none] at some

omit [DecidableEq Name] in
theorem requests_setJob {index : Nat} {before job : DagJob Name}
    (here : pools.jobs[index]? = some before) (same : job.request = before.request) :
    (pools.setJob index job).jobs.map DagJob.request = pools.jobs.map DagJob.request := by
  obtain ⟨within, at_index⟩ := List.getElem?_eq_some_iff.mp here
  apply List.ext_getElem
  · simp [ExecutionPools.setJob]
  · intro position _ _
    simp only [ExecutionPools.setJob, List.getElem_map, List.getElem_set]
    split
    · subst position
      rw [same, at_index]
    · rfl

/-- A step hands over the request just received, or none; no job loses its
request. -/
theorem Step.requests (step : Step limits pools after) :
    after.jobs.map DagJob.request = pools.jobs.map DagJob.request ∨
    ∃ request, pools.phase = .received request ∧
      after.jobs.map DagJob.request = pools.jobs.map DagJob.request ++ [request] := by
  cases step with
  | @dispatch request received => exact .inr ⟨request, received, by simp [DagJob.request]⟩
  | begin _ here _ => exact .inl (requests_setJob here rfl)
  | drop _ here _ => exact .inl (requests_setJob here rfl)
  | wave _ here _ _ => exact .inl (requests_setJob here rfl)
  | startTask _ here _ _ _ => exact .inl (requests_setJob here rfl)
  | lockTask _ here _ _ _ _ => exact .inl (requests_setJob here rfl)
  | unlockTask _ here _ => exact .inl (requests_setJob here rfl)
  | finishTask _ here _ _ _ => exact .inl (requests_setJob here rfl)
  | finish _ here _ => exact .inl (requests_setJob here rfl)
  | _ => exact .inl rfl

theorem prefix_requests (run : Relation.ReflTransGen (Moves limits) pools after) :
    pools.jobs.map DagJob.request <+: after.jobs.map DagJob.request := by
  induction run with
  | refl => exact List.prefix_rfl
  | tail _ moves ih =>
      refine ih.trans ?_
      rcases moves with step | step
      · rcases step.requests with same | ⟨request, _, grown⟩
        · rw [same]
        · rw [grown]
          exact List.prefix_append _ _
      · cases step with
        | _ => exact List.prefix_rfl

/-- When the executioner returns, every request handed to it at any time is done
with, and whatever a DAG has run includes the dependencies. If the flag is still
set, no DAG is in flight and each but those that a `reserve` has thrown in has
run the least set that its readiness test closes off, whatever ran beside it. -/
theorem pools_return {now : Int} (reachable : Reachable limits now pools)
    (run : Relation.ReflTransGen (Moves limits) pools after) (out : after.phase = .returned) :
    pools.jobs.map DagJob.request <+: after.jobs.map DagJob.request ∧
    (∀ job ∈ after.jobs, job.isDone = true) ∧
    (∀ payload execution, DagJob.ended payload execution ∈ after.jobs →
      ∀ name ∈ finishedNames execution.log, ∀ dependency,
        payload.dag.table.Depends name dependency → dependency ∈ finishedNames execution.log) ∧
    (after.running = true → after.inFlightDags = 0 ∧
      ∀ job ∈ after.jobs, ∃ payload execution, job = .ended payload execution ∧
        (execution.phase = .threw ∨
          IsLeast {done | payload.dag.table.Saturated (runnerNames payload) done}
            {name | name ∈ finishedNames execution.log})) := by
  have valid : Invariant limits after := Reachable.invariant (reachable.trans run)
  refine ⟨prefix_requests run, valid.returned out, ?_, ?_⟩
  · intro payload execution member name finished dependency edge
    cases valid.jobs _ member with
    | ended follows isOver =>
        have safe := follows.reachable.invariant
        have same : ∀ other, other ∈ finishedNames execution.log ↔ other ∈ execution.completed := by
          intro other
          simpa [isOver] using safe.finished other
        rw [same] at finished ⊢
        exact safe.closed name finished dependency edge
  · intro isRunning
    have none := valid.drained (.inr out) isRunning
    refine ⟨valid.inFlight.trans none, ?_⟩
    intro job member
    obtain ⟨payload, execution, rfl⟩ := total_counted_eq_zero none member
    cases valid.jobs _ member with
    | ended follows isOver =>
        refine ⟨payload, execution, rfl, ?_⟩
        rcases Phase.isOver_iff.mp isOver with stopped | threw
        · exact .inr ((follows.whileRunning isRunning).isLeast_finished stopped)
        · exact .inl threw

/-- One request runs to its end, and the executioner goes idle. -/
theorem pools_return_extract : ∃ pools : ExecutionPools Str, Reachable oneAtATime 0 pools ∧
    pools.phase = .returned ∧ pools.running = true ∧
    pools.jobs.map DagJob.request = [some extractPayload] ∧ pools.inFlightDags = 0 := by
  have run : ∃ pools : ExecutionPools Str, Reachable oneAtATime 0 pools ∧
      pools.phase = .returned ∧ pools.running = true ∧
      pools.jobs.map DagJob.request = [some extractPayload] := by
    have order : IterationOrder [ascii "extract"] (Execution.initial extractPayload).pending :=
      ⟨by decide, by decide⟩
    have ready : ascii "extract" ∈ [ascii "extract"] := List.mem_cons_self
    refine ⟨_, .step (.step (.environment (.step (.step (.step (.step (.step (.step (.step (.step
      (.step (.step (.step (.step (.step (.step .refl
      (.loadTrue rfl rfl))
      (.receive (some extractPayload) rfl))
      (.dispatch rfl))
      (.begin 0 rfl (by decide)))
      (.wave 0 rfl (.wave rfl (by decide) rfl (by decide) order rfl (by decide)) rfl))
      (.startTask 0 rfl (.start rfl ready rfl) rfl (by decide)))
      (.lockTask 0 rfl ready (by simp) (by simp) rfl))
      (.unlockTask 0 rfl ready))
      (.finishTask 0 rfl ready (.finish rfl ready rfl) rfl))
      (.wave 0 rfl (.join rfl) rfl))
      (.wave 0 rfl (.finished rfl (by decide)) rfl))
      (.finish 0 rfl rfl))
      (.loadTrue rfl rfl))
      (.timeOut rfl))
      (.tick 10 (by decide)))
      (.idle rfl rfl (by decide)))
      (.leave rfl (by simp [setJob, initial, DagJob.isDone])), rfl, rfl, rfl⟩
  obtain ⟨pools, reachable, out, isRunning, requests⟩ := run
  exact ⟨pools, reachable, out, isRunning, requests,
    ((pools_return reachable .refl out).2.2.2 isRunning).1⟩

end ExecutionPools

end BabyLuigi.ShyExecutioner
