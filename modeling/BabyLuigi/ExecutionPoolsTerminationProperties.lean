import BabyLuigi.ExecutionPoolsProperties

/-! Once the dequeue loop is left, the DAGs in flight cannot block each other:
the executioner goes on until it returns. -/

set_option autoImplicit false

namespace BabyLuigi.ShyExecutioner

variable {Name : Type} [DecidableEq Name]

/-! ### The waves of one DAG -/

section Waves

variable {payload : TaskRequestPayload Name} {maxTaskConcurrency : Nat} {state : Execution Name}

theorem Invariant.exists_finish (valid : Invariant payload maxTaskConcurrency state)
    (running : Bool) {name : Name} (member : name ∈ state.inProgress) :
    ∃ after runner, Step payload maxTaskConcurrency running state after ∧
      after.log = .finished name runner :: state.log := by
  obtain ⟨spawned, inProgress, finished, phase, same⟩ := Execution.exists_wave_of_mem_inProgress member
  have wave := valid.wave spawned inProgress finished phase
  rw [same] at member
  obtain ⟨runner, found⟩ := exists_lookup_byName valid
    (wave.pending name (List.mem_append_right _ (List.mem_append_left _ member)))
  exact ⟨_, runner, .finish phase member found, rfl⟩

end Waves

/-! ### The measure -/

/-- An upper bound on the steps left for one job: each task in progress has yet
to lock and to unlock the mutex. -/
def DagJob.remaining : DagJob Name → Nat
  | .queued none => 1
  | .queued (some payload) => 3 * remainingSteps (.initial payload) + 2
  | .running _ execution locked ran =>
    3 * remainingSteps execution +
      (2 * execution.inProgress.length - (locked.length + 2 * ran.length)) + 1
  | .ended _ _ => 0
  | .dropped => 0

def PoolPhase.remaining : PoolPhase Name → Nat
  | .returned => 0
  | _ => 1

namespace ExecutionPools

variable {limits : Limits} {pools after : ExecutionPools Name}

def remaining (pools : ExecutionPools Name) : Nat :=
  pools.total DagJob.remaining + pools.phase.remaining

/-- The executioner has left its dequeue loop. -/
def OutOfLoop (pools : ExecutionPools Name) : Prop :=
  pools.phase = .draining ∨ pools.phase = .returned

theorem remaining_setJob {index : Nat} {before job : DagJob Name} {held : Bool} {inFlight : Nat}
    (here : pools.jobs[index]? = some before) (fewer : job.remaining < before.remaining) :
    remaining { pools.setJob index job with mutexHeld := held, inFlightDags := inFlight } <
      pools.remaining := by
  have total := total_setJob DagJob.remaining here job
  simp only [remaining, ExecutionPools.total, ExecutionPools.setJob] at total ⊢
  omega

/-- The tasks past the lock are tasks in progress. -/
theorem Invariant.length_le (valid : Invariant limits pools) {index : Nat}
    {payload : TaskRequestPayload Name} {execution : Execution Name} {locked ran : List Name}
    (here : pools.jobs[index]? = some (.running payload execution locked ran)) :
    locked.length + ran.length ≤ execution.inProgress.length := by
  obtain ⟨_, nodup, inside⟩ := valid.valid_running here
  rw [← List.length_append]
  exact (List.subperm_of_subset nodup inside).length_le

theorem Invariant.remaining_lt (valid : Invariant limits pools) (out : OutOfLoop pools)
    (step : Step limits pools after) : after.remaining < pools.remaining := by
  have notIn : ∀ {phase : PoolPhase Name}, pools.phase = phase →
      phase ≠ .draining → phase ≠ .returned → after.remaining < pools.remaining := by
    intro phase here notDraining notReturned
    rcases out with draining | returned
    · exact absurd (here.symm.trans draining) notDraining
    · exact absurd (here.symm.trans returned) notReturned
  cases step with
  | loadTrue here _ => exact notIn here (by simp) (by simp)
  | loadFalse here _ => exact notIn here (by simp) (by simp)
  | receive _ here => exact notIn here (by simp) (by simp)
  | timeOut here => exact notIn here (by simp) (by simp)
  | idle here _ _ => exact notIn here (by simp) (by simp)
  | busy here _ => exact notIn here (by simp) (by simp)
  | dispatch here => exact notIn here (by simp) (by simp)
  | begin _ here _ =>
      refine remaining_setJob here ?_
      simp [DagJob.remaining, Execution.initial, Execution.inProgress]
  | drop _ here _ => exact remaining_setJob here Nat.one_pos
  | @wave index payload execution next locked ran here moved same =>
      obtain ⟨follows, _, _⟩ := valid.valid_running here
      obtain ⟨none, stillNone⟩ := moved.inProgress_of_log_eq same
      have lower := follows.reachable.invariant.remainingSteps_lt moved
      refine remaining_setJob here ?_
      simp only [DagJob.remaining, none, stillNone]
      omega
  | @startTask index payload execution next locked ran name runner here moved log _ =>
      obtain ⟨follows, _, _⟩ := valid.valid_running here
      have started := moved.inProgress_of_started log
      have lower := follows.reachable.invariant.remainingSteps_lt moved
      refine remaining_setJob here ?_
      simp only [DagJob.remaining, started, List.length_cons]
      omega
  | @lockTask index payload execution locked ran name here member unlocked notRan _ =>
      obtain ⟨_, nodup, inside⟩ := valid.valid_running here
      have distinct : (name :: (locked ++ ran)).Nodup :=
        List.nodup_cons.mpr ⟨by simp [unlocked, notRan], nodup⟩
      have room := (List.subperm_of_subset distinct
        (List.forall_mem_cons.mpr ⟨member, inside⟩)).length_le
      refine remaining_setJob here ?_
      simp only [List.length_cons, List.length_append] at room
      simp only [DagJob.remaining, List.length_cons]
      omega
  | @unlockTask index payload execution locked ran name here member =>
      have within := valid.length_le here
      have shorter := List.length_erase_add_one member
      refine remaining_setJob here ?_
      simp only [DagJob.remaining, List.length_cons]
      omega
  | @finishTask index payload execution next locked ran name runner here member moved log =>
      obtain ⟨follows, _, _⟩ := valid.valid_running here
      obtain ⟨held, finished⟩ := moved.inProgress_of_finished log
      have lower := follows.reachable.invariant.remainingSteps_lt moved
      have within := valid.length_le here
      have shorter := List.length_erase_add_one member
      have fewer := List.length_erase_add_one held
      refine remaining_setJob here ?_
      simp only [DagJob.remaining, finished]
      omega
  | finish _ here _ => exact remaining_setJob here (Nat.succ_pos _)
  | leave draining _ =>
      simp only [remaining, ExecutionPools.total, draining, PoolPhase.remaining]
      omega

theorem Step.outOfLoop (step : Step limits pools after) (out : OutOfLoop pools) :
    OutOfLoop after := by
  have stays : ∀ {phase : PoolPhase Name}, pools.phase = phase →
      phase ≠ .draining → phase ≠ .returned → OutOfLoop after := by
    intro phase here notDraining notReturned
    rcases out with draining | returned
    · exact absurd (here.symm.trans draining) notDraining
    · exact absurd (here.symm.trans returned) notReturned
  cases step with
  | loadTrue here _ => exact stays here (by simp) (by simp)
  | loadFalse here _ => exact stays here (by simp) (by simp)
  | receive _ here => exact stays here (by simp) (by simp)
  | timeOut here => exact stays here (by simp) (by simp)
  | idle here _ _ => exact stays here (by simp) (by simp)
  | busy here _ => exact stays here (by simp) (by simp)
  | dispatch here => exact stays here (by simp) (by simp)
  | leave _ _ => exact .inr rfl
  | _ => exact out

omit [DecidableEq Name] in
theorem Environment.outOfLoop (step : Environment pools after) (out : OutOfLoop pools) :
    OutOfLoop after := by
  cases step with
  | _ => exact out

theorem Environment.remaining (step : Environment pools after) :
    after.remaining = pools.remaining := by
  cases step with
  | _ => rfl

/-- What holds from the moment the loop is left. -/
structure Draining (limits : Limits) (pools : ExecutionPools Name) : Prop where
  valid : Invariant limits pools
  out : OutOfLoop pools

theorem Draining.step (draining : Draining limits pools) (step : Step limits pools after) :
    Draining limits after :=
  ⟨draining.valid.step step, step.outOfLoop draining.out⟩

theorem Draining.environment (draining : Draining limits pools)
    (step : Environment pools after) : Draining limits after :=
  ⟨draining.valid.environment step, step.outOfLoop draining.out⟩

/-- Waiting for the server changes nothing about the executioner. -/
theorem Draining.wait (draining : Draining limits pools)
    (run : Relation.ReflTransGen Environment pools after) :
    Draining limits after ∧ after.remaining = pools.remaining := by
  induction run with
  | refl => exact ⟨draining, rfl⟩
  | tail _ step ih => exact ⟨ih.1.environment step, step.remaining.trans ih.2⟩

/-! ### Progress -/

omit [DecidableEq Name] in
theorem exists_unfinished (unfinished : ¬ ∀ job ∈ pools.jobs, job.isDone = true) :
    ∃ (index : Nat) (job : DagJob Name), pools.jobs[index]? = some job ∧ job.isDone = false := by
  push Not at unfinished
  obtain ⟨job, member, undone⟩ := unfinished
  obtain ⟨index, here⟩ := List.mem_iff_getElem?.mp member
  exact ⟨index, job, here, by simpa using undone⟩

/-- The task that holds the mutex can release it. -/
theorem Invariant.exists_unlock (valid : Invariant limits pools) (held : pools.mutexHeld = true)
    (outside : pools.serverInside = false) : ∃ after, Step limits pools after := by
  have mutex := valid.mutex
  rw [held, outside] at mutex
  have positive : 0 < pools.total DagJob.locks := by
    simp only [Bool.toNat_false, Bool.toNat_true] at mutex
    omega
  obtain ⟨index, job, here, some⟩ := Processes.exists_of_sum_map_pos DagJob.locks positive
  cases job with
  | running payload execution locked ran =>
      obtain ⟨name, member⟩ := List.exists_mem_of_length_pos some
      exact ⟨_, .unlockTask index here member⟩
  | _ => cases some

/-- A task in progress can lock a free mutex, or finish. -/
theorem Invariant.exists_task_step (valid : Invariant limits pools)
    (free : pools.mutexHeld = false) (busy : 0 < pools.total DagJob.taskThreads) :
    ∃ after, Step limits pools after := by
  obtain ⟨index, job, here, some⟩ := Processes.exists_of_sum_map_pos DagJob.taskThreads busy
  cases job with
  | running payload execution locked ran =>
      obtain ⟨name, member⟩ := List.exists_mem_of_length_pos some
      by_cases isRan : name ∈ ran
      · obtain ⟨follows, _, _⟩ := valid.valid_running here
        obtain ⟨next, runner, moved, log⟩ :=
          follows.reachable.invariant.exists_finish pools.running member
        exact ⟨_, .finishTask index here isRan moved log⟩
      · by_cases isLocked : name ∈ locked
        · exact ⟨_, .unlockTask index here isLocked⟩
        · exact ⟨_, .lockTask index here member isLocked isRan free⟩
  | _ => cases some

/-- With no task in progress a running DAG can go on. -/
theorem Invariant.exists_dag_step (valid : Invariant limits pools)
    (taskRoom : 0 < poolThreads limits.maxTaskConcurrency)
    (idle : pools.total DagJob.taskThreads = 0) (busy : 0 < pools.total DagJob.dagThreads) :
    ∃ after, Step limits pools after := by
  obtain ⟨index, job, here, some⟩ := Processes.exists_of_sum_map_pos DagJob.dagThreads busy
  cases job with
  | running payload execution locked ran =>
      obtain ⟨follows, _, _⟩ := valid.valid_running here
      by_cases isOver : execution.phase.isOver = true
      · exact ⟨_, .finish index here isOver⟩
      · obtain ⟨next, moved, _⟩ :=
          follows.reachable.invariant.exists_step_flag pools.running (Bool.not_eq_true _ ▸ isOver)
        rcases moved.log_cases with ⟨same, _, _⟩ | ⟨name, runner, log, _⟩ | ⟨name, _, _, member, _⟩
        · exact ⟨_, .wave index here moved same⟩
        · exact ⟨_, .startTask index here moved log (idle ▸ taskRoom)⟩
        · have counted := Processes.le_sum_map DagJob.taskThreads here
          have positive := List.length_pos_of_mem member
          simp only [DagJob.taskThreads, ExecutionPools.total] at counted idle
          omega
  | _ => cases some

/-- Out of the loop, the executioner can take a step unless it has returned or
the server is in a critical section. -/
theorem Invariant.exists_step (valid : Invariant limits pools)
    (dagRoom : 0 < poolThreads limits.maxDagConcurrency)
    (taskRoom : 0 < poolThreads limits.maxTaskConcurrency) (draining : pools.phase = .draining)
    (outside : pools.serverInside = false) : ∃ after, Step limits pools after := by
  by_cases done : ∀ job ∈ pools.jobs, job.isDone = true
  · exact ⟨_, .leave draining done⟩
  · cases held : pools.mutexHeld with
    | true => exact valid.exists_unlock held outside
    | false =>
        rcases Nat.eq_zero_or_pos (pools.total DagJob.taskThreads) with idle | busy
        · rcases Nat.eq_zero_or_pos (pools.total DagJob.dagThreads) with none | some
          · obtain ⟨index, job, here, undone⟩ := exists_unfinished done
            cases job with
            | queued request =>
                cases request with
                | none => exact ⟨_, .drop index here (none ▸ dagRoom)⟩
                | some payload => exact ⟨_, .begin index here (none ▸ dagRoom)⟩
            | running payload execution locked ran =>
                have counted := Processes.le_sum_map DagJob.dagThreads here
                simp only [DagJob.dagThreads, ExecutionPools.total] at counted none
                omega
            | ended payload execution => cases undone
            | dropped => cases undone
          · exact valid.exists_dag_step taskRoom idle some
        · exact valid.exists_task_step held busy

/-- An executioner that has left its dequeue loop returns if the commands of its
tasks end: whatever the server does meanwhile, it takes finitely many more steps,
and until it returns it has one to take, the end of a command among them, whenever
the server is outside its critical sections. -/
theorem pools_drain {now : Int} (reachable : Reachable limits now pools)
    (out : pools.phase = .draining) (dagRoom : 0 < poolThreads limits.maxDagConcurrency)
    (taskRoom : 0 < poolThreads limits.maxTaskConcurrency) :
    Acc (fun after before : ExecutionPools Name => ∃ waited,
      Relation.ReflTransGen Environment before waited ∧ Step limits waited after) pools ∧
    ∀ later, Relation.ReflTransGen (Moves limits) pools later →
      later.phase = .returned ∨ later.serverInside = true ∨ ∃ after, Step limits later after := by
  have start : Draining limits pools := ⟨reachable.invariant, .inl out⟩
  constructor
  · refine Transition.acc_of_measure remaining
      (fun before after (draining : Draining limits before) step => ?_) ?_ start
    · obtain ⟨waited, run, step⟩ := step
      exact (draining.wait run).1.step step
    · rintro before after draining ⟨waited, run, step⟩
      obtain ⟨still, same⟩ := draining.wait run
      exact same ▸ still.valid.remaining_lt still.out step
  · intro later run
    have still : Draining limits later := by
      refine Transition.invariant_of_reflTransGen (fun _ _ draining moves => ?_) start run
      rcases moves with step | step
      · exact draining.step step
      · exact draining.environment step
    rcases still.out with draining | returned
    · cases inside : later.serverInside with
      | true => exact .inr (.inl rfl)
      | false => exact .inr (.inr (still.valid.exists_step dagRoom taskRoom draining inside))
    · exact .inl returned

/-- A request that waits for its thread when the flag is cleared. -/
theorem pools_drain_extract : ∃ pools : ExecutionPools Str, Reachable oneAtATime 0 pools ∧
    pools.phase = .draining ∧ pools.jobs.map DagJob.request = [some extractPayload] ∧
    ∃ after, Step oneAtATime pools after := by
  have run : ∃ pools : ExecutionPools Str, Reachable oneAtATime 0 pools ∧
      pools.phase = .draining ∧ pools.serverInside = false ∧
      pools.jobs.map DagJob.request = [some extractPayload] := by
    refine ⟨_, .step (.environment (.step (.step (.step .refl
      (.loadTrue rfl rfl))
      (.receive (some extractPayload) rfl))
      (.dispatch rfl))
      .stop)
      (.loadFalse rfl rfl), rfl, rfl, rfl⟩
  obtain ⟨pools, reachable, draining, outside, requests⟩ := run
  refine ⟨pools, reachable, draining, requests, ?_⟩
  rcases (pools_drain reachable draining (by decide) (by decide)).2 pools .refl with
    returned | inside | step
  · cases draining.symm.trans returned
  · cases outside.symm.trans inside
  · exact step

end ExecutionPools

end BabyLuigi.ShyExecutioner
