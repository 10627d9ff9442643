import BabyLuigi.ShyguyRunProperties

/-! Once the terminator is stored, `run` comes to its return, unless the process
is aborted first. -/

set_option autoImplicit false

namespace BabyLuigi

/-! ### The measure -/

/-- An upper bound on the steps left of a call, with those of the executioner
that it may start. -/
def EnsurePhase.remaining : EnsurePhase → Nat
  | .outside => 0
  | .called => 11
  | .entering => 10
  | .locked => 9
  | .joining => 8
  | .tested _ => 7
  | .storing => 6
  | .emplacing => 5

def ExecutionerPhase.remaining : ExecutionerPhase → Nat
  | .absent => 0
  | .running => 3
  | .returned => 2
  | .cleared => 1
  | .ended => 0

/-- A call of the server takes three steps: it is made, it locks, it unlocks. -/
def WorkerPhase.remaining : WorkerPhase → Nat
  | .loopHead => 1
  | .body _ true => 2
  | .body serverCalls false => 3 * serverCalls + 14
  | .waiting serverCalls => 3 * serverCalls + 16
  | .inside serverCalls => 3 * serverCalls + 15
  | .ended => 0

def RunPhase.remaining : RunPhase → Nat
  | .viewing => 5
  | .stopping => 4
  | .joiningRequestThread => 3
  | .joiningScheduleThread => 2
  | .joiningExecutionThread => 1
  | .returned => 0

namespace ExecutionControl

variable {control after : ExecutionControl Worker} {action : ControlAction Worker}

def callsRemaining (control : ExecutionControl Worker) : Nat :=
  (control.calls .requestThread).remaining + (control.calls .scheduleThread).remaining

def threadRemaining (control : ExecutionControl Worker) : Nat :=
  match control.executionThread with
  | none => 0
  | some executioner => (control.executioners executioner).remaining

def remaining (control : ExecutionControl Worker) : Nat :=
  control.callsRemaining + control.threadRemaining + (!control.aborted).toNat

theorem callsRemaining_setCall (control : ExecutionControl Worker) (caller : Worker)
    (phase : EnsurePhase) :
    (control.setCall caller phase).callsRemaining + (control.calls caller).remaining =
      control.callsRemaining + phase.remaining := by
  cases caller <;> simp [callsRemaining] <;> omega

theorem remaining_setCall (control : ExecutionControl Worker) (caller : Worker)
    (phase : EnsurePhase) :
    (control.setCall caller phase).remaining + (control.calls caller).remaining =
      control.remaining + phase.remaining := by
  have total := callsRemaining_setCall control caller phase
  have parts : (control.setCall caller phase).remaining =
    (control.setCall caller phase).callsRemaining + control.threadRemaining +
      (!control.aborted).toNat := rfl
  rw [parts, remaining]
  omega

theorem remaining_lt_of_setCall {caller : Worker} {phase : EnsurePhase}
    (calls : after.calls = (control.setCall caller phase).calls)
    (thread : after.threadRemaining ≤ control.threadRemaining)
    (aborted : after.aborted = control.aborted)
    (lower : phase.remaining < (control.calls caller).remaining) :
    after.remaining < control.remaining := by
  have total := callsRemaining_setCall control caller phase
  have same : after.callsRemaining = (control.setCall caller phase).callsRemaining := by
    simp only [callsRemaining, calls]
  simp only [remaining, aborted]
  omega

theorem remaining_lt_of_setExecutioner {executioner : Nat} {phase : ExecutionerPhase}
    (calls : after.calls = control.calls) (aborted : after.aborted = control.aborted)
    (thread : after.executionThread = control.executionThread)
    (executioners : after.executioners = (control.setExecutioner executioner phase).executioners)
    (held : control.executionThread = some executioner)
    (lower : phase.remaining < (control.executioners executioner).remaining) :
    after.remaining < control.remaining := by
  have before : control.threadRemaining = (control.executioners executioner).remaining := by
    rw [threadRemaining, held]
  have now : after.threadRemaining = phase.remaining := by
    rw [threadRemaining, thread, held]
    dsimp only
    rw [executioners, setExecutioner_executioners, if_pos rfl]
  simp only [remaining, callsRemaining, calls, aborted]
  omega

/-- The call that ends takes more away than the new executioner adds. -/
theorem remaining_emplace_lt {caller : Worker} (emplacing : control.calls caller = .emplacing)
    (notAborted : control.aborted = false) :
    (control.emplace caller).remaining < control.remaining := by
  unfold ExecutionControl.emplace
  split
  · simp [remaining, callsRemaining, threadRemaining, notAborted]
  · rename_i free
    have total := callsRemaining_setCall control caller .outside
    have started : ∀ executioners : Nat → ExecutionerPhase,
        executioners control.started = .running →
        threadRemaining
          { control.setCall caller .outside with
            executioners := executioners
            executionThread := some control.started
            started := control.started + 1
            executionMutex := none } = 3 := by
      intro executioners running
      simp [threadRemaining, running, ExecutionerPhase.remaining]
    have before : control.threadRemaining = 0 := by rw [threadRemaining, free]
    rw [emplacing] at total
    simp only [EnsurePhase.remaining] at total
    rw [remaining, started _ (Function.update_self ..), remaining, before]
    simp only [callsRemaining, setCall] at total ⊢
    omega

/-- A thread that the terminated process no longer has counts as well. -/
theorem Step.remaining_lt (step : Step control action after) (accounted : control.Accounted)
    (continues : action.Continues) (notAborted : control.aborted = false) :
    after.remaining < control.remaining := by
  cases step with
  | call _ _ => exact continues.elim
  | stop => exact continues.elim
  | loadTerminator _ called =>
      refine remaining_lt_of_setCall rfl le_rfl rfl ?_
      rw [called]
      split <;> decide
  | lock _ entering _ =>
      refine remaining_lt_of_setCall rfl le_rfl rfl ?_
      rw [entering]
      decide
  | firstLoad _ locked =>
      refine remaining_lt_of_setCall rfl le_rfl rfl ?_
      rw [locked]
      unfold afterFirstLoad
      split
      · decide
      · split <;> decide
  | join _ joining _ _ =>
      refine remaining_lt_of_setCall rfl (Nat.zero_le _) rfl ?_
      rw [joining]
      decide
  | secondLoadTrue _ tested _ =>
      refine remaining_lt_of_setCall rfl le_rfl rfl ?_
      rw [tested]
      simp [EnsurePhase.remaining]
  | secondLoadFalse _ tested _ =>
      refine remaining_lt_of_setCall rfl le_rfl rfl ?_
      rw [tested]
      simp [EnsurePhase.remaining]
  | store _ storing =>
      refine remaining_lt_of_setCall rfl le_rfl rfl ?_
      rw [storing]
      decide
  | emplace _ emplacing => exact remaining_emplace_lt emplacing notAborted
  | leave executioner running =>
      refine remaining_lt_of_setExecutioner rfl rfl rfl rfl
        (accounted.unended executioner (by simp [running]) (by simp [running])) ?_
      rw [running]
      decide
  | clear executioner returned =>
      refine remaining_lt_of_setExecutioner rfl rfl rfl rfl
        (accounted.unended executioner (by simp [returned]) (by simp [returned])) ?_
      rw [returned]
      decide
  | finish executioner cleared =>
      refine remaining_lt_of_setExecutioner rfl rfl rfl rfl
        (accounted.unended executioner (by simp [cleared]) (by simp [cleared])) ?_
      rw [cleared]
      decide

end ExecutionControl

namespace ShyguyRun

open ExecutionControl

variable {run after : ShyguyRun}

def workersRemaining (run : ShyguyRun) : Nat :=
  (run.workers .requestThread).remaining + (run.workers .scheduleThread).remaining

/-- Each task has yet to lock the mutex and to end. -/
def tasksRemaining (run : ShyguyRun) : Nat :=
  2 * run.openTasks - (decide (run.serverMutex = some .task)).toNat

def remaining (run : ShyguyRun) : Nat :=
  run.workersRemaining + run.control.remaining + run.phase.remaining + run.tasksRemaining

theorem workersRemaining_setWorker (run : ShyguyRun) (worker : Worker) (phase : WorkerPhase) :
    (run.setWorker worker phase).workersRemaining + (run.workers worker).remaining =
      run.workersRemaining + phase.remaining := by
  cases worker <;> simp [workersRemaining] <;> omega

/-- A thread moves on; the mutex, if it changes hands, is no task's. -/
theorem remaining_setWorker {worker : Worker} {phase : WorkerPhase} {holder : Option MutexHolder}
    (lower : phase.remaining < (run.workers worker).remaining)
    (noTask : decide (holder = some .task) = decide (run.serverMutex = some .task)) :
    remaining { run.setWorker worker phase with serverMutex := holder } < run.remaining := by
  have total := workersRemaining_setWorker run worker phase
  have parts : remaining { run.setWorker worker phase with serverMutex := holder } =
      (run.setWorker worker phase).workersRemaining + run.control.remaining +
        run.phase.remaining + (2 * run.openTasks - (decide (holder = some .task)).toNat) := rfl
  rw [parts, noTask, remaining, tasksRemaining]
  omega

theorem Step.terminator (step : Step run after) (stopped : run.control.terminator = false) :
    after.control.terminator = false := by
  cases step with
  | call _ _ step => exact (step.terminator (by simp)).trans stopped
  | «continue» action continues _ step =>
      refine (step.terminator ?_).trans stopped
      rintro rfl
      exact continues
  | viewStores _ _ step =>
      cases step with
      | stop => rfl
  | runStores _ step =>
      cases step with
      | stop => rfl
  | _ => exact stopped

/-- With the terminator stored no new round or wave begins, and every step counts
down. -/
theorem Consistent.remaining_lt (consistent : Consistent run)
    (stopped : run.control.terminator = false) (notAborted : run.control.aborted = false)
    (step : Step run after) : after.remaining < run.remaining := by
  have phases : ∀ {phase : RunPhase}, phase.remaining < run.phase.remaining →
      remaining { run with phase := phase } < run.remaining := by
    intro phase lower
    simp only [remaining, workersRemaining, tasksRemaining]
    omega
  have viewed : run.phase ≠ .viewing := fun viewing => by
    cases (consistent.viewing viewing).symm.trans stopped
  cases step with
  | loadTrue _ _ running => cases running.symm.trans stopped
  | loadFalse worker head _ =>
      exact remaining_setWorker (by rw [head]; simp [WorkerPhase.remaining]) rfl
  | callServer worker body =>
      refine remaining_setWorker ?_ rfl
      rw [body]
      simp only [WorkerPhase.remaining]
      omega
  | lockServer worker waiting free =>
      refine remaining_setWorker ?_ (by simp [free])
      rw [waiting]
      simp [WorkerPhase.remaining]
  | unlockServer worker inside =>
      have holds := (consistent.inside worker).mpr ⟨_, inside⟩
      refine remaining_setWorker ?_ (by simp [holds])
      rw [inside]
      simp [WorkerPhase.remaining]
  | @call worker serverCalls control body step =>
      cases step with
      | call _ outside =>
          have workers := workersRemaining_setWorker run worker (.body serverCalls true)
          have calls := remaining_setCall run.control worker .called
          rw [body] at workers
          rw [outside] at calls
          simp only [WorkerPhase.remaining] at workers
          simp only [EnsurePhase.remaining] at calls
          have parts : remaining { run.setWorker worker (.body serverCalls true) with
              control := run.control.setCall worker .called } =
            (run.setWorker worker (.body serverCalls true)).workersRemaining +
              (run.control.setCall worker .called).remaining + run.phase.remaining +
              run.tasksRemaining := rfl
          rw [parts, remaining]
          omega
  | «continue» action continues _ step =>
      have lower := step.remaining_lt consistent.accounted continues notAborted
      simp only [remaining, workersRemaining, tasksRemaining]
      omega
  | @endRound worker serverCalls called body _ =>
      refine remaining_setWorker ?_ rfl
      rw [body]
      cases called <;> simp [WorkerPhase.remaining]
  | openWave _ _ _ running => cases running.symm.trans stopped
  | lockTask some free =>
      simp only [remaining, workersRemaining, tasksRemaining, free, decide_true, Bool.toNat_true,
        reduceCtorEq, decide_false, Bool.toNat_false]
      omega
  | endTask held =>
      have some := consistent.task held
      simp only [remaining, workersRemaining, tasksRemaining, held, decide_true, Bool.toNat_true,
        reduceCtorEq, decide_false, Bool.toNat_false]
      omega
  | lockView phase _ => exact absurd phase viewed
  | unlockView held => exact absurd (consistent.view held) viewed
  | viewStores phase _ _ => exact absurd phase viewed
  | noView phase _ => exact absurd phase viewed
  | runStores phase step =>
      cases step with
      | stop =>
          have lower : RunPhase.remaining .joiningRequestThread < run.phase.remaining := by
            rw [phase]
            decide
          exact phases lower
  | joinRequestThread phase _ => exact phases (by rw [phase]; decide)
  | joinScheduleThread phase _ => exact phases (by rw [phase]; decide)
  | joinExecutionThread phase _ _ => exact phases (by rw [phase]; decide)
  | noExecutionThread phase _ => exact phases (by rw [phase]; decide)

/-- Whoever holds the mutex can give it back. -/
theorem Consistent.exists_release (consistent : Consistent run)
    (held : run.serverMutex ≠ none) : ∃ after, Step run after := by
  cases holder : run.serverMutex with
  | none => exact absurd holder held
  | some holds =>
      cases holds with
      | worker worker =>
          obtain ⟨serverCalls, inside⟩ := (consistent.inside worker).mp holder
          exact ⟨_, .unlockServer worker inside⟩
      | view => exact ⟨_, .unlockView holder⟩
      | task => exact ⟨_, .endTask holder⟩

/-- A step of a call or of an executioner is possible, or a task comes first. -/
theorem Consistent.exists_continue (consistent : Consistent run) (action : ControlAction Worker)
    {control : ExecutionControl Worker} (continues : action.Continues)
    (step : run.control.Step action control) : ∃ after, Step run after := by
  rcases Nat.eq_zero_or_pos run.openTasks with none | some
  · exact ⟨_, .continue action continues (fun _ _ => none) step⟩
  · by_cases free : run.serverMutex = .none
    · exact ⟨_, .lockTask some free⟩
    · exact consistent.exists_release free

/-- A thread of the server that has not ended can go on, or what it waits for can. -/
theorem Consistent.exists_worker_step (consistent : Consistent run) {worker : Worker}
    (unended : run.workers worker ≠ .ended) : ∃ after, Step run after := by
  cases here : run.workers worker with
  | loopHead =>
      cases running : run.control.terminator with
      | true => exact ⟨_, .loadTrue worker here running⟩
      | false => exact ⟨_, .loadFalse worker here running⟩
  | body serverCalls called =>
      by_cases outside : run.control.calls worker = .outside
      · exact ⟨_, .endRound worker here outside⟩
      · obtain ⟨action, control, continues, step⟩ := consistent.accounted.exists_step outside
        exact consistent.exists_continue action continues step
  | waiting serverCalls =>
      by_cases free : run.serverMutex = none
      · exact ⟨_, .lockServer worker here free⟩
      · exact consistent.exists_release free
  | inside serverCalls => exact ⟨_, .unlockServer worker here⟩
  | ended => exact absurd here unended

/-- No deadlock: some thread can go on until `run` returns. -/
theorem Consistent.exists_step (consistent : Consistent run) (running : run.phase ≠ .returned) :
    ∃ after, Step run after := by
  cases phase : run.phase with
  | viewing =>
      by_cases held : run.serverMutex = some .view
      · exact ⟨_, .unlockView held⟩
      · exact ⟨_, .noView phase held⟩
  | stopping => exact ⟨_, .runStores phase .stop⟩
  | joiningRequestThread =>
      by_cases ended : run.workers .requestThread = .ended
      · exact ⟨_, .joinRequestThread phase ended⟩
      · exact consistent.exists_worker_step ended
  | joiningScheduleThread =>
      by_cases ended : run.workers .scheduleThread = .ended
      · exact ⟨_, .joinScheduleThread phase ended⟩
      · exact consistent.exists_worker_step ended
  | joiningExecutionThread =>
      cases held : run.control.executionThread with
      | none => exact ⟨_, .noExecutionThread phase held⟩
      | some executioner =>
          cases thread : run.control.executioners executioner with
          | absent => exact absurd thread (consistent.accounted.present executioner held)
          | running => exact consistent.exists_continue (.leave executioner) trivial (.leave _ thread)
          | returned => exact consistent.exists_continue (.clear executioner) trivial (.clear _ thread)
          | cleared => exact consistent.exists_continue (.finish executioner) trivial (.finish _ thread)
          | ended => exact ⟨_, .joinExecutionThread phase held thread⟩
  | returned => exact absurd phase running

structure Stopping (run : ShyguyRun) : Prop where
  consistent : Consistent run
  stopped : run.control.terminator = false

theorem Stopping.moves (stopping : Stopping run) (moves : Moves run after) : Stopping after :=
  ⟨stopping.consistent.step moves.2, moves.2.terminator stopping.stopped⟩

/-- After the terminator has been stored, in whatever state that finds the
threads, the tasks and the mutex, only finitely many steps are left, and they end
with the return of `run` or with an aborted process. -/
theorem stopped_run_returns (reachable : Reachable run)
    (stopped : run.control.terminator = false) :
    Acc (fun after before => Moves before after) run ∧
    ∀ later, Relation.ReflTransGen Moves run later →
      (¬ ∃ after, Moves later after) →
      later.phase = .returned ∨ later.control.aborted = true := by
  have start : Stopping run := ⟨reachable.consistent, stopped⟩
  constructor
  · exact Transition.acc_of_measure remaining
      (fun _ _ (stopping : Stopping _) moves => stopping.moves moves)
      (fun _ _ stopping moves =>
        stopping.consistent.remaining_lt stopping.stopped moves.1 moves.2) start
  · intro later moved stuck
    have still : Stopping later :=
      Transition.invariant_of_reflTransGen (fun _ _ stopping moves => stopping.moves moves) start moved
    by_contra unfinished
    push Not at unfinished
    obtain ⟨after, step⟩ := still.consistent.exists_step unfinished.1
    exact stuck ⟨after, by simpa using unfinished.2, step⟩

/-- A task holds the mutex when the terminator is stored. -/
theorem stopped_run_returns_once : ∃ run : ShyguyRun, Reachable run ∧
    run.control.executioners 0 = .running ∧ run.serverMutex = some .task ∧
    Acc (fun after before => Moves before after) run := by
  obtain ⟨run, _, reachable, stopped, running, held, _⟩ := reachable_stopping
  exact ⟨run, reachable, running, held, (stopped_run_returns reachable stopped).1⟩

end ShyguyRun

end BabyLuigi
