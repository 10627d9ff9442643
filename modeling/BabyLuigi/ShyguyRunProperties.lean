import BabyLuigi.ExecutionControlProperties
import BabyLuigi.ShyguyRun
import BabyLuigi.Support.Transition

/-! What is left of the server when `run` returns, and that a stopped server
comes to its end. -/

set_option autoImplicit false

namespace BabyLuigi

/-! ### Threads and calls -/

namespace ExecutionControl

variable {Caller : Type} {control after : ExecutionControl Caller}

/-- A thread that has not ended is the one held, the holder of the mutex is
inside, and a call that joins has a thread to join. -/
structure Accounted (control : ExecutionControl Caller) : Prop where
  unended : ∀ executioner, control.executioners executioner ≠ .absent →
    control.executioners executioner ≠ .ended → control.executionThread = some executioner
  present : ∀ executioner, control.executionThread = some executioner →
    control.executioners executioner ≠ .absent
  owner : ∀ caller, control.executionMutex = some caller → (control.calls caller).inside = true
  joining : ∀ caller, control.calls caller = .joining →
    ∃ executioner, control.executionThread = some executioner

theorem accounted_initial : (initial : ExecutionControl Caller).Accounted where
  unended _ started := absurd rfl started
  present _ impossible := by cases impossible
  owner _ impossible := by cases impossible
  joining _ impossible := by cases impossible

/-- A call outside the mutex is not the one that holds it. -/
theorem Accounted.not_owner (accounted : Accounted control) {caller : Caller}
    (outside : (control.calls caller).inside = false) : control.executionMutex ≠ some caller := by
  intro held
  rw [accounted.owner caller held] at outside
  cases outside

theorem Accounted.setExecutioner (accounted : Accounted control) {executioner : Nat}
    {phase : ExecutionerPhase} (held : control.executionThread = some executioner)
    (present : phase ≠ .absent) : Accounted (control.setExecutioner executioner phase) := by
  refine ⟨?_, ?_, accounted.owner, accounted.joining⟩
  · intro other started unended
    rw [setExecutioner_executioners] at started unended
    split at started
    · exact ‹other = executioner› ▸ held
    · rename_i different
      rw [if_neg different] at unended
      exact accounted.unended other started unended
  · intro other isHeld
    rw [setExecutioner_executioners]
    split
    · exact present
    · exact accounted.present other isHeld

variable [DecidableEq Caller] {action : ControlAction Caller}

theorem Accounted.setCall (accounted : Accounted control) {caller : Caller} {phase : EnsurePhase}
    (owns : control.executionMutex = some caller → phase.inside = true)
    (joins : phase = .joining → ∃ executioner, control.executionThread = some executioner) :
    Accounted (control.setCall caller phase) := by
  refine ⟨accounted.unended, accounted.present, ?_, ?_⟩
  · intro other held
    rw [setCall_calls]
    split
    · exact owns (‹other = caller› ▸ held)
    · exact accounted.owner other held
  · intro other isJoining
    rw [setCall_calls] at isJoining
    split at isJoining
    · exact joins isJoining
    · exact accounted.joining other isJoining

theorem Accounted.release (accounted : Accounted control) {caller : Caller} :
    Accounted { control.setCall caller .outside with executionMutex := none } := by
  refine ⟨accounted.unended, accounted.present, fun _ impossible => (by cases impossible), ?_⟩
  intro other isJoining
  dsimp only at isJoining
  rw [setCall_calls] at isJoining
  split at isJoining
  · cases isJoining
  · exact accounted.joining other isJoining

theorem Accounted.emplace (accounted : Accounted control) {caller : Caller} :
    Accounted (control.emplace caller) := by
  unfold ExecutionControl.emplace
  split
  · exact ⟨accounted.unended, accounted.present, accounted.owner, accounted.joining⟩
  · rename_i none
    refine ⟨?_, ?_, fun _ impossible => (by cases impossible), fun _ _ => ⟨_, rfl⟩⟩
    · intro other started unended
      by_cases new : other = control.started
      · exact congrArg some new.symm
      · simp only [Function.update_of_ne new] at started unended
        exact absurd (none.symm.trans (accounted.unended other started unended)) (by simp)
    · intro other held
      obtain rfl := Option.some.inj held
      simp

theorem Accounted.step (accounted : Accounted control) (orderly : Orderly control)
    (step : Step control action after) : Accounted after := by
  cases step with
  | call caller outside =>
      exact accounted.setCall
        (fun held => absurd held (accounted.not_owner (by rw [outside]; rfl))) (by simp)
  | loadTerminator caller called =>
      refine accounted.setCall
        (fun held => absurd held (accounted.not_owner (by rw [called]; rfl))) ?_
      split <;> simp
  | lock caller entering free =>
      refine ⟨accounted.unended, accounted.present, ?_, ?_⟩
      · intro other held
        obtain rfl := Option.some.inj held
        dsimp only
        rw [setCall_calls, if_pos rfl]
        rfl
      · exact (accounted.setCall (fun _ => rfl) (by simp)).joining
  | firstLoad caller _ =>
      unfold afterFirstLoad
      split
      · exact accounted.setCall (fun _ => rfl) (by simp)
      · rename_i held
        refine accounted.setCall ?_ (fun _ => ⟨_, held⟩)
        split <;> exact fun _ => rfl
  | @join caller executioner joining held ended =>
      refine ⟨?_, fun _ impossible => (by cases impossible), ?_, ?_⟩
      · intro other started unended
        obtain rfl := Option.some.inj (held.symm.trans (accounted.unended other started unended))
        exact absurd ended unended
      · exact (accounted.setCall (fun _ => rfl) (by simp)).owner
      · intro other isJoining
        dsimp only at isJoining
        rw [setCall_calls] at isJoining
        split at isJoining
        · cases isJoining
        · rename_i different
          exact absurd (orderly.same_caller (by rw [isJoining]; rfl) (by rw [joining]; rfl)) different
  | secondLoadTrue _ _ _ => exact accounted.release
  | secondLoadFalse _ _ _ => exact accounted.setCall (fun _ => rfl) (by simp)
  | store caller _ =>
      have moved : Accounted (control.setCall caller .emplacing) :=
        accounted.setCall (fun _ => rfl) (by simp)
      exact ⟨moved.unended, moved.present, moved.owner, moved.joining⟩
  | emplace _ _ => exact accounted.emplace
  | leave executioner running =>
      exact accounted.setExecutioner
        (accounted.unended executioner (by simp [running]) (by simp [running])) (by simp)
  | clear executioner returned =>
      have moved : Accounted (control.setExecutioner executioner .cleared) :=
        accounted.setExecutioner
          (accounted.unended executioner (by simp [returned]) (by simp [returned])) (by simp)
      exact ⟨moved.unended, moved.present, moved.owner, moved.joining⟩
  | finish executioner cleared =>
      exact accounted.setExecutioner
        (accounted.unended executioner (by simp [cleared]) (by simp [cleared])) (by simp)
  | stop => exact ⟨accounted.unended, accounted.present, accounted.owner, accounted.joining⟩

/-- Only a new call leaves the outside. -/
theorem Step.entered (step : Step control action after) (continues : action.Continues)
    {caller : Caller} (entered : after.calls caller ≠ .outside) :
    control.calls caller ≠ .outside := by
  have moved : ∀ {other : Caller} {phase : EnsurePhase}, control.calls other ≠ .outside →
      (control.setCall other phase).calls caller ≠ .outside → control.calls caller ≠ .outside := by
    intro other phase before inside
    rw [setCall_calls] at inside
    split at inside
    · exact ‹caller = other› ▸ before
    · exact inside
  cases step with
  | call _ _ => exact continues.elim
  | stop => exact continues.elim
  | loadTerminator _ called => exact moved (by simp [called]) entered
  | lock _ entering _ => exact moved (by simp [entering]) entered
  | firstLoad _ locked => exact moved (by simp [locked]) entered
  | join _ joining _ _ => exact moved (by simp [joining]) entered
  | secondLoadTrue _ tested _ => exact moved (by simp [tested]) entered
  | secondLoadFalse _ tested _ => exact moved (by simp [tested]) entered
  | store _ storing => exact moved (by simp [storing]) entered
  | emplace _ emplacing =>
      unfold ExecutionControl.emplace at entered
      split at entered
      · exact entered
      · exact moved (by simp [emplacing]) entered
  | leave _ _ => exact entered
  | clear _ _ => exact entered
  | finish _ _ => exact entered

/-- With no call open and the held thread at its end, no thread can go on. -/
theorem Accounted.no_step (accounted : Accounted control)
    (outside : ∀ caller, control.calls caller = .outside)
    (ended : ∀ executioner, control.executionThread = some executioner →
      control.executioners executioner = .ended)
    (continues : action.Continues) : ¬ Step control action after := by
  have notCalling : ∀ {caller : Caller} {phase : EnsurePhase}, control.calls caller = phase →
      phase ≠ .outside → False := by
    intro caller phase here entered
    exact entered (here.symm.trans (outside caller))
  have notRunning : ∀ {executioner : Nat} {phase : ExecutionerPhase},
      control.executioners executioner = phase → phase ≠ .absent → phase ≠ .ended → False := by
    intro executioner phase here started unended
    have held := accounted.unended executioner (here ▸ started) (here ▸ unended)
    exact unended (here.symm.trans (ended executioner held))
  intro step
  cases step with
  | call _ _ => exact continues
  | stop => exact continues
  | loadTerminator _ called => exact notCalling called (by simp)
  | lock _ entering _ => exact notCalling entering (by simp)
  | firstLoad _ locked => exact notCalling locked (by simp)
  | join _ joining _ _ => exact notCalling joining (by simp)
  | secondLoadTrue _ tested _ => exact notCalling tested (by simp)
  | secondLoadFalse _ tested _ => exact notCalling tested (by simp)
  | store _ storing => exact notCalling storing (by simp)
  | emplace _ emplacing => exact notCalling emplacing (by simp)
  | leave _ running => exact notRunning running (by simp) (by simp)
  | clear _ returned => exact notRunning returned (by simp) (by simp)
  | finish _ cleared => exact notRunning cleared (by simp) (by simp)

/-! ### Progress -/

/-- A call that holds the mutex can go on, or the thread it joins can. -/
theorem Accounted.exists_step_inside (accounted : Accounted control) {caller : Caller}
    (inside : (control.calls caller).inside = true) :
    ∃ (action : ControlAction Caller) (after : ExecutionControl Caller),
      action.Continues ∧ Step control action after := by
  cases here : control.calls caller with
  | outside => simp [here, EnsurePhase.inside] at inside
  | called => simp [here, EnsurePhase.inside] at inside
  | entering => simp [here, EnsurePhase.inside] at inside
  | locked => exact ⟨.firstLoad caller, _, trivial, .firstLoad caller here⟩
  | joining =>
      obtain ⟨executioner, held⟩ := accounted.joining caller here
      cases phase : control.executioners executioner with
      | absent => exact absurd phase (accounted.present executioner held)
      | running => exact ⟨.leave executioner, _, trivial, .leave executioner phase⟩
      | returned => exact ⟨.clear executioner, _, trivial, .clear executioner phase⟩
      | cleared => exact ⟨.finish executioner, _, trivial, .finish executioner phase⟩
      | ended => exact ⟨.join caller, _, trivial, .join caller here held phase⟩
  | tested sawRunning =>
      cases running : control.executionRunning with
      | true => exact ⟨.secondLoad caller, _, trivial, .secondLoadTrue caller here running⟩
      | false => exact ⟨.secondLoad caller, _, trivial, .secondLoadFalse caller here running⟩
  | storing => exact ⟨.store caller, _, trivial, .store caller here⟩
  | emplacing => exact ⟨.emplace caller, _, trivial, .emplace caller here⟩

/-- While a call is open, some thread can go on. -/
theorem Accounted.exists_step (accounted : Accounted control) {caller : Caller}
    (entered : control.calls caller ≠ .outside) :
    ∃ (action : ControlAction Caller) (after : ExecutionControl Caller),
      action.Continues ∧ Step control action after := by
  by_cases inside : (control.calls caller).inside = true
  · exact accounted.exists_step_inside inside
  · cases here : control.calls caller with
    | outside => exact absurd here entered
    | called => exact ⟨.loadTerminator caller, _, trivial, .loadTerminator caller here⟩
    | entering =>
        cases holder : control.executionMutex with
        | none => exact ⟨.lock caller, _, trivial, .lock caller here holder⟩
        | some other => exact accounted.exists_step_inside (accounted.owner other holder)
    | _ => simp [here, EnsurePhase.inside] at inside

end ExecutionControl

/-! ### The shutdown sequence -/

/-- The threads that `run` has joined. -/
def RunPhase.hasJoined : RunPhase → Worker → Bool
  | .joiningScheduleThread, .requestThread => true
  | .joiningExecutionThread, _ => true
  | .returned, _ => true
  | _, _ => false

namespace ShyguyRun

open ExecutionControl

variable {run after : ShyguyRun}

structure Consistent (run : ShyguyRun) : Prop where
  orderly : run.control.Orderly
  accounted : run.control.Accounted
  calling : ∀ worker, run.control.calls worker ≠ .outside →
    ∃ serverCalls, run.workers worker = .body serverCalls true
  joined : ∀ worker, run.phase.hasJoined worker = true → run.workers worker = .ended
  finished : run.phase = .returned → ∀ executioner,
    run.control.executionThread = some executioner → run.control.executioners executioner = .ended
  inside : ∀ worker, run.serverMutex = some (.worker worker) ↔
    ∃ serverCalls, run.workers worker = .inside serverCalls
  task : run.serverMutex = some .task → 0 < run.openTasks
  tasksRun : 0 < run.openTasks → ∃ executioner, run.control.executioners executioner = .running
  view : run.serverMutex = some .view → run.phase = .viewing
  viewing : run.phase = .viewing → run.control.terminator = true

theorem consistent_initial : initial.Consistent where
  orderly := orderly_initial
  accounted := accounted_initial
  calling _ entered := absurd rfl entered
  joined worker impossible := by cases worker <;> cases impossible
  finished impossible := by cases impossible
  inside worker := by simp [initial]
  task impossible := by cases impossible
  tasksRun impossible := absurd impossible (Nat.lt_irrefl 0)
  view impossible := by cases impossible
  viewing _ := rfl

/-- A thread that is not past its call has none open. -/
theorem Consistent.outside (consistent : Consistent run) {worker : Worker} {phase : WorkerPhase}
    (here : run.workers worker = phase)
    (notCalled : ∀ serverCalls, phase ≠ .body serverCalls true) :
    run.control.calls worker = .outside := by
  by_contra entered
  obtain ⟨serverCalls, inBody⟩ := consistent.calling worker entered
  exact notCalled serverCalls (here.symm.trans inBody)

theorem Consistent.setWorker (consistent : Consistent run) {worker : Worker} {phase : WorkerPhase}
    (outside : run.control.calls worker = .outside) (unended : run.workers worker ≠ .ended)
    (notHolding : ∀ serverCalls, run.workers worker ≠ .inside serverCalls)
    (notInside : ∀ serverCalls, phase ≠ .inside serverCalls) :
    Consistent (run.setWorker worker phase) := by
  refine ⟨consistent.orderly, consistent.accounted, ?_, ?_, consistent.finished, ?_,
    consistent.task, consistent.tasksRun, consistent.view, consistent.viewing⟩
  · intro other entered
    rw [setWorker_workers, if_neg]
    · exact consistent.calling other entered
    · rintro rfl
      exact entered outside
  · intro other hasJoined
    have ended := consistent.joined other hasJoined
    rw [setWorker_workers, if_neg]
    · exact ended
    · rintro rfl
      exact unended ended
  · intro other
    rw [setWorker_workers]
    split
    · subst other
      constructor
      · intro holds
        obtain ⟨serverCalls, here⟩ := (consistent.inside worker).mp holds
        exact absurd here (notHolding serverCalls)
      · rintro ⟨serverCalls, here⟩
        exact absurd here (notInside serverCalls)
    · exact consistent.inside other

/-- The mutex passes to a thread that waits for it, or back. -/
theorem Consistent.lockServer (consistent : Consistent run) {worker : Worker} {serverCalls : Nat}
    (waiting : run.workers worker = .waiting serverCalls) (free : run.serverMutex = none) :
    Consistent { run.setWorker worker (.inside serverCalls) with
      serverMutex := some (.worker worker) } := by
  have outside := consistent.outside waiting (by simp)
  refine ⟨consistent.orderly, consistent.accounted, ?_, ?_, consistent.finished, ?_,
    by simp, consistent.tasksRun, by simp, consistent.viewing⟩
  · intro other entered
    dsimp only
    rw [setWorker_workers, if_neg]
    · exact consistent.calling other entered
    · rintro rfl
      exact entered outside
  · intro other hasJoined
    have ended := consistent.joined other hasJoined
    dsimp only
    rw [setWorker_workers, if_neg]
    · exact ended
    · rintro rfl
      cases waiting.symm.trans ended
  · intro other
    have held := consistent.inside other
    rw [free] at held
    dsimp only
    rw [setWorker_workers]
    split
    · simp [‹other = worker›]
    · rename_i different
      simpa [Ne.symm different] using held

theorem Consistent.unlockServer (consistent : Consistent run) {worker : Worker} {serverCalls : Nat}
    (inside : run.workers worker = .inside serverCalls) :
    Consistent { run.setWorker worker (.body serverCalls false) with serverMutex := none } := by
  have outside := consistent.outside inside (by simp)
  have holds := (consistent.inside worker).mpr ⟨serverCalls, inside⟩
  refine ⟨consistent.orderly, consistent.accounted, ?_, ?_, consistent.finished, ?_,
    by simp, consistent.tasksRun, by simp, consistent.viewing⟩
  · intro other entered
    dsimp only
    rw [setWorker_workers, if_neg]
    · exact consistent.calling other entered
    · rintro rfl
      exact entered outside
  · intro other hasJoined
    have ended := consistent.joined other hasJoined
    dsimp only
    rw [setWorker_workers, if_neg]
    · exact ended
    · rintro rfl
      cases inside.symm.trans ended
  · intro other
    have held := consistent.inside other
    rw [holds] at held
    dsimp only
    rw [setWorker_workers]
    split
    · simp
    · rename_i different
      simpa [Ne.symm different] using held

theorem Consistent.continue (consistent : Consistent run) {action : ControlAction Worker}
    {control : ExecutionControl Worker} (continues : action.Continues)
    (noTask : ∀ executioner, action = .leave executioner → run.openTasks = 0)
    (step : run.control.Step action control) : Consistent { run with control := control } := by
  refine ⟨consistent.orderly.step step, consistent.accounted.step consistent.orderly step, ?_,
    consistent.joined, ?_, consistent.inside, consistent.task, ?_, consistent.view, ?_⟩
  · intro worker entered
    exact consistent.calling worker (step.entered continues entered)
  · intro returned
    have outside : ∀ worker, run.control.calls worker = .outside := fun worker =>
      consistent.outside (consistent.joined worker (by rw [returned]; cases worker <;> rfl)) (by simp)
    exact absurd step
      (consistent.accounted.no_step outside (consistent.finished returned) continues)
  · intro some
    obtain ⟨executioner, running⟩ := consistent.tasksRun some
    refine ⟨executioner, ?_⟩
    rcases step.executioners executioner with
        same | ⟨_, phase⟩ | ⟨isLeave, _⟩ | ⟨returned, _⟩ | ⟨cleared, _⟩
    · exact same.trans running
    · exact phase
    · exact absurd (noTask executioner isLeave) some.ne'
    · cases running.symm.trans returned
    · cases running.symm.trans cleared
  · intro viewing
    refine (step.terminator ?_).trans (consistent.viewing viewing)
    rintro rfl
    exact continues

theorem Consistent.store (consistent : Consistent run) {control : ExecutionControl Worker}
    (step : run.control.Step .stop control) {phase : RunPhase}
    (joined : ∀ worker, phase.hasJoined worker = false) (unfinished : phase ≠ .returned)
    (noView : run.serverMutex ≠ some .view) (left : phase ≠ .viewing) :
    Consistent { run with control := control, phase := phase } := by
  cases step with
  | stop =>
      refine ⟨consistent.orderly.step .stop, consistent.accounted.step consistent.orderly .stop,
        consistent.calling, ?_, fun returned => absurd returned unfinished, consistent.inside,
        consistent.task, consistent.tasksRun, fun holds => absurd holds noView,
        fun viewing => absurd viewing left⟩
      intro worker hasJoined
      rw [joined worker] at hasJoined
      cases hasJoined

/-- `run` moves on, and has left the view. -/
theorem Consistent.setPhase (consistent : Consistent run) {phase : RunPhase}
    (joined : ∀ worker, phase.hasJoined worker = true → run.workers worker = .ended)
    (finished : phase = .returned → ∀ executioner, run.control.executionThread = some executioner →
      run.control.executioners executioner = .ended)
    (noView : run.serverMutex ≠ some .view) (left : phase ≠ .viewing) :
    Consistent { run with phase := phase } :=
  ⟨consistent.orderly, consistent.accounted, consistent.calling, joined, finished,
    consistent.inside, consistent.task, consistent.tasksRun, fun holds => absurd holds noView,
    fun viewing => absurd viewing left⟩

/-- A task or the view takes the mutex, or gives it back. -/
theorem Consistent.setMutex (consistent : Consistent run) {holder : Option MutexHolder}
    {openTasks : Nat} (notBefore : ∀ worker, run.serverMutex ≠ some (.worker worker))
    (notAfter : ∀ worker, holder ≠ some (.worker worker))
    (task : holder = some .task → 0 < openTasks)
    (fewer : 0 < openTasks → ∃ executioner, run.control.executioners executioner = .running)
    (view : holder = some .view → run.phase = .viewing) :
    Consistent { run with serverMutex := holder, openTasks := openTasks } := by
  refine ⟨consistent.orderly, consistent.accounted, consistent.calling, consistent.joined,
    consistent.finished, ?_, task, fewer, view, consistent.viewing⟩
  intro worker
  rw [← consistent.inside worker]
  exact ⟨fun holds => absurd holds (notAfter worker), fun holds => absurd holds (notBefore worker)⟩

/-- Outside the view the mutex is not held by it. -/
theorem Consistent.noView (consistent : Consistent run) {phase : RunPhase}
    (here : run.phase = phase) (left : phase ≠ .viewing) : run.serverMutex ≠ some .view :=
  fun holds => left (here.symm.trans (consistent.view holds))

theorem Consistent.step (consistent : Consistent run) (step : Step run after) :
    Consistent after := by
  cases step with
  | loadTrue worker head _ =>
      exact consistent.setWorker (consistent.outside head (by simp)) (by simp [head]) (by simp [head])
        (by simp)
  | loadFalse worker head _ =>
      exact consistent.setWorker (consistent.outside head (by simp)) (by simp [head]) (by simp [head])
        (by simp)
  | callServer worker body =>
      exact consistent.setWorker (consistent.outside body (by simp)) (by simp [body]) (by simp [body])
        (by simp)
  | lockServer worker waiting free => exact consistent.lockServer waiting free
  | unlockServer worker inside => exact consistent.unlockServer inside
  | @call worker serverCalls control body step =>
      have moved : Consistent (run.setWorker worker (.body serverCalls true)) :=
        consistent.setWorker (consistent.outside body (by simp)) (by simp [body]) (by simp [body])
          (by simp)
      cases step with
      | call _ outside =>
          refine ⟨moved.orderly.step (.call worker outside),
            moved.accounted.step moved.orderly (.call worker outside), ?_, moved.joined,
            moved.finished, moved.inside, moved.task, moved.tasksRun, moved.view, moved.viewing⟩
          intro other entered
          dsimp only at entered
          rw [setCall_calls] at entered
          split at entered
          · rename_i same
            rw [same]
            exact ⟨serverCalls, (setWorker_workers _ _ _ _).trans (if_pos rfl)⟩
          · exact moved.calling other entered
  | «continue» action continues noTask step => exact consistent.continue continues noTask step
  | endRound worker body outside =>
      exact consistent.setWorker outside (by simp [body]) (by simp [body]) (by simp)
  | openWave executioner tasks running _ =>
      exact ⟨consistent.orderly, consistent.accounted, consistent.calling, consistent.joined,
        consistent.finished, consistent.inside, fun holds => Nat.add_pos_left (consistent.task holds) _,
        fun _ => ⟨executioner, running⟩, consistent.view, consistent.viewing⟩
  | lockTask some free =>
      exact consistent.setMutex (by simp [free]) (by simp) (fun _ => some) consistent.tasksRun (by simp)
  | endTask held =>
      refine consistent.setMutex (by simp [held]) (by simp) (by simp) ?_ (by simp)
      exact fun some => consistent.tasksRun (Nat.lt_of_lt_of_le some (Nat.sub_le _ _))
  | lockView phase free =>
      exact consistent.setMutex (by simp [free]) (by simp) (by simp) consistent.tasksRun (fun _ => phase)
  | unlockView held =>
      exact consistent.setMutex (by simp [held]) (by simp) (by simp) consistent.tasksRun (by simp)
  | viewStores _ noView step =>
      exact consistent.store step (fun worker => by cases worker <;> rfl) (by simp) noView (by simp)
  | noView _ noView =>
      refine consistent.setPhase ?_ (by simp) noView (by simp)
      intro worker impossible
      cases worker <;> cases impossible
  | runStores phase step =>
      exact consistent.store step (fun worker => by cases worker <;> rfl) (by simp)
        (consistent.noView phase (by simp)) (by simp)
  | joinRequestThread phase ended =>
      refine consistent.setPhase ?_ (by simp) (consistent.noView phase (by simp)) (by simp)
      intro worker hasJoined
      cases worker with
      | requestThread => exact ended
      | scheduleThread => cases hasJoined
  | joinScheduleThread phase ended =>
      refine consistent.setPhase ?_ (by simp) (consistent.noView phase (by simp)) (by simp)
      intro worker _
      cases worker with
      | requestThread => exact consistent.joined .requestThread (by rw [phase]; rfl)
      | scheduleThread => exact ended
  | joinExecutionThread phase held ended =>
      refine consistent.setPhase ?_ ?_ (consistent.noView phase (by simp)) (by simp)
      · intro worker _
        exact consistent.joined worker (by rw [phase]; cases worker <;> rfl)
      · intro _ other otherHeld
        exact Option.some.inj (held.symm.trans otherHeld) ▸ ended
  | noExecutionThread phase none =>
      refine consistent.setPhase ?_ ?_ (consistent.noView phase (by simp)) (by simp)
      · intro worker _
        exact consistent.joined worker (by rw [phase]; cases worker <;> rfl)
      · intro _ other held
        exact absurd (none.symm.trans held) (by simp)

theorem Reachable.consistent (reachable : Reachable run) : Consistent run :=
  Transition.invariant_of_reflTransGen (fun _ _ consistent moves => consistent.step moves.2)
    consistent_initial reachable

/-- When `run` returns, whatever the threads did before: both loops have ended,
every executioner has, and no thread of the server can take another step. -/
theorem run_returns_alone (reachable : Reachable run) (returned : run.phase = .returned) :
    (∀ worker, run.workers worker = .ended ∧ run.control.calls worker = .outside) ∧
    (∀ executioner, run.control.executioners executioner = .absent ∨
      run.control.executioners executioner = .ended) ∧
    run.control.executionRunning = false ∧ ∀ after, ¬ Step run after := by
  have consistent := reachable.consistent
  have ended : ∀ worker, run.workers worker = .ended := fun worker =>
    consistent.joined worker (by rw [returned]; cases worker <;> rfl)
  have outside : ∀ worker, run.control.calls worker = .outside :=
    fun worker => consistent.outside (ended worker) (by simp)
  have threads : ∀ executioner, run.control.executioners executioner = .absent ∨
      run.control.executioners executioner = .ended := by
    intro executioner
    by_cases absent : run.control.executioners executioner = .absent
    · exact .inl absent
    · refine .inr ?_
      by_contra unended
      exact unended (consistent.finished returned executioner
        (consistent.accounted.unended executioner absent unended))
  refine ⟨fun worker => ⟨ended worker, outside worker⟩, threads, ?_, ?_⟩
  · by_contra running
    rcases consistent.orderly.running (by simpa using running) with ⟨executioner, active⟩ | calling
    · rcases threads executioner with absent | isEnded
      · rw [absent] at active
        cases active
      · rw [isEnded] at active
        cases active
    · obtain ⟨worker, emplacing⟩ := calling
      cases (outside worker).symm.trans emplacing
  · intro after step
    have gone : ∀ {worker : Worker} {phase : WorkerPhase}, run.workers worker = phase →
        phase ≠ .ended → False := by
      intro worker phase here unended
      exact unended (here.symm.trans (ended worker))
    have noneRuns : ∀ executioner, run.control.executioners executioner ≠ .running := by
      intro executioner running
      rcases threads executioner with absent | isEnded
      · cases running.symm.trans absent
      · cases running.symm.trans isEnded
    cases step with
    | loadTrue _ head _ => exact gone head (by simp)
    | loadFalse _ head _ => exact gone head (by simp)
    | callServer _ body => exact gone body (by simp)
    | lockServer _ waiting _ => exact gone waiting (by simp)
    | unlockServer _ inside => exact gone inside (by simp)
    | call _ body _ => exact gone body (by simp)
    | «continue» _ continues _ step =>
        exact consistent.accounted.no_step outside (consistent.finished returned) continues step
    | endRound _ body _ => exact gone body (by simp)
    | openWave executioner _ running _ => exact noneRuns executioner running
    | lockTask some _ =>
        obtain ⟨executioner, running⟩ := consistent.tasksRun some
        exact noneRuns executioner running
    | endTask held =>
        obtain ⟨executioner, running⟩ := consistent.tasksRun (consistent.task held)
        exact noneRuns executioner running
    | lockView phase _ => cases phase.symm.trans returned
    | unlockView held => cases (consistent.view held).symm.trans returned
    | viewStores phase _ _ => cases phase.symm.trans returned
    | noView phase _ => cases phase.symm.trans returned
    | runStores phase _ => cases phase.symm.trans returned
    | joinRequestThread phase _ => cases phase.symm.trans returned
    | joinScheduleThread phase _ => cases phase.symm.trans returned
    | joinExecutionThread phase _ _ => cases phase.symm.trans returned
    | noExecutionThread phase _ => cases phase.symm.trans returned

/-- The request thread starts an executioner, and the view is left while a task
holds the mutex; `run` goes on to its return. -/
theorem reachable_stopping : ∃ run after : ShyguyRun, Reachable run ∧
    run.control.terminator = false ∧ run.control.executioners 0 = .running ∧
    run.serverMutex = some .task ∧
    Relation.ReflTransGen Moves run after ∧ after.phase = .returned ∧
    after.control.executioners 0 = .ended := by
  refine ⟨_, _, .tail (.tail (.tail (.tail (.tail (.tail (.tail (.tail (.tail (.tail (.tail (.tail
    (.tail (.tail (.tail .refl
    ⟨rfl, .loadTrue .requestThread rfl rfl⟩)
    ⟨rfl, .callServer .requestThread rfl⟩)
    ⟨rfl, .lockServer .requestThread rfl rfl⟩)
    ⟨rfl, .unlockServer .requestThread rfl⟩)
    ⟨rfl, .call .requestThread rfl (.call _ rfl)⟩)
    ⟨rfl, .continue (.loadTerminator .requestThread) trivial (by simp) (.loadTerminator _ rfl)⟩)
    ⟨rfl, .continue (.lock .requestThread) trivial (by simp) (.lock _ rfl rfl)⟩)
    ⟨rfl, .continue (.firstLoad .requestThread) trivial (by simp) (.firstLoad _ rfl)⟩)
    ⟨rfl, .continue (.secondLoad .requestThread) trivial (by simp) (.secondLoadFalse _ rfl rfl)⟩)
    ⟨rfl, .continue (.store .requestThread) trivial (by simp) (.store _ rfl)⟩)
    ⟨rfl, .continue (.emplace .requestThread) trivial (by simp) (.emplace _ rfl)⟩)
    ⟨rfl, .endRound .requestThread rfl rfl⟩)
    ⟨rfl, .openWave 0 1 rfl rfl⟩)
    ⟨rfl, .lockTask Nat.one_pos rfl⟩)
    ⟨rfl, .viewStores rfl (by simp) .stop⟩, rfl, rfl, rfl,
    .tail (.tail (.tail (.tail (.tail (.tail (.tail (.tail (.tail (.tail .refl
    ⟨rfl, .runStores rfl .stop⟩)
    ⟨rfl, .loadFalse .requestThread rfl rfl⟩)
    ⟨rfl, .loadFalse .scheduleThread rfl rfl⟩)
    ⟨rfl, .joinRequestThread rfl rfl⟩)
    ⟨rfl, .joinScheduleThread rfl rfl⟩)
    ⟨rfl, .endTask rfl⟩)
    ⟨rfl, .continue (.leave 0) trivial (fun _ _ => rfl) (.leave 0 rfl)⟩)
    ⟨rfl, .continue (.clear 0) trivial (by simp) (.clear 0 rfl)⟩)
    ⟨rfl, .continue (.finish 0) trivial (by simp) (.finish 0 rfl)⟩)
    ⟨rfl, .joinExecutionThread rfl rfl rfl⟩, rfl, rfl⟩

theorem run_returns_alone_once : ∃ run : ShyguyRun, Reachable run ∧
    run.control.executioners 0 = .ended ∧ ∀ after, ¬ Step run after := by
  obtain ⟨_, run, reachable, _, _, _, moved, returned, ended⟩ := reachable_stopping
  exact ⟨run, reachable.trans moved, ended,
    (run_returns_alone (reachable.trans moved) returned).2.2.2⟩

end ShyguyRun

end BabyLuigi
