import BabyLuigi.ExecutionControl

/-! How many executioners run at a time, and when a thread that was not joined
is overwritten. -/

set_option autoImplicit false

namespace BabyLuigi.ExecutionControl

variable {Caller : Type} {control after : ExecutionControl Caller}

/-- What holds in every interleaving. -/
structure Orderly (control : ExecutionControl Caller) : Prop where
  exclusive : ∀ caller, (control.calls caller).inside = true →
    control.executionMutex = some caller
  fresh : ∀ executioner, control.started ≤ executioner →
    control.executioners executioner = .absent
  active : ∀ executioner, (control.executioners executioner).active = true →
    control.executionRunning = true ∧ control.executionThread = some executioner ∧
      ∀ caller, control.calls caller ≠ .storing ∧ control.calls caller ≠ .emplacing
  running : control.executionRunning = true →
    (∃ executioner, (control.executioners executioner).active = true) ∨
      ∃ caller, control.calls caller = .emplacing
  stored : ∀ caller, control.calls caller = .emplacing → control.executionRunning = true
  joined : ∀ caller, control.calls caller = .tested false → control.executionThread = none
  held : ∀ caller, control.calls caller = .tested true →
    ∃ executioner, control.executionThread = some executioner

theorem orderly_initial : (initial : ExecutionControl Caller).Orderly where
  exclusive _ inside := by cases inside
  fresh _ _ := rfl
  active _ active := by cases active
  running running := by cases running
  stored _ impossible := by cases impossible
  joined _ impossible := by cases impossible
  held _ impossible := by cases impossible

/-- Two calls are never under the mutex together. -/
theorem Orderly.same_caller (orderly : Orderly control) {first second : Caller}
    (firstInside : (control.calls first).inside = true)
    (secondInside : (control.calls second).inside = true) : first = second :=
  Option.some.inj ((orderly.exclusive first firstInside).symm.trans
    (orderly.exclusive second secondInside))

theorem Orderly.setMutex (orderly : Orderly control) {holder : Option Caller}
    (exclusive : ∀ caller, (control.calls caller).inside = true → holder = some caller) :
    Orderly { control with executionMutex := holder } where
  exclusive := exclusive
  fresh := orderly.fresh
  active := orderly.active
  running := orderly.running
  stored := orderly.stored
  joined := orderly.joined
  held := orderly.held

theorem Orderly.dropThread (orderly : Orderly control)
    (inactive : ∀ executioner, (control.executioners executioner).active = false)
    (noTest : ∀ caller, control.calls caller ≠ .tested true) :
    Orderly { control with executionThread := none } where
  exclusive := orderly.exclusive
  fresh := orderly.fresh
  active executioner isActive := by
    rw [inactive executioner] at isActive
    cases isActive
  running := orderly.running
  stored := orderly.stored
  joined _ _ := rfl
  held caller tested := absurd tested (noTest caller)

/-- A thread goes on without clearing the flag. -/
theorem Orderly.setExecutioner (orderly : Orderly control) {executioner : Nat}
    {phase : ExecutionerPhase} (present : control.executioners executioner ≠ .absent)
    (same : phase.active = (control.executioners executioner).active) :
    Orderly (control.setExecutioner executioner phase) := by
  have keeps : ∀ other, ((control.setExecutioner executioner phase).executioners other).active =
      (control.executioners other).active := by
    intro other
    rw [setExecutioner_executioners]
    split
    · rw [‹other = executioner›, same]
    · rfl
  refine ⟨orderly.exclusive, ?_, ?_, ?_, orderly.stored, orderly.joined, orderly.held⟩
  · intro other unstarted
    rw [setExecutioner_executioners, if_neg]
    · exact orderly.fresh other unstarted
    · intro named
      exact present (orderly.fresh executioner (named ▸ unstarted))
  · intro other isActive
    exact orderly.active other (keeps other ▸ isActive)
  · intro isRunning
    rcases orderly.running isRunning with ⟨other, isActive⟩ | emplacing
    · exact .inl ⟨other, (keeps other).trans isActive⟩
    · exact .inr emplacing

/-- The only active thread clears the flag. -/
theorem Orderly.clear (orderly : Orderly control) {executioner : Nat}
    (returned : control.executioners executioner = .returned) :
    Orderly { control.setExecutioner executioner .cleared with executionRunning := false } := by
  obtain ⟨_, held, noCall⟩ := orderly.active executioner (by rw [returned]; rfl)
  have inactive : ∀ other,
      ((control.setExecutioner executioner .cleared).executioners other).active = false := by
    intro other
    rw [setExecutioner_executioners]
    split
    · rfl
    · rename_i different
      by_contra isActive
      rw [Bool.not_eq_false] at isActive
      exact different (Option.some.inj ((orderly.active other isActive).2.1.symm.trans held))
  refine ⟨orderly.exclusive, ?_, ?_, ?_, ?_, orderly.joined, orderly.held⟩
  · intro other unstarted
    dsimp only
    rw [setExecutioner_executioners, if_neg]
    · exact orderly.fresh other unstarted
    · intro named
      have absent := orderly.fresh executioner (named ▸ unstarted)
      rw [returned] at absent
      cases absent
  · intro other isActive
    exact absurd (inactive other) (by rw [isActive]; simp)
  · intro impossible
    cases impossible
  · intro caller emplacing
    exact absurd emplacing (noCall caller).2

/-! ### One step -/

section Steps

variable [DecidableEq Caller] {action : ControlAction Caller}

/-- The three ways a call returns. -/
theorem Step.returns {caller : Caller} (step : Step control action after)
    (before : control.calls caller ≠ .outside) (outside : after.calls caller = .outside) :
    (action = .loadTerminator caller ∧ control.terminator = false) ∨
    (action = .secondLoad caller ∧ control.executionRunning = true) ∨
    (action = .emplace caller ∧ after.executioners control.started = .running) := by
  have moved : ∀ {other : Caller} {phase : EnsurePhase},
      (control.setCall other phase).calls caller = .outside → caller = other ∧ phase = .outside := by
    intro other phase same
    rw [setCall_calls] at same
    split at same
    · exact ⟨‹caller = other›, same⟩
    · exact absurd same before
  cases step with
  | call other _ => cases (moved outside).2
  | loadTerminator other _ =>
      obtain ⟨rfl, returned⟩ := moved outside
      refine .inl ⟨rfl, ?_⟩
      split at returned
      · cases returned
      · simpa using ‹¬ control.terminator = true›
  | lock other _ _ => cases (moved outside).2
  | firstLoad other _ =>
      have returned := (moved outside).2
      unfold afterFirstLoad at returned
      split at returned
      · cases returned
      · split at returned <;> cases returned
  | join other _ _ _ => cases (moved outside).2
  | secondLoadTrue other _ isRunning =>
      obtain ⟨rfl, _⟩ := moved outside
      exact .inr (.inl ⟨rfl, isRunning⟩)
  | secondLoadFalse other _ _ => cases (moved outside).2
  | store other _ => cases (moved outside).2
  | emplace other _ =>
      unfold ExecutionControl.emplace at outside ⊢
      split at outside
      · exact absurd outside before
      · obtain ⟨rfl, _⟩ := moved outside
        exact .inr (.inr ⟨rfl, Function.update_self ..⟩)
  | leave _ _ => exact absurd outside before
  | clear _ _ => exact absurd outside before
  | finish _ _ => exact absurd outside before
  | stop => exact absurd outside before

/-- What a step does to the phase of an executioner. -/
theorem Step.executioners (step : Step control action after) (executioner : Nat) :
    after.executioners executioner = control.executioners executioner ∨
    (executioner = control.started ∧ after.executioners executioner = .running) ∨
    (action = .leave executioner ∧ after.executioners executioner = .returned) ∨
    (control.executioners executioner = .returned ∧
      after.executioners executioner = .cleared) ∨
    (control.executioners executioner = .cleared ∧ after.executioners executioner = .ended) := by
  by_cases same : after.executioners executioner = control.executioners executioner
  · exact .inl same
  · have moved : ∀ {other : Nat} {phase : ExecutionerPhase},
        (control.setExecutioner other phase).executioners executioner ≠
          control.executioners executioner →
        executioner = other ∧ (control.setExecutioner other phase).executioners executioner = phase := by
      intro other phase changed
      rw [setExecutioner_executioners] at changed ⊢
      split at changed
      · exact ⟨‹executioner = other›, if_pos ‹executioner = other›⟩
      · exact absurd rfl changed
    cases step with
    | emplace other _ =>
        unfold ExecutionControl.emplace at same ⊢
        split at same
        · exact absurd rfl same
        · exact .inr (.inl (moved same))
    | leave other isRunning =>
        obtain ⟨rfl, phase⟩ := moved same
        exact .inr (.inr (.inl ⟨rfl, phase⟩))
    | clear other returned =>
        obtain ⟨rfl, phase⟩ := moved same
        exact .inr (.inr (.inr (.inl ⟨returned, phase⟩)))
    | finish other cleared =>
        obtain ⟨rfl, phase⟩ := moved same
        exact .inr (.inr (.inr (.inr ⟨cleared, phase⟩)))
    | _ => exact absurd rfl same

theorem Step.terminator (step : Step control action after) (notStopped : action ≠ .stop) :
    after.terminator = control.terminator := by
  cases step with
  | emplace _ _ =>
      unfold ExecutionControl.emplace
      split <;> rfl
  | stop => exact absurd rfl notStopped
  | _ => rfl

end Steps

def AtMostOneInside (control : ExecutionControl Caller) : Prop :=
  ∀ first second, control.executioners first = .running → control.executioners second = .running →
    first = second

/-- No interleaving has two executioners inside `run_until_idle`. -/
theorem Orderly.atMostOneInside (orderly : Orderly control) : AtMostOneInside control := by
  intro first second firstRunning secondRunning
  have firstHeld := (orderly.active first (by rw [firstRunning]; rfl)).2.1
  have secondHeld := (orderly.active second (by rw [secondRunning]; rfl)).2.1
  exact Option.some.inj (firstHeld.symm.trans secondHeld)

variable [DecidableEq Caller] {action : ControlAction Caller}

/-- After a call has left the mutex, no call is under it. -/
theorem Orderly.leaves_mutex (orderly : Orderly control) {caller : Caller}
    (inside : (control.calls caller).inside = true) {other : Caller} {phase : EnsurePhase}
    (phaseInside : phase.inside = true) : (control.setCall caller .outside).calls other ≠ phase := by
  intro same
  rw [setCall_calls] at same
  split at same
  · rw [← same] at phaseInside
    cases phaseInside
  · rename_i notSame
    exact notSame (orderly.same_caller (by rw [same]; exact phaseInside) inside)

/-- A call goes on without a store. -/
theorem Orderly.setCall (orderly : Orderly control) {caller : Caller} {phase : EnsurePhase}
    (before : control.calls caller ≠ .emplacing) (notEmplacing : phase ≠ .emplacing)
    (inside : phase.inside = true → control.executionMutex = some caller)
    (storing : phase = .storing → control.executionRunning = false)
    (joined : phase = .tested false → control.executionThread = none)
    (held : phase = .tested true → ∃ executioner, control.executionThread = some executioner) :
    Orderly (control.setCall caller phase) := by
  refine ⟨?_, orderly.fresh, ?_, ?_, ?_, ?_, ?_⟩
  · intro other isInside
    rw [setCall_calls] at isInside
    split at isInside
    · exact ‹other = caller› ▸ inside isInside
    · exact orderly.exclusive other isInside
  · intro executioner isActive
    obtain ⟨isRunning, isHeld, noCall⟩ := orderly.active executioner isActive
    refine ⟨isRunning, isHeld, ?_⟩
    intro other
    rw [setCall_calls]
    split
    · refine ⟨?_, notEmplacing⟩
      intro isStoring
      exact absurd (storing isStoring) (by rw [isRunning]; simp)
    · exact noCall other
  · intro isRunning
    rcases orderly.running isRunning with isActive | ⟨other, emplacing⟩
    · exact .inl isActive
    · refine .inr ⟨other, ?_⟩
      rw [setCall_calls, if_neg]
      · exact emplacing
      · intro same
        exact before (same ▸ emplacing)
  · intro other emplacing
    rw [setCall_calls] at emplacing
    split at emplacing
    · exact absurd emplacing notEmplacing
    · exact orderly.stored other emplacing
  · intro other tested
    rw [setCall_calls] at tested
    split at tested
    · exact joined tested
    · exact orderly.joined other tested
  · intro other tested
    rw [setCall_calls] at tested
    split at tested
    · exact held tested
    · exact orderly.held other tested

theorem Orderly.store (orderly : Orderly control) {caller : Caller}
    (storing : control.calls caller = .storing) :
    Orderly { control.setCall caller .emplacing with executionRunning := true } := by
  have inside : (control.calls caller).inside = true := by rw [storing]; rfl
  have others : ∀ {other : Caller} {phase : EnsurePhase}, phase.inside = true →
      phase ≠ .emplacing → (control.setCall caller .emplacing).calls other ≠ phase := by
    intro other phase phaseInside different same
    rw [setCall_calls] at same
    split at same
    · exact different same.symm
    · rename_i notSame
      exact notSame (orderly.same_caller (by rw [same]; exact phaseInside) inside)
  refine ⟨?_, orderly.fresh, ?_, ?_, fun _ _ => rfl, ?_, ?_⟩
  · intro other isInside
    dsimp only at isInside ⊢
    rw [setCall_calls] at isInside
    split at isInside
    · exact ‹other = caller› ▸ orderly.exclusive caller inside
    · exact orderly.exclusive other isInside
  · intro executioner isActive
    exact absurd storing ((orderly.active executioner isActive).2.2 caller).1
  · intro _
    exact .inr ⟨caller, by dsimp only; rw [setCall_calls, if_pos rfl]⟩
  · intro other tested
    exact absurd tested (others rfl (by simp))
  · intro other tested
    exact absurd tested (others rfl (by simp))

theorem Orderly.emplace (orderly : Orderly control) {caller : Caller}
    (emplacing : control.calls caller = .emplacing) : Orderly (control.emplace caller) := by
  unfold ExecutionControl.emplace
  split
  · exact ⟨orderly.exclusive, orderly.fresh, orderly.active, orderly.running, orderly.stored,
      orderly.joined, orderly.held⟩
  · have nobody : ∀ other phase, phase.inside = true →
        (control.setCall caller .outside).calls other ≠ phase :=
      fun _ _ => orderly.leaves_mutex (by rw [emplacing]; rfl)
    refine ⟨?_, ?_, ?_, ?_, ?_, ?_, ?_⟩
    · intro other isInside
      exact absurd rfl (nobody other _ isInside)
    · intro executioner unstarted
      dsimp only at unstarted ⊢
      rw [Function.update_of_ne (by omega)]
      exact orderly.fresh executioner (by omega)
    · intro executioner isActive
      have named : executioner = control.started := by
        by_contra different
        dsimp only at isActive
        rw [Function.update_of_ne different] at isActive
        exact ((orderly.active executioner isActive).2.2 caller).2 emplacing
      refine ⟨orderly.stored caller emplacing, congrArg some named.symm, ?_⟩
      intro other
      exact ⟨nobody other _ rfl, nobody other _ rfl⟩
    · intro _
      exact .inl ⟨control.started, by dsimp only; rw [Function.update_self]; rfl⟩
    · intro other impossible
      exact absurd impossible (nobody other _ rfl)
    · intro other impossible
      exact absurd impossible (nobody other _ rfl)
    · intro other impossible
      exact absurd impossible (nobody other _ rfl)

theorem Orderly.step (orderly : Orderly control) (step : Step control action after) :
    Orderly after := by
  cases step with
  | call caller outside =>
      apply orderly.setCall <;> simp [outside, EnsurePhase.inside]
  | loadTerminator caller called =>
      apply orderly.setCall
      · simp [called]
      all_goals
        split <;> simp [EnsurePhase.inside]
  | lock caller entering free =>
      have nobody : ∀ other, (control.calls other).inside = true → some caller = some other := by
        intro other inside
        rw [orderly.exclusive other inside] at free
        cases free
      exact (orderly.setMutex nobody).setCall (by simp [entering]) (by simp) (fun _ => rfl) (by simp)
        (by simp) (by simp)
  | firstLoad caller locked =>
      have inside := orderly.exclusive caller (by rw [locked]; rfl)
      unfold afterFirstLoad
      split
      · apply orderly.setCall <;> simp [*]
      · split
        · apply orderly.setCall <;> simp [*]
        · apply orderly.setCall <;> simp [*]
  | join caller joining isHeld isEnded =>
      have inside : (control.calls caller).inside = true := by rw [joining]; rfl
      have inactive : ∀ other, (control.executioners other).active = false := by
        intro other
        by_contra isActive
        rw [Bool.not_eq_false] at isActive
        obtain rfl := Option.some.inj ((orderly.active other isActive).2.1.symm.trans isHeld)
        rw [isEnded] at isActive
        cases isActive
      have noTest : ∀ other, control.calls other ≠ .tested true := by
        intro other tested
        obtain rfl := orderly.same_caller (by rw [tested]; rfl) inside
        rw [joining] at tested
        cases tested
      exact (orderly.dropThread inactive noTest).setCall (by simp [joining]) (by simp)
        (fun _ => orderly.exclusive caller inside) (by simp) (fun _ => rfl) (by simp)
  | secondLoadTrue caller tested isRunning =>
      have inside : (control.calls caller).inside = true := by rw [tested]; rfl
      have outside : Orderly (control.setCall caller .outside) := by
        apply orderly.setCall <;> simp [tested, EnsurePhase.inside]
      apply outside.setMutex
      intro other otherInside
      rw [setCall_calls] at otherInside
      split at otherInside
      · cases otherInside
      · exact absurd (orderly.same_caller otherInside inside) ‹_›
  | secondLoadFalse caller tested notRunning =>
      have inside := orderly.exclusive caller (by rw [tested]; rfl)
      apply orderly.setCall <;> simp [tested, inside, notRunning]
  | store caller storing => exact orderly.store storing
  | emplace caller emplacing => exact orderly.emplace emplacing
  | leave executioner isRunning =>
      apply orderly.setExecutioner <;> simp [isRunning, ExecutionerPhase.active]
  | clear executioner returned => exact orderly.clear returned
  | finish executioner cleared =>
      apply orderly.setExecutioner <;> simp [cleared, ExecutionerPhase.active]
  | stop =>
      exact ⟨orderly.exclusive, orderly.fresh, orderly.active, orderly.running, orderly.stored,
        orderly.joined, orderly.held⟩

theorem Run.orderly {admits : ExecutionControl Caller → ControlAction Caller → Prop}
    (run : Run admits control) : Orderly control := by
  induction run with
  | start => exact orderly_initial
  | step _ _ _ step ih => exact ih.step step

/-! ### Overwritten threads -/

/-- No executioner clears the flag between the two loads of a call whose first
load found it set. -/
def ClearsOutsideTests (control : ExecutionControl Caller) (action : ControlAction Caller) : Prop :=
  ∀ executioner, action = .clear executioner → ∀ caller, control.calls caller ≠ .tested true

/-- What the condition adds: a call that saw the flag set still sees it, and
one that starts a thread holds none. -/
structure Joined (control : ExecutionControl Caller) : Prop where
  stillRunning : ∀ caller, control.calls caller = .tested true → control.executionRunning = true
  noThread : ∀ caller, control.calls caller = .storing ∨ control.calls caller = .emplacing →
    control.executionThread = none
  notAborted : control.aborted = false

theorem Joined.setCall (joined : Joined control) {caller : Caller} {phase : EnsurePhase}
    (tested : phase = .tested true → control.executionRunning = true)
    (starting : phase = .storing ∨ phase = .emplacing → control.executionThread = none) :
    Joined (control.setCall caller phase) := by
  refine ⟨?_, ?_, joined.notAborted⟩
  · intro other isTested
    rw [setCall_calls] at isTested
    split at isTested
    · exact tested isTested
    · exact joined.stillRunning other isTested
  · intro other isStarting
    rw [setCall_calls] at isStarting
    split at isStarting
    · exact starting isStarting
    · exact joined.noThread other isStarting

theorem Joined.emplace (joined : Joined control) (orderly : Orderly control) {caller : Caller}
    (emplacing : control.calls caller = .emplacing) : Joined (control.emplace caller) := by
  have nobody : ∀ other phase, phase.inside = true →
      (control.setCall caller .outside).calls other ≠ phase :=
    fun _ _ => orderly.leaves_mutex (by rw [emplacing]; rfl)
  unfold ExecutionControl.emplace
  rw [joined.noThread caller (.inr emplacing)]
  refine ⟨?_, ?_, joined.notAborted⟩
  · intro other tested
    exact absurd tested (nobody other _ rfl)
  · intro other starting
    rcases starting with storing | otherEmplacing
    · exact absurd storing (nobody other _ rfl)
    · exact absurd otherEmplacing (nobody other _ rfl)

theorem Joined.step (joined : Joined control) (orderly : Orderly control)
    (clears : ClearsOutsideTests control action) (step : Step control action after) :
    Joined after := by
  cases step with
  | call caller _ => apply joined.setCall <;> simp
  | loadTerminator caller _ =>
      apply joined.setCall
      all_goals
        split <;> simp
  | lock caller _ _ =>
      have outside : Joined { control with executionMutex := some caller } :=
        ⟨joined.stillRunning, joined.noThread, joined.notAborted⟩
      exact outside.setCall (by simp) (by simp)
  | firstLoad caller _ =>
      unfold afterFirstLoad
      split
      · apply joined.setCall <;> simp
      · split
        · apply joined.setCall <;> simp [*]
        · apply joined.setCall <;> simp
  | join caller _ _ _ =>
      have dropped : Joined { control with executionThread := none } :=
        ⟨joined.stillRunning, fun _ _ => rfl, joined.notAborted⟩
      exact dropped.setCall (by simp) (by simp)
  | secondLoadTrue caller _ _ =>
      have released : Joined (control.setCall caller .outside) := by
        apply joined.setCall <;> simp
      exact ⟨released.stillRunning, released.noThread, released.notAborted⟩
  | @secondLoadFalse caller sawRunning tested notRunning =>
      have sawNothing : sawRunning = false := by
        by_contra sawSomething
        rw [Bool.not_eq_false] at sawSomething
        rw [joined.stillRunning caller (sawSomething ▸ tested)] at notRunning
        cases notRunning
      apply joined.setCall
      · simp
      · intro _
        exact orderly.joined caller (sawNothing ▸ tested)
  | store caller storing =>
      have nothing := joined.noThread caller (.inl storing)
      have moved : Joined (control.setCall caller .emplacing) := by
        apply joined.setCall <;> simp [nothing]
      exact ⟨fun _ _ => rfl, moved.noThread, moved.notAborted⟩
  | emplace caller emplacing => exact joined.emplace orderly emplacing
  | leave _ _ => exact ⟨joined.stillRunning, joined.noThread, joined.notAborted⟩
  | clear executioner _ =>
      refine ⟨?_, joined.noThread, joined.notAborted⟩
      intro caller tested
      exact absurd tested (clears executioner rfl caller)
  | finish _ _ => exact ⟨joined.stillRunning, joined.noThread, joined.notAborted⟩
  | stop => exact ⟨joined.stillRunning, joined.noThread, joined.notAborted⟩

theorem Run.joined (run : Run ClearsOutsideTests control) : Joined control := by
  induction run with
  | start =>
      refine ⟨?_, fun _ _ => rfl, rfl⟩
      intro _ tested
      cases tested
  | step earlier _ clears step ih => exact ih.step earlier.orderly clears step

/-- A thread is started only where none is left to join, and one at a time. -/
def StartsExclusively (control : ExecutionControl Caller) : Prop :=
  control.aborted = false ∧
    (∀ caller, control.calls caller = .emplacing → control.executionThread = none) ∧
    AtMostOneInside control

/-- In every interleaving in which no flag is cleared between the two loads of
a call that saw it set, no thread is overwritten, and no two executioners run. -/
theorem run_startsExclusively (run : Run ClearsOutsideTests control) : StartsExclusively control :=
  ⟨run.joined.notAborted, fun caller emplacing => run.joined.noThread caller (.inr emplacing),
    run.orderly.atMostOneInside⟩

/-- Once a flag is cleared there, the call goes on to overwrite the thread. -/
theorem clear_during_test_aborts {admits : ExecutionControl Caller → ControlAction Caller → Prop}
    (run : Run admits control) {caller : Caller} {executioner : Nat}
    (tested : control.calls caller = .tested true)
    (cleared : Step control (.clear executioner) after) :
    ∃ loaded stored overwritten, Step after (.secondLoad caller) loaded ∧
      Step loaded (.store caller) stored ∧ Step stored (.emplace caller) overwritten ∧
      overwritten.aborted = true := by
  obtain ⟨thread, held⟩ := run.orderly.held caller tested
  cases cleared with
  | clear _ _ =>
      refine ⟨_, _, _, .secondLoadFalse caller tested rfl, .store caller ?_, .emplace caller ?_, ?_⟩
      · rw [setCall_calls, if_pos rfl]
      · exact (setCall_calls _ _ _ _).trans (if_pos rfl)
      · have stillHeld : ∀ other : ExecutionControl Caller, other.executionThread = some thread →
            (other.emplace caller).aborted = true := by
          intro other otherHeld
          simp only [ExecutionControl.emplace, otherHeld]
        exact stillHeld _ held

theorem Run.stepKeepingFlag (run : Run ClearsOutsideTests control)
    (step : Step control action after) (notAborted : control.aborted = false)
    (keeps : ∀ executioner, action ≠ .clear executioner) : Run ClearsOutsideTests after :=
  .step run notAborted (fun executioner same => absurd same (keeps executioner)) step

/-- Two calls, each of which starts a thread; the second joins the first one's. -/
theorem run_startsExclusively_twice :
    ∃ control : ExecutionControl Nat, Run ClearsOutsideTests control ∧
      control.executioners 0 = .ended ∧ control.executioners 1 = .running ∧
      StartsExclusively control := by
  have first : ∃ control : ExecutionControl Nat, Run ClearsOutsideTests control ∧
      control.executioners 0 = .ended ∧ control.executioners 1 = .running := by
    refine ⟨_, .stepKeepingFlag (.stepKeepingFlag (.stepKeepingFlag (.stepKeepingFlag
      (.stepKeepingFlag (.stepKeepingFlag (.stepKeepingFlag (.stepKeepingFlag (.stepKeepingFlag
      (.step (.stepKeepingFlag (.stepKeepingFlag (.stepKeepingFlag (.stepKeepingFlag
      (.stepKeepingFlag (.stepKeepingFlag (.stepKeepingFlag (.stepKeepingFlag .start
        (.call 0 rfl) rfl (by simp)) (.loadTerminator 0 rfl) rfl (by simp))
        (.lock 0 rfl rfl) rfl (by simp)) (.firstLoad 0 rfl) rfl (by simp))
        (.secondLoadFalse 0 rfl rfl) rfl (by simp)) (.store 0 rfl) rfl (by simp))
        (.emplace 0 rfl) rfl (by simp)) (.leave 0 rfl) rfl (by simp))
        rfl ?_ (.clear 0 rfl))
        (.call 1 rfl) rfl (by simp)) (.loadTerminator 1 rfl) rfl (by simp))
        (.lock 1 rfl rfl) rfl (by simp)) (.firstLoad 1 rfl) rfl (by simp))
        (.finish 0 rfl) rfl (by simp)) (.join 1 rfl rfl rfl) rfl (by simp))
        (.secondLoadFalse 1 rfl rfl) rfl (by simp)) (.store 1 rfl) rfl (by simp))
        (.emplace 1 rfl) rfl (by simp), rfl, rfl⟩
    intro _ _ caller tested
    simp [ExecutionControl.emplace, ExecutionControl.setExecutioner, ExecutionControl.setCall,
      initial, afterFirstLoad] at tested
  obtain ⟨control, run, ended, running⟩ := first
  exact ⟨control, run, ended, running, run_startsExclusively run⟩

/-- The executioner clears the flag after the first load of a call that saw it
set: the call finds it clear at its second load and overwrites the thread. -/
theorem overwritten_thread_aborts :
    ∃ control : ExecutionControl Nat, Run (fun _ _ => True) control ∧
      control.executionThread = some 0 ∧ control.calls 1 = .emplacing ∧ control.aborted = true ∧
      ¬ StartsExclusively control := by
  refine ⟨_, .step (.step (.step (.step (.step (.step (.step (.step (.step (.step (.step (.step
      (.step (.step (.step (.step .start
        rfl trivial (.call 0 rfl)) rfl trivial (.loadTerminator 0 rfl))
        rfl trivial (.lock 0 rfl rfl)) rfl trivial (.firstLoad 0 rfl))
        rfl trivial (.secondLoadFalse 0 rfl rfl)) rfl trivial (.store 0 rfl))
        rfl trivial (.emplace 0 rfl)) rfl trivial (.leave 0 rfl))
        rfl trivial (.call 1 rfl)) rfl trivial (.loadTerminator 1 rfl))
        rfl trivial (.lock 1 rfl rfl)) rfl trivial (.firstLoad 1 rfl))
        rfl trivial (.clear 0 rfl)) rfl trivial (.secondLoadFalse 1 rfl rfl))
        rfl trivial (.store 1 rfl)) rfl trivial (.emplace 1 rfl), rfl, rfl, rfl, ?_⟩
  intro exclusive
  cases exclusive.1

end BabyLuigi.ExecutionControl
