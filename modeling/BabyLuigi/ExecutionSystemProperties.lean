import BabyLuigi.BlockingPriorityQueueProperties
import BabyLuigi.ExecutionControlProperties
import BabyLuigi.ExecutionSystem

/-! Whether a queued run is left without an executioner. -/

set_option autoImplicit false

namespace BabyLuigi.ExecutionSystem

variable {Producer Item : Type} {system after : ExecutionSystem Producer Item}

/-- The executioner has not yet left its dequeue loop. -/
def InLoop (system : ExecutionSystem Producer Item) (executioner : Nat) : Prop :=
  system.control.executioners executioner = .running ∧
    (system.loops executioner).phase ≠ .draining

/-- The producer has enqueued a request and has yet to return from its call of
`ensure_executioner_running`. -/
def Pending (system : ExecutionSystem Producer Item) (producer : Producer) : Prop :=
  system.owing producer = true ∨ system.control.calls producer ≠ .outside

def HoldsDue (scheduledTimeOf : Item → Except Fault Int)
    (system : ExecutionSystem Producer Item) : Prop :=
  ∃ item ∈ system.queue.heap, ∃ time,
    scheduledTimeOf item = .ok time ∧ time ≤ system.queue.now

/-- No run is stranded: once every producer has returned, a due request has an
executioner that can take it. -/
def NoStrandedRun (scheduledTimeOf : Item → Except Fault Int)
    (system : ExecutionSystem Producer Item) : Prop :=
  (∀ producer, ¬ Pending system producer) → HoldsDue scheduledTimeOf system →
    ∃ executioner, InLoop system executioner

theorem not_noStrandedRun {scheduledTimeOf : Item → Except Fault Int}
    (returned : ∀ producer, ¬ Pending system producer)
    (due : HoldsDue scheduledTimeOf system) (left : ∀ executioner, ¬ InLoop system executioner) :
    ¬ NoStrandedRun scheduledTimeOf system :=
  fun safe => (safe returned due).elim left

/-- The executioner breaks out of its loop at this step. -/
def Breaks (idleTimeout : Int) (system : ExecutionSystem Producer Item)
    (action : SystemAction Producer Item) (executioner : Nat) : Prop :=
  action = .testIdle executioner ∧
    (system.loops executioner).isIdle idleTimeout system.queue.now = true

/-- The producer returns at this step because it found the flag set. -/
def TrustsFlag (system : ExecutionSystem Producer Item) (action : SystemAction Producer Item)
    (producer : Producer) : Prop :=
  action = .control (.secondLoad producer) ∧ system.control.executionRunning = true

/-- The executioner has broken out of its loop and has yet to clear the flag. -/
def Leaving (system : ExecutionSystem Producer Item) (executioner : Nat) : Prop :=
  (system.control.executioners executioner).active = true ∧
    (system.loops executioner).phase = .draining

/-- The producer has enqueued since the executioner began its last wait, the last
time it looked at the queue. -/
def EnqueuedSinceLook (past : List (SystemAction Producer Item)) (executioner : Nat)
    (producer : Producer) : Prop :=
  ∃ recent older item, past = recent ++ .enqueue producer item :: older ∧
    .dequeue (.wait executioner) ∉ recent

/-- The terminator stays true, and no producer enqueues after the last look of an
executioner and finds the flag set before that executioner has cleared it: when
an executioner breaks out, all who enqueued since have yet to load the flag, and
whoever finds it set from then on has not. -/
structure EnqueuesInTime (idleTimeout : Int) (past : List (SystemAction Producer Item))
    (system : ExecutionSystem Producer Item) (action : SystemAction Producer Item) : Prop where
  notStopped : action ≠ .control .stop
  breaks : ∀ executioner, Breaks idleTimeout system action executioner →
    ∀ producer, EnqueuedSinceLook past executioner producer → Pending system producer
  trusts : ∀ producer, TrustsFlag system action producer →
    ∀ executioner, Leaving system executioner → ¬ EnqueuedSinceLook past executioner producer

theorem EnqueuedSinceLook.cons {past : List (SystemAction Producer Item)} {executioner : Nat}
    {producer : Producer} {action : SystemAction Producer Item}
    (since : EnqueuedSinceLook past executioner producer)
    (noLook : action ≠ .dequeue (.wait executioner)) :
    EnqueuedSinceLook (action :: past) executioner producer := by
  obtain ⟨recent, older, item, rfl, none⟩ := since
  refine ⟨action :: recent, older, item, rfl, ?_⟩
  exact List.not_mem_cons_of_ne_of_not_mem noLook.symm none

theorem enqueuedSinceLook_enqueue (past : List (SystemAction Producer Item)) (executioner : Nat)
    (producer : Producer) (item : Item) :
    EnqueuedSinceLook (.enqueue producer item :: past) executioner producer :=
  ⟨[], past, item, rfl, List.not_mem_nil⟩

theorem EnqueuedSinceLook.of_cons {past : List (SystemAction Producer Item)} {executioner : Nat}
    {producer : Producer} {action : SystemAction Producer Item}
    (since : EnqueuedSinceLook (action :: past) executioner producer) :
    (∃ item, action = .enqueue producer item) ∨
      action ≠ .dequeue (.wait executioner) ∧ EnqueuedSinceLook past executioner producer := by
  obtain ⟨recent, older, item, same, noLook⟩ := since
  cases recent with
  | nil =>
      cases same
      exact .inl ⟨item, rfl⟩
  | cons newest recent =>
      cases same
      refine .inr ⟨fun isLook => noLook (isLook ▸ .head _), recent, older, item, rfl, ?_⟩
      exact fun member => noLook (.tail _ member)

/-- The executioner waits, or has waited in vain and not yet gone back to the queue. -/
def HasLooked (system : ExecutionSystem Producer Item) (executioner : Nat) : Prop :=
  (system.loops executioner).phase = .timedOut ∨ (system.loops executioner).phase = .draining ∨
    (system.loops executioner).phase = .dequeuing ∧
      ∃ deadline wake, system.queue.calls executioner = some (.waiting deadline wake)

/-- The heap is in order, and what it holds is due. -/
structure HoldsDueOnly (compare : Item → Item → Bool)
    (scheduledTimeOf : Item → Except Fault Int) (queue : BlockingPriorityQueue Nat Item) :
    Prop where
  consistent : queue.Consistent compare {item | ∃ time, scheduledTimeOf item = .ok time}
  due : ∀ item ∈ queue.heap, ∃ time, scheduledTimeOf item = .ok time ∧ time ≤ queue.now

section Queue

variable {compare : Item → Item → Bool} {scheduledTimeOf : Item → Except Fault Int}
  {queue next : BlockingPriorityQueue Nat Item} {action : QueueAction Nat Item}

theorem HoldsDueOnly.step (held : HoldsDueOnly compare scheduledTimeOf queue)
    (order : StrictWeakOn compare {item | ∃ time, scheduledTimeOf item = .ok time})
    (step : queue.Step compare scheduledTimeOf action next)
    (enqueuesDue : ∀ item, action = .enqueue item →
      ∃ time, scheduledTimeOf item = .ok time ∧ time ≤ queue.now) :
    HoldsDueOnly compare scheduledTimeOf next := by
  have consistent := held.consistent
  cases step with
  | enqueue item pushed =>
      obtain ⟨time, read, due⟩ := enqueuesDue item rfl
      obtain ⟨perm, _⟩ := consistent.pushed order ⟨time, read⟩ pushed
      refine ⟨consistent.enqueue order ⟨time, read⟩ pushed, ?_⟩
      intro other member
      rcases List.mem_append.mp (perm.mem_iff.mp member) with old | new
      · exact held.due other old
      · obtain rfl := List.mem_singleton.mp new
        exact ⟨time, read, due⟩
  | dequeueWait _ _ _ => exact ⟨⟨consistent.heap, consistent.valid, consistent.kept⟩, held.due⟩
  | wait _ _ _ => exact ⟨⟨consistent.heap, consistent.valid, consistent.kept⟩, held.due⟩
  | take _ _ turn popped =>
      obtain ⟨front, tail, _, nonempty, _⟩ := BlockingPriorityQueue.dequeueTurn_take turn
      obtain ⟨_, perm, _⟩ := consistent.popped order nonempty popped
      refine ⟨(consistent.take order turn popped).1, ?_⟩
      intro other member
      refine held.due other ?_
      rw [nonempty]
      exact List.mem_cons_of_mem front (perm.mem_iff.mp member)
  | wake _ _ _ _ => exact ⟨⟨consistent.heap, consistent.valid, consistent.kept⟩, held.due⟩
  | tick later onward =>
      refine ⟨⟨consistent.heap, consistent.valid, consistent.kept⟩, ?_⟩
      intro other member
      obtain ⟨time, read, due⟩ := held.due other member
      exact ⟨time, read, due.trans onward⟩

/-- A call that goes on to wait has found the queue empty. -/
theorem HoldsDueOnly.empty_of_wait (held : HoldsDueOnly compare scheduledTimeOf queue)
    {caller : Nat} (step : queue.Step compare scheduledTimeOf (.wait caller) next) :
    queue.heap = [] := by
  cases step with
  | wait _ _ turn =>
      unfold dequeueTurn at turn
      split at turn
      · assumption
      · rename_i front tail nonempty
        obtain ⟨time, read, due⟩ := held.due front (by simp [nonempty])
        simp only [read, due, if_true, Except.ok.injEq, reduceCtorEq] at turn

theorem heap_of_step (step : queue.Step compare scheduledTimeOf action next)
    (noItem : ∀ item, action ≠ .enqueue item) (nonempty : next.heap ≠ []) : queue.heap ≠ [] := by
  cases step with
  | enqueue item _ => exact absurd rfl (noItem item)
  | take _ _ turn _ =>
      obtain ⟨front, tail, _, held, _⟩ := BlockingPriorityQueue.dequeueTurn_take turn
      simp [held]
  | _ => exact nonempty

end Queue

/-- What the condition keeps. A look leaves the queue empty, since what is queued
is due: what an executioner has not seen was enqueued since, and while it leaves
a producer that did so has yet to return. -/
structure Attended (compare : Item → Item → Bool) (scheduledTimeOf : Item → Except Fault Int)
    (past : List (SystemAction Producer Item)) (system : ExecutionSystem Producer Item) :
    Prop where
  terminator : system.control.terminator = true
  untouched : ∀ executioner, system.control.executioners executioner = .absent →
    (system.loops executioner).phase = .starting
  returned : ∀ executioner, system.control.executioners executioner = .returned →
    (system.loops executioner).phase = .draining
  held : HoldsDueOnly compare scheduledTimeOf system.queue
  unseen : ∀ executioner, HasLooked system executioner → system.queue.heap ≠ [] →
    ∃ producer, EnqueuedSinceLook past executioner producer
  leaving : ∀ executioner, Leaving system executioner → system.queue.heap ≠ [] →
    ∃ producer, EnqueuedSinceLook past executioner producer ∧ Pending system producer
  served : system.queue.heap ≠ [] →
    (∃ executioner, InLoop system executioner) ∨ ∃ producer, Pending system producer

theorem setLoop_phase (system : ExecutionSystem Producer Item) (executioner other : Nat)
    (loop : ExecutionLoop) : ((system.setLoop executioner loop).loops other).phase =
      if other = executioner then loop.phase else (system.loops other).phase := by
  simp only [setLoop, Function.update_apply]
  split <;> rfl

section Loops

variable {compare : Item → Item → Bool} {scheduledTimeOf : Item → Except Fault Int}
  {past : List (SystemAction Producer Item)} {action : SystemAction Producer Item}

/-- An executioner moves on without looking at the queue, and breaks out of its
loop only if whoever enqueued since its last look has yet to return. -/
theorem Attended.setLoop (attended : Attended compare scheduledTimeOf past system)
    {executioner : Nat} {loop : ExecutionLoop} {queue : BlockingPriorityQueue Nat Item}
    (noLook : ∀ other, action ≠ .dequeue (.wait other))
    (held : HoldsDueOnly compare scheduledTimeOf queue)
    (fewer : queue.heap ≠ [] → system.queue.heap ≠ [])
    (calls : ∀ other, other ≠ executioner → queue.calls other = system.queue.calls other)
    (untouched : system.control.executioners executioner = .absent → loop.phase = .starting)
    (returned : system.control.executioners executioner = .returned → loop.phase = .draining)
    (looked : HasLooked { system.setLoop executioner loop with queue := queue } executioner →
      HasLooked system executioner)
    (leaves : loop.phase = .draining → (system.loops executioner).phase = .draining ∨
      ∀ producer, EnqueuedSinceLook past executioner producer → Pending system producer) :
    Attended compare scheduledTimeOf (action :: past)
      { system.setLoop executioner loop with queue := queue } := by
  have phase_self : ((system.setLoop executioner loop).loops executioner).phase = loop.phase := by
    rw [setLoop_phase, if_pos rfl]
  have phase_other : ∀ other, other ≠ executioner →
      ((system.setLoop executioner loop).loops other).phase = (system.loops other).phase := by
    intro other different
    rw [setLoop_phase, if_neg different]
  have unseen : ∀ other, HasLooked { system.setLoop executioner loop with queue := queue } other →
      queue.heap ≠ [] → ∃ producer, EnqueuedSinceLook past other producer := by
    intro other hasLooked nonempty
    refine attended.unseen other ?_ (fewer nonempty)
    by_cases same : other = executioner
    · exact same ▸ looked (same ▸ hasLooked)
    · simp only [HasLooked, phase_other other same, calls other same] at hasLooked
      exact hasLooked
  have leaving : ∀ other, Leaving { system.setLoop executioner loop with queue := queue } other →
      queue.heap ≠ [] → ∃ producer, EnqueuedSinceLook past other producer ∧
        Pending system producer := by
    intro other isLeaving nonempty
    obtain ⟨active, draining⟩ := isLeaving
    by_cases same : other = executioner
    · subst other
      rcases leaves (phase_self.symm.trans draining) with already | pending
      · exact attended.leaving executioner ⟨active, already⟩ (fewer nonempty)
      · obtain ⟨producer, since⟩ := unseen executioner (.inr (.inl draining)) nonempty
        exact ⟨producer, since, pending producer since⟩
    · exact attended.leaving other ⟨active, (phase_other other same).symm.trans draining⟩
        (fewer nonempty)
  refine ⟨attended.terminator, ?_, ?_, held, ?_, ?_, ?_⟩
  · intro other absent
    by_cases same : other = executioner
    · subst other
      exact phase_self.trans (untouched absent)
    · exact (phase_other other same).trans (attended.untouched other absent)
  · intro other isReturned
    by_cases same : other = executioner
    · subst other
      exact phase_self.trans (returned isReturned)
    · exact (phase_other other same).trans (attended.returned other isReturned)
  · intro other hasLooked nonempty
    obtain ⟨producer, since⟩ := unseen other hasLooked nonempty
    exact ⟨producer, since.cons (noLook other)⟩
  · intro other isLeaving nonempty
    obtain ⟨producer, since, pending⟩ := leaving other isLeaving nonempty
    exact ⟨producer, since.cons (noLook other), pending⟩
  · intro nonempty
    rcases attended.served (fewer nonempty) with ⟨other, running, inLoop⟩ | pending
    · by_cases stays : ((system.setLoop executioner loop).loops other).phase = .draining
      · have active : (system.control.executioners other).active = true := by rw [running]; rfl
        obtain ⟨producer, _, pending⟩ := leaving other ⟨active, stays⟩ nonempty
        exact .inr ⟨producer, pending⟩
      · exact .inl ⟨other, running, stays⟩
    · exact .inr pending

end Loops

variable [DecidableEq Producer] {compare : Item → Item → Bool}
  {scheduledTimeOf : Item → Except Fault Int} {idleTimeout now : Int}
  {past : List (SystemAction Producer Item)} {action : SystemAction Producer Item}

/-- The control of the system makes steps of its own. -/
theorem Run.control
    {admits : List (SystemAction Producer Item) → ExecutionSystem Producer Item →
      SystemAction Producer Item → Prop}
    (run : Run compare scheduledTimeOf idleTimeout admits now past system) :
    ExecutionControl.Run (fun _ _ => True) system.control := by
  induction run with
  | start => exact .start
  | step _ notAborted _ step ih =>
      cases step with
      | call _ _ taken => exact .step ih notAborted trivial taken
      | control _ _ taken => exact .step ih notAborted trivial taken
      | leave _ _ _ taken => exact .step ih notAborted trivial taken
      | _ => exact ih

section Control

variable {next : ExecutionControl Producer} {owing : Producer → Bool}
  {taken : ControlAction Producer}

/-- A producer returns by trusting the flag or by starting an executioner. -/
theorem Pending.stays (terminator : system.control.terminator = true)
    (owes : ∀ producer, system.owing producer = true →
      owing producer = true ∨ next.calls producer ≠ .outside)
    (step : system.control.Step taken next) {producer : Producer}
    (pending : Pending system producer) :
    Pending { system with control := next, owing := owing } producer ∨
    TrustsFlag system (.control taken) producer ∨
    (taken = .emplace producer ∧ next.executioners system.control.started = .running) := by
  rcases pending with owed | inside
  · exact .inl (owes producer owed)
  · by_cases outside : next.calls producer = .outside
    · rcases step.returns inside outside with ⟨_, stopped⟩ | ⟨rfl, isRunning⟩ | started
      · cases stopped.symm.trans terminator
      · exact .inr (.inl ⟨rfl, isRunning⟩)
      · exact .inr (.inr started)
    · exact .inl (.inr outside)

theorem InLoop.stays (step : system.control.Step taken next)
    (leaves : ∀ executioner, taken = .leave executioner →
      (system.loops executioner).phase = .draining)
    {executioner : Nat} (inLoop : InLoop system executioner) :
    InLoop { system with control := next, owing := owing } executioner := by
  obtain ⟨running, notDraining⟩ := inLoop
  refine ⟨?_, notDraining⟩
  rcases step.executioners executioner with
      same | ⟨_, phase⟩ | ⟨isLeave, _⟩ | ⟨returned, _⟩ | ⟨cleared, _⟩
  · exact same.trans running
  · exact phase
  · exact absurd (leaves executioner isLeave) notDraining
  · cases running.symm.trans returned
  · cases running.symm.trans cleared

/-- While an executioner leaves, no call starts another, and who finds the flag
set has not enqueued since. -/
theorem Attended.leaving_control (attended : Attended compare scheduledTimeOf past system)
    (orderly : system.control.Orderly)
    (inTime : EnqueuesInTime idleTimeout past system (.control taken))
    (owes : ∀ producer, system.owing producer = true →
      owing producer = true ∨ next.calls producer ≠ .outside)
    (step : system.control.Step taken next) {executioner : Nat}
    (isLeaving : Leaving system executioner) (nonempty : system.queue.heap ≠ []) :
    ∃ producer, EnqueuedSinceLook past executioner producer ∧
      Pending { system with control := next, owing := owing } producer := by
  obtain ⟨producer, since, pending⟩ := attended.leaving executioner isLeaving nonempty
  rcases pending.stays attended.terminator owes step with stays | trusts | ⟨rfl, _⟩
  · exact ⟨producer, since, stays⟩
  · exact absurd since (inTime.trusts producer trusts executioner isLeaving)
  · cases step with
    | emplace _ emplacing =>
        exact absurd emplacing ((orderly.active executioner isLeaving.1).2.2 producer).2

/-- While a call finds the flag set, some executioner has yet to clear it. -/
theorem exists_active_of_trusts (orderly : system.control.Orderly)
    (step : system.control.Step taken next) {producer : Producer}
    (trusts : TrustsFlag system (.control taken) producer) :
    ∃ executioner, (system.control.executioners executioner).active = true := by
  obtain ⟨isLoad, isRunning⟩ := trusts
  cases isLoad
  rcases orderly.running isRunning with active | ⟨other, emplacing⟩
  · exact active
  · have tested : ∃ sawRunning, system.control.calls producer = .tested sawRunning := by
      cases step with
      | secondLoadTrue _ tested _ => exact ⟨_, tested⟩
      | secondLoadFalse _ tested _ => exact ⟨_, tested⟩
    obtain ⟨sawRunning, tested⟩ := tested
    obtain rfl : other = producer :=
      orderly.same_caller (by rw [emplacing]; rfl) (by rw [tested]; rfl)
    cases emplacing.symm.trans tested

theorem Attended.control (attended : Attended compare scheduledTimeOf past system)
    (orderly : system.control.Orderly)
    (inTime : EnqueuesInTime idleTimeout past system (.control taken))
    (leaves : ∀ executioner, taken = .leave executioner →
      (system.loops executioner).phase = .draining)
    (owes : ∀ producer, system.owing producer = true →
      owing producer = true ∨ next.calls producer ≠ .outside)
    (step : system.control.Step taken next) :
    Attended compare scheduledTimeOf (.control taken :: past)
      { system with control := next, owing := owing } := by
  refine ⟨?_, ?_, ?_, attended.held, ?_, ?_, ?_⟩
  · refine (step.terminator ?_).trans attended.terminator
    intro stopped
    exact inTime.notStopped (congrArg _ stopped)
  · intro executioner absent
    apply attended.untouched
    rcases step.executioners executioner with
        same | ⟨_, phase⟩ | ⟨_, phase⟩ | ⟨_, phase⟩ | ⟨_, phase⟩
    · exact same.symm.trans absent
    all_goals cases phase.symm.trans absent
  · intro executioner isReturned
    rcases step.executioners executioner with
        same | ⟨_, phase⟩ | ⟨isLeave, _⟩ | ⟨_, phase⟩ | ⟨_, phase⟩
    · exact attended.returned executioner (same.symm.trans isReturned)
    · cases phase.symm.trans isReturned
    · exact leaves executioner isLeave
    · cases phase.symm.trans isReturned
    · cases phase.symm.trans isReturned
  · intro executioner hasLooked nonempty
    obtain ⟨producer, since⟩ := attended.unseen executioner hasLooked nonempty
    exact ⟨producer, since.cons (by simp)⟩
  · intro executioner isLeaving nonempty
    have wasLeaving : Leaving system executioner := by
      obtain ⟨active, draining⟩ := isLeaving
      refine ⟨?_, draining⟩
      rcases step.executioners executioner with
          same | ⟨isNew, _⟩ | ⟨isLeave, _⟩ | ⟨_, phase⟩ | ⟨_, phase⟩
      · exact same ▸ active
      · have fresh := orderly.fresh executioner isNew.ge
        cases draining.symm.trans (attended.untouched executioner fresh)
      · subst isLeave
        cases step with
        | leave _ running => rw [running]; rfl
      · simp [phase, ExecutionerPhase.active] at active
      · simp [phase, ExecutionerPhase.active] at active
    obtain ⟨producer, since, pending⟩ :=
      attended.leaving_control orderly inTime owes step wasLeaving nonempty
    exact ⟨producer, since.cons (by simp), pending⟩
  · intro nonempty
    rcases attended.served nonempty with ⟨executioner, inLoop⟩ | ⟨producer, pending⟩
    · exact .inl ⟨executioner, inLoop.stays step leaves⟩
    · rcases pending.stays attended.terminator owes step with stays | trusts | ⟨_, started⟩
      · exact .inr ⟨producer, stays⟩
      · obtain ⟨executioner, active⟩ := exists_active_of_trusts orderly step trusts
        by_cases draining : (system.loops executioner).phase = .draining
        · obtain ⟨other, _, stays⟩ :=
            attended.leaving_control orderly inTime owes step ⟨active, draining⟩ nonempty
          exact .inr ⟨other, stays⟩
        · have running : system.control.executioners executioner = .running := by
            cases phase : system.control.executioners executioner with
            | running => rfl
            | returned => exact absurd (attended.returned executioner phase) draining
            | _ => simp [phase, ExecutionerPhase.active] at active
          have inLoop : InLoop system executioner := ⟨running, draining⟩
          exact .inl ⟨executioner, inLoop.stays step leaves⟩
      · refine .inl ⟨system.control.started, started, ?_⟩
        rw [attended.untouched _ (orderly.fresh _ (Nat.le_refl _))]
        simp

end Control

theorem Attended.step (attended : Attended compare scheduledTimeOf past system)
    (order : StrictWeakOn compare {item | ∃ time, scheduledTimeOf item = .ok time})
    (orderly : system.control.Orderly) (inTime : EnqueuesInTime idleTimeout past system action)
    (step : Step compare scheduledTimeOf idleTimeout system action after) :
    Attended compare scheduledTimeOf (action :: past) after := by
  have held := attended.held
  have started : ∀ {executioner : Nat} {phase : LoopPhase},
      (system.loops executioner).phase ≠ .starting →
      system.control.executioners executioner = .absent → phase = .starting :=
    fun moved absent => absurd (attended.untouched _ absent) moved
  have inside : ∀ {executioner : Nat} {phase : LoopPhase},
      (system.loops executioner).phase ≠ .draining →
      system.control.executioners executioner = .returned → phase = .draining :=
    fun notDraining isReturned => absurd (attended.returned _ isReturned) notDraining
  cases step with
  | @enqueue producer item time queue _ _ read due taken =>
      have pending : Pending { system with
          queue := queue, owing := Function.update system.owing producer true } producer :=
        .inl (Function.update_self ..)
      refine ⟨attended.terminator, attended.untouched, attended.returned, ?_, ?_, ?_, ?_⟩
      · refine held.step order taken ?_
        intro other same
        cases same
        exact ⟨_, read, due⟩
      · exact fun executioner _ _ => ⟨producer, enqueuedSinceLook_enqueue past executioner _ _⟩
      · exact fun executioner _ _ =>
          ⟨producer, enqueuedSinceLook_enqueue past executioner _ _, pending⟩
      · exact fun _ => .inr ⟨producer, pending⟩
  | call producer _ taken =>
      refine attended.control orderly inTime (fun _ impossible => by cases impossible) ?_ taken
      intro other owed
      by_cases same : other = producer
      · subst other
        cases taken with
        | call _ _ => exact .inr (by simp)
      · exact .inl ((Function.update_of_ne same _ _).trans owed)
  | control _ notLeave taken =>
      exact attended.control orderly inTime
        (fun executioner same => absurd same (notLeave executioner)) (fun _ owed => .inl owed) taken
  | start executioner running starting =>
      refine attended.setLoop (by simp) held id (fun _ _ => rfl) ?_ ?_ ?_ (by simp)
      · exact fun absent => by cases running.symm.trans absent
      · exact fun isReturned => by cases running.symm.trans isReturned
      · simp [HasLooked, setLoop_phase]
  | loadTrue executioner looping _ entered =>
      refine attended.setLoop (by simp) (held.step order entered (by simp))
        (heap_of_step entered (by simp)) ?_ (started (by simp [looping]))
        (inside (by simp [looping])) ?_ (by simp)
      · intro other different
        cases entered with
        | dequeueWait _ _ _ => exact Function.update_of_ne different _ _
      · cases entered with
        | dequeueWait _ _ _ => simp [HasLooked, setLoop_phase]
  | loadFalse executioner looping stopped => cases stopped.symm.trans attended.terminator
  | wait executioner dequeuing waited =>
      have empty := held.empty_of_wait waited
      have still := held.step order waited (by simp)
      cases waited with
      | wait _ _ _ =>
          exact ⟨attended.terminator, attended.untouched, attended.returned, still,
            fun _ _ nonempty => absurd empty nonempty, fun _ _ nonempty => absurd empty nonempty,
            fun nonempty => absurd empty nonempty⟩
  | take executioner dequeuing taken =>
      refine attended.setLoop (by simp) (held.step order taken (by simp))
        (heap_of_step taken (by simp)) ?_ (started (by simp [dequeuing]))
        (inside (by simp [dequeuing])) ?_ (by simp)
      · intro other different
        cases taken with
        | take _ _ _ _ => exact Function.update_of_ne different _ _
      · simp [HasLooked, setLoop_phase]
  | wake executioner dequeuing woken =>
      refine attended.setLoop (by simp) (held.step order woken (by simp))
        (heap_of_step woken (by simp)) ?_ (started (by simp [dequeuing]))
        (inside (by simp [dequeuing])) ?_ ?_
      · intro other different
        cases woken with
        | wake _ _ _ _ => exact Function.update_of_ne different _ _
      · intro _
        cases woken with
        | wake _ _ waiting _ => exact .inr (.inr ⟨dequeuing, _, _, waiting⟩)
      · dsimp only
        split <;> simp
  | testIdle executioner timedOut =>
      refine attended.setLoop (by simp) held id (fun _ _ => rfl) (started (by simp [timedOut]))
        (inside (by simp [timedOut])) (fun _ => .inl timedOut) ?_
      dsimp only
      split
      · exact fun _ => .inr (inTime.breaks executioner ⟨rfl, ‹_›⟩)
      · simp
  | dispatch executioner received =>
      refine attended.setLoop (by simp) held id (fun _ _ => rfl) (started (by simp [received]))
        (inside (by simp [received])) ?_ (by simp)
      simp [HasLooked, setLoop_phase]
  | complete executioner _ =>
      refine attended.setLoop (by simp) held id (fun _ _ => rfl) (attended.untouched executioner)
        (attended.returned executioner) ?_ (fun draining => .inl draining)
      simp [HasLooked, setLoop_phase]
  | leave executioner draining _ taken =>
      refine attended.control orderly inTime ?_ (fun _ owed => .inl owed) taken
      intro other same
      cases same
      exact draining
  | tick later ticked =>
      have still := held.step order ticked (by simp)
      cases ticked with
      | tick _ _ =>
          refine ⟨attended.terminator, attended.untouched, attended.returned, still, ?_, ?_,
            attended.served⟩
          · intro executioner hasLooked nonempty
            obtain ⟨producer, since⟩ := attended.unseen executioner hasLooked nonempty
            exact ⟨producer, since.cons (by simp)⟩
          · intro executioner isLeaving nonempty
            obtain ⟨producer, since, pending⟩ := attended.leaving executioner isLeaving nonempty
            exact ⟨producer, since.cons (by simp), pending⟩

theorem Run.attended
    (order : StrictWeakOn compare {item | ∃ time, scheduledTimeOf item = .ok time})
    (run : Run compare scheduledTimeOf idleTimeout (EnqueuesInTime idleTimeout) now past system) :
    Attended compare scheduledTimeOf past system := by
  induction run with
  | start =>
      have consistent : (BlockingPriorityQueue.initial now :
          BlockingPriorityQueue Nat Item).Consistent compare
          {item | ∃ time, scheduledTimeOf item = .ok time} := by
        refine ⟨isHeap_nil compare, ?_, .refl _⟩
        intro _ impossible
        cases impossible
      refine ⟨rfl, fun _ _ => rfl, ?_, ⟨consistent, ?_⟩, ?_, ?_, fun nonempty => absurd rfl nonempty⟩
      · intro _ impossible
        cases impossible
      · intro _ impossible
        cases impossible
      · exact fun _ _ nonempty => absurd rfl nonempty
      · exact fun _ _ nonempty => absurd rfl nonempty
  | step earlier _ inTime step ih => exact ih.step order earlier.control.orderly inTime step

theorem taskRequestPtr_order {Name : Type} :
    StrictWeakOn (taskRequestPtrCompare : TaskRequestPtr Name → TaskRequestPtr Name → Bool)
      {pointer | ∃ time, BabyLuigi.scheduledTimeOf pointer = .ok time} := by
  refine BlockingPriorityQueue.taskRequestPtrCompare_strictWeakOn.mono ?_
  rintro pointer ⟨time, read⟩
  cases pointer with
  | none => cases read
  | some request => rfl

/-- In every interleaving that meets the condition, no run is stranded. -/
theorem run_noStrandedRun {Name : Type} {system : ExecutionSystem Producer (TaskRequestPtr Name)}
    {past : List (SystemAction Producer (TaskRequestPtr Name))}
    (run : Run taskRequestPtrCompare BabyLuigi.scheduledTimeOf idleTimeout
      (EnqueuesInTime idleTimeout) now past system) :
    NoStrandedRun BabyLuigi.scheduledTimeOf system := by
  intro returned due
  obtain ⟨item, held, _⟩ := due
  rcases (run.attended taskRequestPtr_order).served (List.ne_nil_of_mem held) with
      inLoop | ⟨producer, pending⟩
  · exact inLoop
  · exact absurd pending (returned producer)

theorem pushHeap_singleton (compare : Item → Item → Bool) (item : Item) :
    PushHeap compare ([] ++ [item]) [item] :=
  fun _ _ => ⟨.refl _, isHeap_singleton compare item⟩

theorem popHeap_singleton (compare : Item → Item → Bool) (item : Item) :
    PopHeap compare [item] ([] ++ [item]) := by
  intro front tail same _ _
  cases same
  exact ⟨[], rfl, .refl _, isHeap_nil compare⟩

abbrev RequestSystem := ExecutionSystem Nat (TaskRequestPtr Unit)

abbrev RequestAction := SystemAction Nat (TaskRequestPtr Unit)

abbrev RequestRun (admits : List RequestAction → RequestSystem → RequestAction → Prop) :
    List RequestAction → RequestSystem → Prop :=
  Run taskRequestPtrCompare BabyLuigi.scheduledTimeOf 10 admits 0

open BlockingPriorityQueue (requestAt)

/-- The first executioner has waited in vain; every call has returned. -/
structure WaitedOut (system : RequestSystem) : Prop where
  control : system.control = {
    terminator := true
    executionRunning := true
    executionThread := some 0
    executionMutex := none
    calls := fun _ => .outside
    executioners := Function.update (fun _ => .absent) 0 .running
    started := 1
    aborted := false }
  heap : system.queue.heap = []
  now : system.queue.now = 10
  loop : system.loops 0 = { phase := .timedOut, lastWork := 0, inFlightDags := 0 }
  unstarted : ∀ executioner, executioner ≠ 0 → (system.loops executioner).phase = .starting
  owing : system.owing = fun _ => false

/-- A producer starts an executioner, which runs its request and then waits; no
flag is found set and nothing breaks off. -/
theorem exists_waitedOut
    {admits : List RequestAction → RequestSystem → RequestAction → Prop}
    (admitted : ∀ past system action, action ≠ .control .stop →
      (∀ executioner, action ≠ .testIdle executioner) →
      (∀ producer, ¬ TrustsFlag system action producer) → admits past system action) :
    ∃ past system, RequestRun admits past system ∧ WaitedOut system ∧
      ∀ producer, ¬ EnqueuedSinceLook past 0 producer := by
  have quietly : ∀ {past : List RequestAction} {system after : RequestSystem}
      {action : RequestAction}, RequestRun admits past system → system.control.aborted = false →
      action ≠ .control .stop → (∀ executioner, action ≠ .testIdle executioner) →
      (∀ producer, action ≠ .control (.secondLoad producer)) →
      Step taskRequestPtrCompare BabyLuigi.scheduledTimeOf 10 system action after →
      RequestRun admits (action :: past) after :=
    fun run notAborted notStopped notTest notLoad step =>
      .step run notAborted
        (admitted _ _ _ notStopped notTest fun producer held => notLoad producer held.1) step
  refine ⟨_, _, quietly (quietly (quietly (quietly (quietly (quietly (quietly (quietly
    (quietly (quietly (quietly (.step (quietly (quietly (quietly (quietly (quietly .start
      rfl (by simp) (by simp) (by simp) (.enqueue 0 (some (requestAt 0 0)) rfl rfl rfl (by decide)
        (.enqueue _ (pushHeap_singleton _ _))))
      rfl (by simp) (by simp) (by simp) (.call 0 rfl (.call 0 rfl)))
      rfl (by simp) (by simp) (by simp) (.control (by simp) (by simp) (.loadTerminator 0 rfl)))
      rfl (by simp) (by simp) (by simp) (.control (by simp) (by simp) (.lock 0 rfl rfl)))
      rfl (by simp) (by simp) (by simp) (.control (by simp) (by simp) (.firstLoad 0 rfl)))
      rfl (admitted _ _ _ (by simp) (by simp) fun _ held => by cases held.2)
        (.control (by simp) (by simp) (.secondLoadFalse 0 rfl rfl)))
      rfl (by simp) (by simp) (by simp) (.control (by simp) (by simp) (.store 0 rfl)))
      rfl (by simp) (by simp) (by simp) (.control (by simp) (by simp) (.emplace 0 rfl)))
      rfl (by simp) (by simp) (by simp) (.start 0 rfl rfl))
      rfl (by simp) (by simp) (by simp) (.loadTrue 0 rfl rfl (.dequeueWait 0 10 rfl)))
      rfl (by simp) (by simp) (by simp) (.take 0 rfl (.take 0 rfl rfl (popHeap_singleton _ _))))
      rfl (by simp) (by simp) (by simp) (.dispatch 0 rfl))
      rfl (by simp) (by simp) (by simp) (.complete 0 rfl))
      rfl (by simp) (by simp) (by simp) (.loadTrue 0 rfl rfl (.dequeueWait 0 10 rfl)))
      rfl (by simp) (by simp) (by simp) (.wait 0 rfl (.wait 0 rfl rfl)))
      rfl (by simp) (by simp) (by simp) (.tick 10 (.tick 10 (by decide))))
      rfl (by simp) (by simp) (by simp) (.wake 0 rfl (.wake 0 true rfl (fun _ => by decide))), ?_⟩
  refine ⟨⟨?_, rfl, rfl, rfl, ?_, ?_⟩, ?_⟩
  · simp [initial, setPhase, setLoop, ExecutionControl.emplace, ExecutionControl.initial,
      ExecutionControl.setCall, afterFirstLoad]
  · intro executioner other
    simp [initial, setPhase, setLoop, other]
  · simp [initial, setPhase, setLoop]
  · intro producer since
    rcases since.of_cons with ⟨_, ⟨⟩⟩ | ⟨_, since⟩
    rcases since.of_cons with ⟨_, ⟨⟩⟩ | ⟨_, since⟩
    rcases since.of_cons with ⟨_, ⟨⟩⟩ | ⟨noLook, _⟩
    exact noLook rfl

theorem WaitedOut.isIdle {system : RequestSystem} (waited : WaitedOut system) :
    (system.loops 0).isIdle 10 system.queue.now = true := by
  rw [waited.loop, waited.now]
  rfl

/-- The first executioner has ended, and its successor has just been started. -/
structure Restarted (system : RequestSystem) : Prop where
  control : system.control = {
    terminator := true
    executionRunning := true
    executionThread := some 1
    executionMutex := none
    calls := fun _ => .outside
    executioners := Function.update (Function.update (fun _ => .absent) 0 .ended) 1 .running
    started := 2
    aborted := false }
  heap : system.queue.heap = [some (requestAt 0 1)]
  now : system.queue.now = 10
  starting : (system.loops 1).phase = .starting
  owing : system.owing = fun _ => false

theorem enqueuesInTime_quiet {past : List RequestAction} {system : RequestSystem}
    {action : RequestAction} (notStopped : action ≠ .control .stop)
    (notTest : ∀ executioner, action ≠ .testIdle executioner)
    (noTrust : ∀ producer, ¬ TrustsFlag system action producer) :
    EnqueuesInTime 10 past system action :=
  ⟨notStopped, fun executioner breaks => absurd breaks.1 (notTest executioner),
    fun producer trusts => absurd trusts (noTrust producer)⟩

theorem Run.quietly {past : List RequestAction} {system after : RequestSystem}
    {action : RequestAction} (run : RequestRun (EnqueuesInTime 10) past system)
    (notAborted : system.control.aborted = false) (notStopped : action ≠ .control .stop)
    (notTest : ∀ executioner, action ≠ .testIdle executioner)
    (notLoad : ∀ producer, action ≠ .control (.secondLoad producer))
    (step : Step taskRequestPtrCompare BabyLuigi.scheduledTimeOf 10 system action after) :
    RequestRun (EnqueuesInTime 10) (action :: past) after :=
  .step run notAborted
    (enqueuesInTime_quiet notStopped notTest fun producer trusts => notLoad producer trusts.1) step

/-- A request arrives between the last look of an executioner and its idle test.
Its producer loads the flag after it has been cleared and starts the next one. -/
theorem exists_restarted :
    ∃ past system, RequestRun (EnqueuesInTime 10) past system ∧ Restarted system ∧
      ∃ executioner, .testIdle executioner ∈ past := by
  obtain ⟨past, ⟨control, ⟨heap, now, calls, events⟩, loops, owing⟩, run, waited, nobody⟩ :=
    exists_waitedOut fun _ _ _ => enqueuesInTime_quiet
  have idle := waited.isIdle
  obtain ⟨rfl, rfl, rfl, loop, unstarted, rfl⟩ := waited
  have passed : (0 : Int) ≤ 10 := by decide
  have timedOut : (loops 0).phase = .timedOut := congrArg ExecutionLoop.phase loop
  have none : (loops 0).inFlightDags = 0 := congrArg ExecutionLoop.inFlightDags loop
  have broken := Run.step (run.quietly rfl (by simp) (by simp) (by simp)
    (.enqueue 1 (some (requestAt 0 1)) rfl rfl rfl passed (.enqueue _ (pushHeap_singleton _ _))))
    rfl ⟨by simp, fun executioner breaks producer since => by
      cases breaks.1
      rcases since.of_cons with ⟨_, ⟨⟩⟩ | ⟨_, since⟩
      · exact .inl rfl
      · exact absurd since (nobody producer), fun _ trusts => by cases trusts.1⟩
    (.testIdle 0 timedOut)
  have cleared := (broken.quietly rfl (by simp) (by simp) (by simp)
    (.leave 0 (by simp [setPhase, setLoop, idle]) (by simp [setPhase, setLoop, none])
      (.leave 0 rfl))).quietly rfl (by simp) (by simp) (by simp)
    (.control (by simp) (by simp) (.clear 0 rfl))
  have joined := (((((cleared.quietly
    rfl (by simp) (by simp) (by simp) (.call 1 rfl (.call 1 rfl))).quietly
    rfl (by simp) (by simp) (by simp)
      (.control (by simp) (by simp) (.loadTerminator 1 rfl))).quietly
    rfl (by simp) (by simp) (by simp) (.control (by simp) (by simp) (.lock 1 rfl rfl))).quietly
    rfl (by simp) (by simp) (by simp) (.control (by simp) (by simp) (.firstLoad 1 rfl))).quietly
    rfl (by simp) (by simp) (by simp) (.control (by simp) (by simp) (.finish 0 rfl))).quietly
    rfl (by simp) (by simp) (by simp) (.control (by simp) (by simp) (.join 1 rfl rfl rfl))
  have started := ((Run.step joined
    rfl (enqueuesInTime_quiet (by simp) (by simp) fun _ trusts => by cases trusts.2)
      (.control (by simp) (by simp) (.secondLoadFalse 1 rfl rfl))).quietly
    rfl (by simp) (by simp) (by simp) (.control (by simp) (by simp) (.store 1 rfl))).quietly
    rfl (by simp) (by simp) (by simp) (.control (by simp) (by simp) (.emplace 1 rfl))
  refine ⟨_, _, started, ⟨?_, rfl, rfl, ?_, ?_⟩, 0, by simp⟩
  · simp [setPhase, setLoop, ExecutionControl.emplace, ExecutionControl.setExecutioner,
      ExecutionControl.setCall, afterFirstLoad]
  · exact unstarted 1 (by simp)
  · simp [setPhase, setLoop]

/-- After an idle test has ended one executioner, a producer finds the flag of
the next one set. -/
theorem run_noStrandedRun_second :
    ∃ past system, RequestRun (EnqueuesInTime 10) past system ∧
      (∃ executioner, .testIdle executioner ∈ past) ∧
      HoldsDue BabyLuigi.scheduledTimeOf system ∧ (∀ producer, ¬ Pending system producer) ∧
      NoStrandedRun BabyLuigi.scheduledTimeOf system := by
  have run : ∃ past system, RequestRun (EnqueuesInTime 10) past system ∧
      (∃ executioner, .testIdle executioner ∈ past) ∧
      HoldsDue BabyLuigi.scheduledTimeOf system ∧ ∀ producer, ¬ Pending system producer := by
    obtain ⟨past, ⟨control, ⟨heap, now, calls, events⟩, loops, owing⟩, run, restarted, tested⟩ :=
      exists_restarted
    obtain ⟨rfl, rfl, rfl, starting, rfl⟩ := restarted
    have passed : (0 : Int) ≤ 10 := by decide
    have pushed : PushHeap taskRequestPtrCompare ([some (requestAt 0 1)] ++ [some (requestAt 0 2)])
        [some (requestAt 0 1), some (requestAt 0 2)] := fun _ _ => ⟨.refl _, isHeap_pair rfl⟩
    have tests := ((((run.quietly
      rfl (by simp) (by simp) (by simp)
        (.enqueue 2 (some (requestAt 0 2)) rfl rfl rfl passed (.enqueue _ pushed))).quietly
      rfl (by simp) (by simp) (by simp) (.call 2 rfl (.call 2 rfl))).quietly
      rfl (by simp) (by simp) (by simp)
        (.control (by simp) (by simp) (.loadTerminator 2 rfl))).quietly
      rfl (by simp) (by simp) (by simp) (.control (by simp) (by simp) (.lock 2 rfl rfl))).quietly
      rfl (by simp) (by simp) (by simp) (.control (by simp) (by simp) (.firstLoad 2 rfl))
    have trusts := Run.step tests rfl ⟨by simp, fun _ breaks => absurd breaks.1 (by simp), fun _ _ => ?_⟩
      (.control (by simp) (by simp) (.secondLoadTrue 2 rfl rfl))
    · refine ⟨_, _, trusts, ?_, ⟨some (requestAt 0 1), .head _, 0, rfl, passed⟩, ?_⟩
      · obtain ⟨executioner, member⟩ := tested
        exact ⟨executioner, by simp [member]⟩
      · intro producer pending
        rcases pending with owed | inside
        · simp at owed
        · simp [ExecutionControl.setCall, afterFirstLoad] at inside
    · intro executioner leaving
      obtain ⟨active, draining⟩ := leaving
      by_cases second : executioner = 1
      · subst executioner
        cases starting.symm.trans draining
      · by_cases first : executioner = 0
        · subst executioner
          cases active
        · simp [ExecutionControl.setCall, second, first, ExecutionerPhase.active] at active
  obtain ⟨past, system, run, tested, due, returned⟩ := run
  exact ⟨past, system, run, tested, due, returned, run_noStrandedRun run⟩

/-- Two ways to strand a run: a producer trusts the flag of an executioner that
has left its loop, and an executioner whose wait has timed out breaks without
looking at the queue again. -/
theorem stranded_runs :
    (∃ past system, RequestRun (fun _ _ _ => True) past system ∧
      system.control.calls 1 = .outside ∧ system.queue.heap = [some (requestAt 0 1)] ∧
      ¬ NoStrandedRun BabyLuigi.scheduledTimeOf system) ∧
    ∃ past system, RequestRun (fun _ _ _ => True) past system ∧
      (system.loops 0).phase = .draining ∧ system.queue.heap = [some (requestAt 0 1)] ∧
      ¬ NoStrandedRun BabyLuigi.scheduledTimeOf system := by
  obtain ⟨past, ⟨control, ⟨heap, now, calls, events⟩, loops, owing⟩, run, waited, _⟩ :=
    exists_waitedOut fun _ _ _ _ _ _ => trivial
  have idle := waited.isIdle
  obtain ⟨rfl, rfl, rfl, loop, unstarted, rfl⟩ := waited
  have passed : (0 : Int) ≤ 10 := by decide
  have timedOut : (loops 0).phase = .timedOut := congrArg ExecutionLoop.phase loop
  constructor
  · refine ⟨_, _, .step (.step (.step (.step (.step (.step (.step run
        rfl trivial (.testIdle 0 timedOut))
        rfl trivial (.enqueue 1 (some (requestAt 0 1)) rfl rfl rfl passed
          (.enqueue _ (pushHeap_singleton _ _))))
        rfl trivial (.call 1 rfl (.call 1 rfl)))
        rfl trivial (.control (by simp) (by simp) (.loadTerminator 1 rfl)))
        rfl trivial (.control (by simp) (by simp) (.lock 1 rfl rfl)))
        rfl trivial (.control (by simp) (by simp) (.firstLoad 1 rfl)))
        rfl trivial (.control (by simp) (by simp) (.secondLoadTrue 1 rfl rfl)), rfl, rfl, ?_⟩
    refine not_noStrandedRun ?_ ⟨_, List.mem_singleton_self _, 0, rfl, passed⟩ ?_
    · intro producer pending
      rcases pending with owed | inside
      · simp [setPhase, setLoop, Function.update_apply] at owed
      · simp [setPhase, setLoop, ExecutionControl.setCall, afterFirstLoad] at inside
    · intro executioner inLoop
      by_cases named : executioner = 0
      · subst executioner
        exact inLoop.2 (by simp [setPhase, setLoop, idle])
      · have running := inLoop.1
        simp [setPhase, setLoop, ExecutionControl.setCall, afterFirstLoad, named] at running
  · refine ⟨_, _, .step (.step (.step (.step (.step (.step (.step run
        rfl trivial (.enqueue 1 (some (requestAt 0 1)) rfl rfl rfl passed
          (.enqueue _ (pushHeap_singleton _ _))))
        rfl trivial (.call 1 rfl (.call 1 rfl)))
        rfl trivial (.control (by simp) (by simp) (.loadTerminator 1 rfl)))
        rfl trivial (.control (by simp) (by simp) (.lock 1 rfl rfl)))
        rfl trivial (.control (by simp) (by simp) (.firstLoad 1 rfl)))
        rfl trivial (.control (by simp) (by simp) (.secondLoadTrue 1 rfl rfl)))
        rfl trivial (.testIdle 0 timedOut), by simp [setPhase, setLoop, idle], rfl, ?_⟩
    refine not_noStrandedRun ?_ ⟨_, List.mem_singleton_self _, 0, rfl, passed⟩ ?_
    · intro producer pending
      rcases pending with owed | inside
      · simp [setPhase, setLoop] at owed
      · simp [setPhase, setLoop, ExecutionControl.setCall, afterFirstLoad] at inside
    · intro executioner inLoop
      by_cases named : executioner = 0
      · subst executioner
        exact inLoop.2 (by simp [setPhase, setLoop, idle])
      · have running := inLoop.1
        simp [setPhase, setLoop, ExecutionControl.setCall, afterFirstLoad, named] at running

end BabyLuigi.ExecutionSystem
