import BabyLuigi.BlockingPriorityQueueProperties

/-! What a call of `dequeue_wait` that returns nothing says about the queue at
its deadline. -/

set_option autoImplicit false

namespace BabyLuigi.BlockingPriorityQueue

variable {Caller Name : Type} [DecidableEq Caller]

/-- What a wait has seen: the first item when it began, and the items enqueued
since then, newest first. -/
structure Wait (Item : Type) where
  front : Option Item
  arrived : List Item

def nextWaits {Item : Type} (queue : BlockingPriorityQueue Caller Item)
    (waits : Caller → Wait Item) : QueueAction Caller Item → Caller → Wait Item
  | .enqueue item => fun caller => { waits caller with arrived := item :: (waits caller).arrived }
  | .wait caller => Function.update waits caller { front := queue.heap.head?, arrived := [] }
  | _ => waits

/-- Interleavings of producers and consumers of non-null requests, with what the
last wait of each consumer has seen. -/
inductive WaitingRun (start : Int) : BlockingPriorityQueue Caller (TaskRequestPtr Name) →
    (Caller → Wait (TaskRequestPtr Name)) → Prop where
  | start : WaitingRun start (initial start) fun _ => { front := none, arrived := [] }
  | step {queue after : BlockingPriorityQueue Caller (TaskRequestPtr Name)}
      {waits : Caller → Wait (TaskRequestPtr Name)}
      {action : QueueAction Caller (TaskRequestPtr Name)} :
      WaitingRun start queue waits →
      (∀ item, action = .enqueue item → item.isSome = true) →
      Step taskRequestPtrCompare scheduledTimeOf queue action after →
      WaitingRun start after (nextWaits queue waits action)

/-- At the deadline or later, no request in the queue is scheduled by the deadline. -/
structure NothingDue (queue : BlockingPriorityQueue Caller (TaskRequestPtr Name)) (deadline : Int) :
    Prop where
  reached : deadline ≤ queue.now
  later : ∀ request, some request ∈ queue.heap → deadline < request.scheduledTime

/-- A call of `dequeue_wait` returns nothing, and leaves this queue behind. -/
def TimesOut (start : Int) (waits : Caller → Wait (TaskRequestPtr Name)) (caller : Caller)
    (deadline : Int) (after : BlockingPriorityQueue Caller (TaskRequestPtr Name)) : Prop :=
  ∃ queue wake timedOut, WaitingRun start queue waits ∧
    queue.calls caller = some (.waiting deadline wake) ∧
    afterWait deadline wake timedOut = none ∧
    Step taskRequestPtrCompare scheduledTimeOf queue (.wake caller timedOut) after

/-- The wait did not begin over a request scheduled at exactly the deadline, and
no request scheduled by then has arrived since. -/
structure Wait.ClearOf (wait : Wait (TaskRequestPtr Name)) (deadline : Int) : Prop where
  front : ∀ request, wait.front = some (some request) → request.scheduledTime ≠ deadline
  arrived : ∀ request, some request ∈ wait.arrived → deadline < request.scheduledTime

variable {queue after : BlockingPriorityQueue Caller (TaskRequestPtr Name)}
  {waits : Caller → Wait (TaskRequestPtr Name)} {start : Int} {caller : Caller}
  {deadline wake : Int} {timedOut : Bool}

omit [DecidableEq Caller] in
theorem afterWait_eq_none (returned : afterWait deadline wake timedOut = none) :
    timedOut = true ∧ wake = deadline := by
  unfold afterWait at returned
  split at returned
  · rename_i ended
    simpa using ended
  · cases returned

/-- A wait for the deadline begins over an empty queue, or where the first
request is not scheduled before it. -/
theorem dequeueTurn_wait_deadline {heap : List (TaskRequestPtr Name)} {now : Int}
    (turn : dequeueTurn scheduledTimeOf heap now deadline = .ok (.wait deadline)) :
    heap = [] ∨ ∃ request rest, heap = some request :: rest ∧ deadline ≤ request.scheduledTime := by
  unfold dequeueTurn at turn
  split at turn
  · exact .inl rfl
  · rename_i item rest
    cases item with
    | none => cases turn
    | some request =>
        simp only [scheduledTimeOf] at turn
        split at turn
        · cases turn
        · refine .inr ⟨request, rest, rfl, ?_⟩
          have isMin : min deadline request.scheduledTime = deadline := by simpa using turn
          exact min_eq_left_iff.mp isMin

theorem WaitingRun.run (run : WaitingRun start queue waits) :
    Run taskRequestPtrCompare scheduledTimeOf
      (fun _ action => ∀ item, action = .enqueue item → item.isSome = true) start queue := by
  induction run with
  | start => exact .start
  | step _ nonNull step ih => exact .step ih nonNull step

theorem WaitingRun.consistent (run : WaitingRun start queue waits) :
    Consistent taskRequestPtrCompare {pointer | pointer.isSome = true} queue :=
  (run.run.consistent taskRequestPtrCompare_strictWeakOn fun _ item admitted => admitted item rfl).1

/-- What a step did after which the caller is waiting. -/
inductive WaitingStep (queue after : BlockingPriorityQueue Caller (TaskRequestPtr Name))
    (waits : Caller → Wait (TaskRequestPtr Name)) (caller : Caller) (deadline wake : Int) :
    QueueAction Caller (TaskRequestPtr Name) → Prop where
  | arrived (item : TaskRequestPtr Name) :
      queue.calls caller = some (.waiting deadline wake) →
      after.heap.Perm (queue.heap ++ [item]) →
      WaitingStep queue after waits caller deadline wake (.enqueue item)
  | began : after.heap = queue.heap →
      dequeueTurn scheduledTimeOf queue.heap queue.now deadline = .ok (.wait wake) →
      WaitingStep queue after waits caller deadline wake (.wait caller)
  | aside {action : QueueAction Caller (TaskRequestPtr Name)} :
      queue.calls caller = some (.waiting deadline wake) →
      nextWaits queue waits action caller = waits caller → after.heap ⊆ queue.heap →
      (Subsingleton Caller → after.heap = queue.heap) →
      WaitingStep queue after waits caller deadline wake action

theorem Step.waitingStep {action : QueueAction Caller (TaskRequestPtr Name)}
    (step : Step taskRequestPtrCompare scheduledTimeOf queue action after)
    (consistent : Consistent taskRequestPtrCompare {pointer | pointer.isSome = true} queue)
    (nonNull : ∀ item, action = .enqueue item → item.isSome = true)
    (waits : Caller → Wait (TaskRequestPtr Name))
    (waiting : after.calls caller = some (.waiting deadline wake)) :
    WaitingStep queue after waits caller deadline wake action := by
  cases step with
  | enqueue item pushed =>
      exact .arrived item waiting
        (consistent.pushed taskRequestPtrCompare_strictWeakOn (nonNull item rfl) pushed).1
  | tick => exact .aside waiting rfl (List.Subset.refl _) fun _ => rfl
  | dequeueWait other =>
      by_cases same : caller = other
      · subst same
        simp only [Function.update_self] at waiting
        cases waiting
      · simp only [Function.update_of_ne same] at waiting
        exact .aside waiting rfl (List.Subset.refl _) fun _ => rfl
  | wait other ready turn =>
      by_cases same : caller = other
      · subst same
        simp only [Function.update_self] at waiting
        cases waiting
        exact .began rfl turn
      · simp only [Function.update_of_ne same] at waiting
        exact .aside waiting (Function.update_of_ne same _ _) (List.Subset.refl _) fun _ => rfl
  | take other ready turn popped =>
      by_cases same : caller = other
      · subst same
        simp only [Function.update_self] at waiting
        cases waiting
      · simp only [Function.update_of_ne same] at waiting
        obtain ⟨front, tail, _, nonempty, _⟩ := dequeueTurn_take turn
        obtain ⟨_, perm, _⟩ := consistent.popped taskRequestPtrCompare_strictWeakOn nonempty popped
        refine .aside waiting rfl ?_ fun _ => absurd (Subsingleton.elim caller other) same
        intro item member
        rw [nonempty]
        exact List.mem_cons_of_mem _ (perm.mem_iff.mp member)
  | wake other timedOut =>
      by_cases same : caller = other
      · subst same
        simp only [Function.update_self] at waiting
        unfold afterWait at waiting
        split at waiting <;> cases waiting
      · simp only [Function.update_of_ne same] at waiting
        exact .aside waiting rfl (List.Subset.refl _) fun _ => rfl

/-- What is in the queue while a call waits for its deadline: what arrived since,
and what is scheduled no earlier than the first request was then. -/
def Waited (heap : List (TaskRequestPtr Name)) (wait : Wait (TaskRequestPtr Name))
    (deadline : Int) : Prop :=
  ∀ request, some request ∈ heap → some request ∈ wait.arrived ∨
    ∃ first, wait.front = some (some first) ∧ deadline ≤ first.scheduledTime ∧
      first.scheduledTime ≤ request.scheduledTime

omit [DecidableEq Caller] in
theorem waited_at_start
    (consistent : Consistent taskRequestPtrCompare {pointer | pointer.isSome = true} queue)
    (turn : dequeueTurn scheduledTimeOf queue.heap queue.now deadline = .ok (.wait deadline)) :
    Waited queue.heap { front := queue.heap.head?, arrived := [] } deadline := by
  intro request member
  rcases dequeueTurn_wait_deadline turn with empty | ⟨first, rest, nonempty, later⟩
  · rw [empty] at member
    cases member
  · refine .inr ⟨first, by rw [nonempty]; rfl, later, ?_⟩
    have heap := consistent.heap
    have ordered := consistent.ordered taskRequestPtrCompare_strictWeakOn
    rw [nonempty] at heap ordered member
    have precedes := taskRequestPtrCompare_eq_false.mp (heap.front_greatest ordered _ member)
    unfold Precedes at precedes
    omega

theorem WaitingRun.waited (run : WaitingRun start queue waits) :
    ∀ caller deadline, queue.calls caller = some (.waiting deadline deadline) →
      Waited queue.heap (waits caller) deadline := by
  induction run with
  | start =>
      intro caller deadline waiting
      cases waiting
  | @step queue after waits action run nonNull step ih =>
      intro caller deadline waiting
      cases step.waitingStep run.consistent nonNull waits waiting with
      | arrived item waiting perm =>
          intro request member
          rcases List.mem_append.mp (perm.mem_iff.mp member) with held | new
          · exact (ih caller deadline waiting request held).imp_left (List.mem_cons_of_mem _)
          · exact .inl (List.mem_singleton.mp new ▸ List.mem_cons_self)
      | began sameHeap turn =>
          rw [sameHeap, nextWaits, Function.update_self]
          have waited := waited_at_start run.consistent turn
          exact waited
      | aside waiting sameWait sub _ =>
          rw [sameWait]
          exact fun request member => ih caller deadline waiting request (sub member)

/-- While the only caller waits, nothing leaves the queue. -/
def Untouched (heap : List (TaskRequestPtr Name)) (wait : Wait (TaskRequestPtr Name)) : Prop :=
  (∀ first, wait.front = some first → first ∈ heap) ∧ ∀ item ∈ wait.arrived, item ∈ heap

theorem WaitingRun.untouched [Subsingleton Caller] (run : WaitingRun start queue waits) :
    ∀ caller deadline wake, queue.calls caller = some (.waiting deadline wake) →
      Untouched queue.heap (waits caller) := by
  induction run with
  | start =>
      intro caller deadline wake waiting
      cases waiting
  | @step queue after waits action run nonNull step ih =>
      intro caller deadline wake waiting
      cases step.waitingStep run.consistent nonNull waits waiting with
      | arrived item waiting perm =>
          obtain ⟨front, arrived⟩ := ih caller deadline wake waiting
          have held : ∀ other ∈ queue.heap, other ∈ after.heap := fun other member =>
            perm.mem_iff.mpr (List.mem_append_left [item] member)
          refine ⟨fun first isFirst => held first (front first isFirst), ?_⟩
          refine List.forall_mem_cons.mpr ⟨?_, fun other member => held other (arrived other member)⟩
          exact perm.mem_iff.mpr (List.mem_append_right _ List.mem_cons_self)
      | began sameHeap turn =>
          rw [sameHeap, nextWaits, Function.update_self]
          refine ⟨fun first isFirst => List.mem_of_mem_head? isFirst, ?_⟩
          intro item impossible
          cases impossible
      | aside waiting sameWait _ sameHeap =>
          rw [sameWait, sameHeap inferInstance]
          exact ih caller deadline wake waiting

theorem Step.wake_eq
    (step : Step taskRequestPtrCompare scheduledTimeOf queue (.wake caller timedOut) after)
    (waiting : queue.calls caller = some (.waiting deadline wake)) :
    after.heap = queue.heap ∧ after.now = queue.now ∧ (timedOut = true → wake ≤ after.now) := by
  cases step with
  | wake _ _ wasWaiting reached =>
      cases wasWaiting.symm.trans waiting
      exact ⟨rfl, rfl, reached⟩

/-- A wait clear of its deadline leaves nothing due behind, whatever other
consumers took meanwhile. -/
theorem WaitingRun.nothingDue (run : WaitingRun start queue waits)
    (waiting : queue.calls caller = some (.waiting deadline wake))
    (returned : afterWait deadline wake timedOut = none)
    (step : Step taskRequestPtrCompare scheduledTimeOf queue (.wake caller timedOut) after)
    (clear : (waits caller).ClearOf deadline) : NothingDue after deadline := by
  obtain ⟨rfl, rfl⟩ := afterWait_eq_none returned
  obtain ⟨sameHeap, _, reached⟩ := step.wake_eq waiting
  refine ⟨reached rfl, ?_⟩
  intro request member
  rw [sameHeap] at member
  rcases run.waited caller wake waiting request member with arrived | ⟨first, isFirst, later, before⟩
  · exact clear.arrived request arrived
  · have notExactly := clear.front first isFirst
    omega

theorem WaitingRun.clearOf [Subsingleton Caller] (run : WaitingRun start queue waits)
    (waiting : queue.calls caller = some (.waiting deadline wake))
    (later : ∀ request, some request ∈ queue.heap → deadline < request.scheduledTime) :
    (waits caller).ClearOf deadline := by
  obtain ⟨front, arrived⟩ := run.untouched caller deadline wake waiting
  refine ⟨?_, fun request member => later request (arrived _ member)⟩
  intro request isFirst
  exact (later request (front _ isFirst)).ne'

/-- A call that returns nothing leaves nothing due behind if its last wait was
clear of the deadline, among any number of consumers, and only then where it is
the only consumer. -/
theorem timesOut_nothingDue (timesOut : TimesOut start waits caller deadline after) :
    ((waits caller).ClearOf deadline → NothingDue after deadline) ∧
      (Subsingleton Caller → NothingDue after deadline → (waits caller).ClearOf deadline) := by
  obtain ⟨queue, wake, timedOut, run, waiting, returned, step⟩ := timesOut
  refine ⟨run.nothingDue waiting returned step, ?_⟩
  intro _ nothing
  obtain ⟨sameHeap, _, _⟩ := step.wake_eq waiting
  exact run.clearOf waiting (sameHeap ▸ nothing.later)

section FixedRuns

theorem pushHeap_first (item : TaskRequestPtr Unit) :
    PushHeap taskRequestPtrCompare ([] ++ [item]) [item] :=
  fun _ _ => ⟨.refl _, isHeap_singleton _ _⟩

/-- A call with a timeout of 5 that waits it out over one request. -/
theorem timesOut_over (request : TaskRequest Unit) (later : 5 ≤ request.scheduledTime) :
    ∃ waits : Unit → Wait (TaskRequestPtr Unit), ∃ after,
      TimesOut 0 waits () 5 after ∧ after.heap = [some request] ∧
        waits () = { front := some (some request), arrived := [] } := by
  have notDue : ¬ request.scheduledTime ≤ 0 := by omega
  have turn : dequeueTurn scheduledTimeOf [some request] 0 5 = .ok (.wait 5) := by
    simp [dequeueTurn, scheduledTimeOf, notDue, later]
  refine ⟨_, _, ⟨_, 5, true, .step (.step (.step (.step .start
    (by intro _ same; cases same; rfl) (.enqueue (some request) (pushHeap_first _)))
    (by intro _ impossible; cases impossible) (.dequeueWait () 5 rfl))
    (by intro _ impossible; cases impossible) (.wait () rfl turn))
    (by intro _ impossible; cases impossible) (.tick 5 (show (0 : Int) ≤ 5 by decide)), rfl, rfl,
    .wake () true rfl fun _ => le_rfl⟩, rfl, rfl⟩

/-- A request scheduled later than the deadline is left behind. -/
theorem timesOut_nothingDue_later :
    ∃ waits : Unit → Wait (TaskRequestPtr Unit), ∃ after,
      TimesOut 0 waits () 5 after ∧ after.heap = [some (requestAt 9 0)] ∧
        (((waits ()).ClearOf 5 → NothingDue after 5) ∧
          (Subsingleton Unit → NothingDue after 5 → (waits ()).ClearOf 5)) := by
  obtain ⟨waits, after, timesOut, heap, _⟩ := timesOut_over (requestAt 9 0) (by decide)
  exact ⟨waits, after, timesOut, heap, timesOut_nothingDue timesOut⟩

/-- Once over a request scheduled at exactly the deadline, and once over an
empty queue into which a due request comes between the timeout and the return. -/
theorem timeout_leaves_due_request :
    (∃ waits : Unit → Wait (TaskRequestPtr Unit), ∃ after,
      TimesOut 0 waits () 5 after ∧ (waits ()).arrived = [] ∧ ¬ NothingDue after 5) ∧
    ∃ waits : Unit → Wait (TaskRequestPtr Unit), ∃ after,
      TimesOut 0 waits () 5 after ∧ (waits ()).front = none ∧ ¬ NothingDue after 5 := by
  constructor
  · obtain ⟨waits, after, timesOut, heap, wait⟩ := timesOut_over (requestAt 5 0) (by decide)
    refine ⟨waits, after, timesOut, by rw [wait], ?_⟩
    intro nothing
    have later := nothing.later (requestAt 5 0) (heap ▸ List.mem_cons_self)
    exact absurd later (by decide)
  · refine ⟨_, _, ⟨_, 5, true, .step (.step (.step (.step .start
      (by intro _ impossible; cases impossible) (.dequeueWait () 5 rfl))
      (by intro _ impossible; cases impossible) (.wait () rfl rfl))
      (by intro _ impossible; cases impossible) (.tick 5 (show (0 : Int) ≤ 5 by decide)))
      (by intro _ same; cases same; rfl) (.enqueue (some (requestAt 3 0)) (pushHeap_first _)),
      rfl, rfl, .wake () true rfl fun _ => le_rfl⟩, rfl, ?_⟩
    intro nothing
    have later := nothing.later (requestAt 3 0) List.mem_cons_self
    exact absurd later (by decide)

end FixedRuns

end BabyLuigi.BlockingPriorityQueue
