import BabyLuigi.BlockingPriorityQueue
import BabyLuigi.Support.Transition
import BabyLuigi.TaskRequest

/-! What the timed queue returns, and what it still holds, in every
interleaving of its producers and consumers. -/

set_option autoImplicit false

namespace BabyLuigi.BlockingPriorityQueue

section Generic

variable {Caller Item : Type} {compare : Item → Item → Bool}
  {scheduledTimeOf : Item → Except Fault Int} {valid : Set Item}
  {queue after : BlockingPriorityQueue Caller Item}

theorem dequeueTurn_take {heap : List Item} {now deadline : Int}
    (turn : dequeueTurn scheduledTimeOf heap now deadline = .ok .take) :
    ∃ front tail time, heap = front :: tail ∧ scheduledTimeOf front = .ok time ∧ time ≤ now := by
  unfold dequeueTurn at turn
  split at turn
  · cases turn
  · rename_i front tail
    split at turn
    · cases turn
    · rename_i time read
      split at turn
      · exact ⟨front, tail, time, rfl, read, ‹_›⟩
      · cases turn

/-- The heap order, and where every item is that was ever enqueued. -/
structure Consistent (compare : Item → Item → Bool) (valid : Set Item)
    (queue : BlockingPriorityQueue Caller Item) : Prop where
  heap : IsHeap compare queue.heap
  valid : ∀ item ∈ enqueuedItems queue.events, item ∈ valid
  kept : (enqueuedItems queue.events).Perm (returnedItems queue.events ++ queue.heap)

theorem Consistent.ordered (consistent : Consistent compare valid queue)
    (order : StrictWeakOn compare valid) : StrictWeakOn compare {item | item ∈ queue.heap} :=
  order.mono fun item member =>
    consistent.valid item (consistent.kept.mem_iff.mpr (List.mem_append_right _ member))

/-- A return took an item that was due, and nothing it left in the heap is above it. -/
def TookGreatest (compare : Item → Item → Bool) (scheduledTimeOf : Item → Except Fault Int)
    (event : QueueEvent Caller Item) (earlier : List (QueueEvent Caller Item)) : Prop :=
  ∀ caller item now heap, event = .returned caller item now heap →
    (∃ time, scheduledTimeOf item = .ok time ∧ time ≤ now) ∧ item ∈ heap ∧
    (∀ other ∈ heap, compare item other = false) ∧
    (enqueuedItems earlier).Perm (returnedItems earlier ++ heap)

theorem Consistent.pushed (consistent : Consistent compare valid queue)
    (order : StrictWeakOn compare valid) {item : Item} {heap : List Item} (admitted : item ∈ valid)
    (pushed : PushHeap compare (queue.heap ++ [item]) heap) :
    heap.Perm (queue.heap ++ [item]) ∧ IsHeap compare heap := by
  have members : ∀ other ∈ queue.heap ++ [item], other ∈ valid := by
    intro other member
    rcases List.mem_append.mp member with held | new
    · exact consistent.valid other (consistent.kept.mem_iff.mpr (List.mem_append_right _ held))
    · exact List.mem_singleton.mp new ▸ admitted
  have before : IsHeap compare (queue.heap ++ [item]).dropLast := by
    rw [List.dropLast_concat]
    exact consistent.heap
  exact pushed (order.mono members) before

theorem Consistent.popped (consistent : Consistent compare valid queue)
    (order : StrictWeakOn compare valid) {front item : Item} {tail rest : List Item}
    (nonempty : queue.heap = front :: tail) (popped : PopHeap compare queue.heap (rest ++ [item])) :
    item = front ∧ rest.Perm tail ∧ IsHeap compare rest := by
  obtain ⟨remaining, result, perm, isHeap⟩ :=
    popped front tail nonempty (consistent.ordered order) consistent.heap
  obtain ⟨rfl, single⟩ := List.append_inj' result rfl
  exact ⟨List.singleton_inj.mp single, perm, isHeap⟩

theorem Consistent.enqueue (consistent : Consistent compare valid queue)
    (order : StrictWeakOn compare valid) {item : Item} {heap : List Item} (admitted : item ∈ valid)
    (pushed : PushHeap compare (queue.heap ++ [item]) heap) :
    Consistent compare valid
      { queue with heap := heap, events := .enqueued item :: queue.events } := by
  obtain ⟨perm, isHeap⟩ := consistent.pushed order admitted pushed
  refine ⟨isHeap, List.forall_mem_cons.mpr ⟨admitted, consistent.valid⟩, ?_⟩
  have moved : (returnedItems queue.events ++ heap).Perm
      (item :: (returnedItems queue.events ++ queue.heap)) := by
    refine (perm.append_left _).trans ?_
    rw [← List.append_assoc]
    exact List.perm_append_singleton _ _
  exact (consistent.kept.cons item).trans moved.symm

theorem Consistent.take (consistent : Consistent compare valid queue)
    (order : StrictWeakOn compare valid) {caller : Caller} {deadline : Int} {item : Item}
    {rest : List Item} {calls : Caller → Option DequeuePhase}
    (turn : dequeueTurn scheduledTimeOf queue.heap queue.now deadline = .ok .take)
    (popped : PopHeap compare queue.heap (rest ++ [item])) :
    Consistent compare valid { queue with
        heap := rest
        calls := calls
        events := .returned caller item queue.now queue.heap :: queue.events } ∧
      TookGreatest compare scheduledTimeOf (.returned caller item queue.now queue.heap)
        queue.events := by
  obtain ⟨front, tail, time, nonempty, read, due⟩ := dequeueTurn_take turn
  obtain ⟨rfl, perm, isHeap⟩ := consistent.popped order nonempty popped
  constructor
  · refine ⟨isHeap, consistent.valid, ?_⟩
    have moved : (returnedItems queue.events ++ queue.heap).Perm
        (item :: (returnedItems queue.events ++ rest)) := by
      rw [nonempty]
      exact List.perm_middle.trans ((perm.symm.append_left _).cons item)
    exact consistent.kept.trans moved
  · intro _ _ _ _ same
    cases same
    refine ⟨⟨time, read, due⟩, nonempty ▸ List.mem_cons_self, ?_, consistent.kept⟩
    have heap := consistent.heap
    have ordered := consistent.ordered order
    rw [nonempty] at heap ordered ⊢
    exact heap.front_greatest ordered

/-- Every interleaving of valid items keeps the queue consistent, and every
return takes a greatest item. -/
theorem Run.consistent [DecidableEq Caller]
    {admits : List (QueueEvent Caller Item) → QueueAction Caller Item → Prop} {start : Int}
    (run : Run compare scheduledTimeOf admits start queue) (order : StrictWeakOn compare valid)
    (admitted : ∀ events item, admits events (.enqueue item) → item ∈ valid) :
    Consistent compare valid queue ∧
      Transition.EachEvent (TookGreatest compare scheduledTimeOf) queue.events := by
  induction run with
  | start =>
      refine ⟨⟨isHeap_nil compare, ?_, .refl _⟩, Transition.eachEvent_nil⟩
      intro _ impossible
      cases impossible
  | step _ admits step ih =>
      obtain ⟨consistent, took⟩ := ih
      cases step with
      | enqueue item pushed =>
          refine ⟨consistent.enqueue order (admitted _ item admits) pushed, took.cons ?_⟩
          intro _ _ _ _ impossible
          cases impossible
      | dequeueWait _ _ _ => exact ⟨⟨consistent.heap, consistent.valid, consistent.kept⟩, took⟩
      | wait _ _ _ => exact ⟨⟨consistent.heap, consistent.valid, consistent.kept⟩, took⟩
      | take _ _ turn popped =>
          obtain ⟨kept, tookFront⟩ := consistent.take order turn popped
          exact ⟨kept, took.cons tookFront⟩
      | wake _ _ _ _ => exact ⟨⟨consistent.heap, consistent.valid, consistent.kept⟩, took⟩
      | tick _ _ => exact ⟨⟨consistent.heap, consistent.valid, consistent.kept⟩, took⟩

theorem enqueuedItems_append (later earlier : List (QueueEvent Caller Item)) :
    enqueuedItems (later ++ earlier) = enqueuedItems later ++ enqueuedItems earlier := by
  induction later with
  | nil => rfl
  | cons event rest ih => cases event <;> simp [enqueuedItems, ih]

theorem returnedItems_append (later earlier : List (QueueEvent Caller Item)) :
    returnedItems (later ++ earlier) = returnedItems later ++ returnedItems earlier := by
  induction later with
  | nil => rfl
  | cons event rest ih => cases event <;> simp [returnedItems, ih]

/-- Where no item is enqueued twice, an item still in the heap has not been returned. -/
theorem notMem_returnedItems {events : List (QueueEvent Caller Item)} {heap : List Item}
    (distinct : (enqueuedItems events).Nodup)
    (kept : (enqueuedItems events).Perm (returnedItems events ++ heap)) {item : Item}
    (held : item ∈ heap) : item ∉ returnedItems events := fun returned =>
  (List.nodup_append.mp (kept.nodup_iff.mp distinct)).2.2 item returned item held rfl

end Generic

section TaskRequests

variable {Caller Name : Type}

/-- Earlier in time, or at the same time with a sequence that is not later. -/
def Precedes (first second : TaskRequest Name) : Prop :=
  first.scheduledTime < second.scheduledTime ∨
    first.scheduledTime = second.scheduledTime ∧ first.sequence ≤ second.sequence

theorem taskRequestPtrCompare_eq_false {first second : TaskRequest Name} :
    taskRequestPtrCompare (some first) (some second) = false ↔ Precedes first second := by
  simp only [taskRequestPtrCompare, Precedes]
  split
  · rw [decide_eq_false_iff_not]
    omega
  · rw [decide_eq_false_iff_not]
    omega

theorem taskRequestPtrCompare_strictWeakOn :
    StrictWeakOn (taskRequestPtrCompare : TaskRequestPtr Name → TaskRequestPtr Name → Bool)
      {pointer | pointer.isSome = true} where
  asymmetric first firstSome second secondSome above := by
    obtain ⟨first, rfl⟩ := Option.isSome_iff_exists.mp firstSome
    obtain ⟨second, rfl⟩ := Option.isSome_iff_exists.mp secondSome
    have notFirst : ¬ Precedes first second := by
      rw [← taskRequestPtrCompare_eq_false, above]
      simp
    rw [taskRequestPtrCompare_eq_false]
    unfold Precedes at notFirst ⊢
    omega
  negativelyTransitive first firstSome second secondSome third thirdSome := by
    obtain ⟨first, rfl⟩ := Option.isSome_iff_exists.mp firstSome
    obtain ⟨second, rfl⟩ := Option.isSome_iff_exists.mp secondSome
    obtain ⟨third, rfl⟩ := Option.isSome_iff_exists.mp thirdSome
    simp only [taskRequestPtrCompare_eq_false, Precedes]
    omega

/-- A new request is not null, and its sequence is that of no earlier one. -/
def NonNullDistinct (events : List (QueueEvent Caller (TaskRequestPtr Name)))
    (action : QueueAction Caller (TaskRequestPtr Name)) : Prop :=
  ∀ item, action = .enqueue item → ∃ request, item = some request ∧
    ∀ other, some other ∈ enqueuedItems events → other.sequence ≠ request.sequence

variable [DecidableEq Caller] {queue : BlockingPriorityQueue Caller (TaskRequestPtr Name)}
  {start : Int}

theorem Run.enqueued_nodup
    (run : Run taskRequestPtrCompare scheduledTimeOf NonNullDistinct start queue) :
    (enqueuedItems queue.events).Nodup := by
  induction run with
  | start => exact List.nodup_nil
  | step _ admits step ih =>
      cases step with
      | enqueue item _ =>
          obtain ⟨request, rfl, fresh⟩ := admits item rfl
          exact List.nodup_cons.mpr ⟨fun member => fresh request member rfl, ih⟩
      | dequeueWait _ _ _ => exact ih
      | wait _ _ _ => exact ih
      | take _ _ _ _ => exact ih
      | wake _ _ _ _ => exact ih
      | tick _ _ => exact ih

/-- A timed priority queue: what each return took, and where all items are. -/
structure TimedPriority (queue : BlockingPriorityQueue Caller (TaskRequestPtr Name)) : Prop where
  returned : ∀ later caller item now heap earlier,
    queue.events = later ++ .returned caller item now heap :: earlier →
    ∃ request, item = some request ∧ request.scheduledTime ≤ now ∧ item ∈ heap ∧
      (∀ other, some other ∈ heap → Precedes request other) ∧
      item ∈ enqueuedItems earlier ∧ item ∉ returnedItems earlier ∧
      (enqueuedItems earlier).Perm (returnedItems earlier ++ heap)
  once : (returnedItems queue.events).Nodup
  kept : (enqueuedItems queue.events).Perm (returnedItems queue.events ++ queue.heap)
  inOrder : ∀ later laterCaller second laterNow laterHeap between caller first now heap earlier,
    queue.events = later ++ .returned laterCaller (some second) laterNow laterHeap ::
      (between ++ .returned caller (some first) now heap :: earlier) →
    some second ∈ enqueuedItems earlier → Precedes first second

/-- On non-null requests with distinct sequences, every interleaving of
producers and consumers takes due requests in the order of their times, first
in first out among equal times, and loses none. -/
theorem run_timedPriority
    (run : Run taskRequestPtrCompare scheduledTimeOf NonNullDistinct start queue) :
    TimedPriority queue := by
  have distinct := run.enqueued_nodup
  obtain ⟨consistent, took⟩ := run.consistent taskRequestPtrCompare_strictWeakOn
    (fun _ item admitted => by obtain ⟨_, rfl, _⟩ := admitted item rfl; rfl)
  have distinctEarlier : ∀ later earlier, queue.events = later ++ earlier →
      (enqueuedItems earlier).Nodup := by
    intro later earlier split
    rw [split, enqueuedItems_append] at distinct
    exact (List.nodup_append.mp distinct).2.1
  have returned : ∀ later caller item now heap earlier,
      queue.events = later ++ .returned caller item now heap :: earlier →
      ∃ request, item = some request ∧ request.scheduledTime ≤ now ∧ item ∈ heap ∧
        (∀ other, some other ∈ heap → Precedes request other) ∧
        item ∈ enqueuedItems earlier ∧ item ∉ returnedItems earlier ∧
        (enqueuedItems earlier).Perm (returnedItems earlier ++ heap) := by
    intro later caller item now heap earlier split
    obtain ⟨⟨time, read, due⟩, held, greatest, kept⟩ :=
      took later _ earlier split caller item now heap rfl
    cases item with
    | none => cases read
    | some request =>
        cases read
        have fresh := distinctEarlier (later ++ [.returned caller (some request) now heap]) earlier
          (by rw [split, List.append_assoc]; rfl)
        exact ⟨request, rfl, due, held,
          fun other member => taskRequestPtrCompare_eq_false.mp (greatest _ member),
          kept.mem_iff.mpr (List.mem_append_right _ held), notMem_returnedItems fresh kept held, kept⟩
  refine ⟨returned, ?_, consistent.kept, ?_⟩
  · exact (List.nodup_append.mp (consistent.kept.nodup_iff.mp distinct)).1
  · intro later laterCaller second laterNow laterHeap between caller first now heap earlier split
      enqueued
    obtain ⟨_, _, _, _, _, _, notBefore, _⟩ := returned _ _ _ _ _ _ split
    obtain ⟨_, same, _, _, least, _, _, kept⟩ := returned
      (later ++ .returned laterCaller (some second) laterNow laterHeap :: between) caller
      (some first) now heap earlier (by rw [split, List.append_assoc]; rfl)
    cases same
    rcases List.mem_append.mp (kept.mem_iff.mp enqueued) with gone | held
    · refine absurd ?_ notBefore
      rw [returnedItems_append]
      exact List.mem_append_right _ (List.mem_cons_of_mem _ gone)
    · exact least second held

def requestAt (scheduledTime : Int) (sequence : Nat) : TaskRequest Unit where
  scheduledTime := scheduledTime
  sequence := sequence
  payload := { taskRunners := [], dag := .ofName () }

/-- The later request is enqueued first and the earlier one is returned first. -/
theorem run_timedPriority_later_first :
    ∃ queue : BlockingPriorityQueue Nat (TaskRequestPtr Unit),
      Run taskRequestPtrCompare scheduledTimeOf NonNullDistinct 0 queue ∧
      returnedItems queue.events = [some (requestAt 3 1)] ∧
      queue.heap = [some (requestAt 5 0)] ∧ TimedPriority queue := by
  have run : ∃ queue : BlockingPriorityQueue Nat (TaskRequestPtr Unit),
      Run taskRequestPtrCompare scheduledTimeOf NonNullDistinct 0 queue ∧
      returnedItems queue.events = [some (requestAt 3 1)] ∧
      queue.heap = [some (requestAt 5 0)] := by
    have pushLater : PushHeap taskRequestPtrCompare ([] ++ [some (requestAt 5 0)])
        [some (requestAt 5 0)] :=
      fun _ _ => ⟨.refl _, isHeap_singleton _ _⟩
    have pushEarlier : PushHeap taskRequestPtrCompare
        ([some (requestAt 5 0)] ++ [some (requestAt 3 1)])
        [some (requestAt 3 1), some (requestAt 5 0)] :=
      fun _ _ => ⟨.swap _ _ _, isHeap_pair rfl⟩
    have popEarlier : PopHeap taskRequestPtrCompare
        [some (requestAt 3 1), some (requestAt 5 0)]
        ([some (requestAt 5 0)] ++ [some (requestAt 3 1)]) := by
      intro front tail same _ _
      cases same
      exact ⟨_, rfl, .refl _, isHeap_singleton _ _⟩
    refine ⟨_, .step (.step (.step (.step (.step .start
      ?_ (.enqueue (some (requestAt 5 0)) pushLater))
      ?_ (.enqueue (some (requestAt 3 1)) pushEarlier))
      (by intro _ impossible; cases impossible) (.dequeueWait 7 50 rfl))
      (by intro _ impossible; cases impossible) (.tick 4 (by decide)))
      (by intro _ impossible; cases impossible) (.take 7 rfl rfl popEarlier), rfl, rfl⟩
    · intro item added
      cases added
      exact ⟨_, rfl, by simp [initial, enqueuedItems]⟩
    · intro item added
      cases added
      refine ⟨_, rfl, ?_⟩
      intro other member
      obtain rfl := Option.some.inj (List.mem_singleton.mp member)
      decide
  obtain ⟨queue, run, returned, held⟩ := run
  exact ⟨queue, run, returned, held, run_timedPriority run⟩

end TaskRequests

end BabyLuigi.BlockingPriorityQueue
