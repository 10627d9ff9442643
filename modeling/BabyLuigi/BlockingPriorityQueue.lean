import BabyLuigi.Graph
import BabyLuigi.Support.Heap

/-!
# The timed queue

`blocking_priority_queue` as its turns under the mutex. Any number of threads
enqueue and dequeue; a thread that waits may wake at any time.
-/

set_option autoImplicit false

namespace BabyLuigi

/-- Where a call of `dequeue_wait` stands outside the lock: about to look at the
heap, or waiting on the condition until a time of its choice. -/
inductive DequeuePhase where
  | ready (deadline : Int)
  | waiting (deadline wake : Int)
  deriving DecidableEq, Repr

/-- What one turn under the lock comes to. -/
inductive DequeueTurn where
  | take
  | wait (wake : Int)
  deriving DecidableEq, Repr

/-- One pass of the loop in `dequeue_wait`, up to its return or its wait. -/
def dequeueTurn {Item : Type} (scheduledTimeOf : Item → Except Fault Int) (heap : List Item)
    (now deadline : Int) : Except Fault DequeueTurn :=
  match heap with
  | [] => .ok (.wait deadline)
  | nextItem :: _ =>
    match scheduledTimeOf nextItem with
    | .error fault => .error fault
    | .ok time => if time ≤ now then .ok .take else .ok (.wait (min deadline time))

/-- The phase after a wait. A call that its own deadline woke returns nothing,
whatever has been enqueued meanwhile. -/
def afterWait (deadline wake : Int) (timedOut : Bool) : Option DequeuePhase :=
  if timedOut && wake == deadline then none else some (.ready deadline)

/-- What happened to the queue; a return records the time its call read and the
heap it took from. -/
inductive QueueEvent (Caller Item : Type) where
  | enqueued (item : Item)
  | returned (caller : Caller) (item : Item) (now : Int) (heap : List Item)

structure BlockingPriorityQueue (Caller Item : Type) where
  heap : List Item
  now : Int
  calls : Caller → Option DequeuePhase
  events : List (QueueEvent Caller Item)

/-- A turn of a thread under the lock, a wake-up, or the clock going on. -/
inductive QueueAction (Caller Item : Type) where
  | enqueue (item : Item)
  | dequeueWait (caller : Caller) (timeout : Int)
  | wait (caller : Caller)
  | take (caller : Caller) (item : Item)
  | wake (caller : Caller) (timedOut : Bool)
  | tick (later : Int)

namespace BlockingPriorityQueue

variable {Caller Item : Type} [DecidableEq Caller]

def initial (now : Int) : BlockingPriorityQueue Caller Item where
  heap := []
  now := now
  calls := fun _ => none
  events := []

inductive Step (compare : Item → Item → Bool) (scheduledTimeOf : Item → Except Fault Int)
    (queue : BlockingPriorityQueue Caller Item) :
    QueueAction Caller Item → BlockingPriorityQueue Caller Item → Prop where
  | enqueue (item : Item) {heap : List Item} :
      PushHeap compare (queue.heap ++ [item]) heap →
      Step compare scheduledTimeOf queue (.enqueue item)
        { queue with heap := heap, events := .enqueued item :: queue.events }
  | dequeueWait (caller : Caller) (timeout : Int) :
      queue.calls caller = none →
      Step compare scheduledTimeOf queue (.dequeueWait caller timeout)
        { queue with
          calls := Function.update queue.calls caller (some (.ready (queue.now + timeout))) }
  | wait (caller : Caller) {deadline wake : Int} :
      queue.calls caller = some (.ready deadline) →
      dequeueTurn scheduledTimeOf queue.heap queue.now deadline = .ok (.wait wake) →
      Step compare scheduledTimeOf queue (.wait caller)
        { queue with
          calls := Function.update queue.calls caller (some (.waiting deadline wake)) }
  | take (caller : Caller) {deadline : Int} {item : Item} {rest : List Item} :
      queue.calls caller = some (.ready deadline) →
      dequeueTurn scheduledTimeOf queue.heap queue.now deadline = .ok .take →
      PopHeap compare queue.heap (rest ++ [item]) →
      Step compare scheduledTimeOf queue (.take caller item)
        { queue with
          heap := rest
          calls := Function.update queue.calls caller none
          events := .returned caller item queue.now queue.heap :: queue.events }
  | wake (caller : Caller) {deadline wake : Int} (timedOut : Bool) :
      queue.calls caller = some (.waiting deadline wake) →
      (timedOut = true → wake ≤ queue.now) →
      Step compare scheduledTimeOf queue (.wake caller timedOut)
        { queue with
          calls := Function.update queue.calls caller (afterWait deadline wake timedOut) }
  | tick (later : Int) :
      queue.now ≤ later →
      Step compare scheduledTimeOf queue (.tick later) { queue with now := later }

/-- The items enqueued so far, newest first. -/
def enqueuedItems : List (QueueEvent Caller Item) → List Item
  | [] => []
  | .enqueued item :: rest => item :: enqueuedItems rest
  | .returned _ _ _ _ :: rest => enqueuedItems rest

/-- The items returned so far, newest first. -/
def returnedItems : List (QueueEvent Caller Item) → List Item
  | [] => []
  | .enqueued _ :: rest => returnedItems rest
  | .returned _ item _ _ :: rest => item :: returnedItems rest

/-- Interleavings whose actions the condition admits after the events before them. -/
inductive Run (compare : Item → Item → Bool) (scheduledTimeOf : Item → Except Fault Int)
    (admits : List (QueueEvent Caller Item) → QueueAction Caller Item → Prop) (start : Int) :
    BlockingPriorityQueue Caller Item → Prop where
  | start : Run compare scheduledTimeOf admits start (initial start)
  | step {queue after : BlockingPriorityQueue Caller Item} {action : QueueAction Caller Item} :
      Run compare scheduledTimeOf admits start queue →
      admits queue.events action →
      Step compare scheduledTimeOf queue action after →
      Run compare scheduledTimeOf admits start after

end BlockingPriorityQueue

end BabyLuigi
