import Mathlib.Logic.Function.Basic

/-!
# The input queue

`blocking_queue` as its turns under the mutex. Any number of threads enqueue and
dequeue; a thread that waits may wake at any time.
-/

set_option autoImplicit false

namespace BabyLuigi

/-- Where a call of `dequeue` or `dequeue_wait` stands outside the lock; the
former has no timeout and no deadline. -/
inductive InputPhase where
  | ready (timeout : Option Int)
  | waiting (timeout : Option Int) (deadline : Option Int)
  deriving DecidableEq, Repr

inductive InputEvent (Caller Item : Type) where
  | enqueued (item : Item)
  | returned (caller : Caller) (item : Item)
  | timedOut (caller : Caller)

structure BlockingQueue (Caller Item : Type) where
  q : List Item
  now : Int
  calls : Caller → Option InputPhase
  events : List (InputEvent Caller Item)

inductive InputAction (Caller Item : Type) where
  | enqueue (item : Item)
  | dequeue (caller : Caller)
  | dequeueWait (caller : Caller) (timeout : Int)
  | wait (caller : Caller)
  | take (caller : Caller) (item : Item)
  | wake (caller : Caller)
  | timeOut (caller : Caller)
  | tick (later : Int)

namespace BlockingQueue

variable {Caller Item : Type} [DecidableEq Caller]

def initial (now : Int) : BlockingQueue Caller Item where
  q := []
  now := now
  calls := fun _ => none
  events := []

/-- A wait that its deadline ends returns nothing without a look at the queue;
any other wait looks at it again, with the whole timeout before it. -/
inductive Step (queue : BlockingQueue Caller Item) :
    InputAction Caller Item → BlockingQueue Caller Item → Prop where
  | enqueue (item : Item) :
      Step queue (.enqueue item)
        { queue with q := queue.q ++ [item], events := .enqueued item :: queue.events }
  | dequeue (caller : Caller) :
      queue.calls caller = none →
      Step queue (.dequeue caller)
        { queue with calls := Function.update queue.calls caller (some (.ready none)) }
  | dequeueWait (caller : Caller) (timeout : Int) :
      queue.calls caller = none →
      Step queue (.dequeueWait caller timeout)
        { queue with calls := Function.update queue.calls caller (some (.ready (some timeout))) }
  | wait (caller : Caller) {timeout : Option Int} :
      queue.calls caller = some (.ready timeout) → queue.q = [] →
      Step queue (.wait caller)
        { queue with
          calls := Function.update queue.calls caller
            (some (.waiting timeout (timeout.map (queue.now + ·)))) }
  | take (caller : Caller) {timeout : Option Int} {item : Item} {rest : List Item} :
      queue.calls caller = some (.ready timeout) → queue.q = item :: rest →
      Step queue (.take caller item)
        { queue with
          q := rest
          calls := Function.update queue.calls caller none
          events := .returned caller item :: queue.events }
  | wake (caller : Caller) {timeout deadline : Option Int} :
      queue.calls caller = some (.waiting timeout deadline) →
      Step queue (.wake caller)
        { queue with calls := Function.update queue.calls caller (some (.ready timeout)) }
  | timeOut (caller : Caller) {timeout : Option Int} {deadline : Int} :
      queue.calls caller = some (.waiting timeout (some deadline)) → deadline ≤ queue.now →
      Step queue (.timeOut caller)
        { queue with
          calls := Function.update queue.calls caller none
          events := .timedOut caller :: queue.events }
  | tick (later : Int) :
      queue.now ≤ later → Step queue (.tick later) { queue with now := later }

/-- The items enqueued so far, newest first. -/
def enqueuedItems : List (InputEvent Caller Item) → List Item
  | [] => []
  | .enqueued item :: rest => item :: enqueuedItems rest
  | .returned _ _ :: rest => enqueuedItems rest
  | .timedOut _ :: rest => enqueuedItems rest

/-- The items returned so far, newest first. -/
def returnedItems : List (InputEvent Caller Item) → List Item
  | [] => []
  | .enqueued _ :: rest => returnedItems rest
  | .returned _ item :: rest => item :: returnedItems rest
  | .timedOut _ :: rest => returnedItems rest

end BlockingQueue

end BabyLuigi
