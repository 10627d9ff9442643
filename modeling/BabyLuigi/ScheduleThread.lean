import BabyLuigi.ConcurrentShyguy
import Mathlib.Order.Bounds.Basic

/-!
# The schedule thread

The loop that asks for the next scheduled DAG, enqueues its run and sleeps. A
pass may start at any time: a notification, a spurious wake-up or the deadline
ends the sleep before it.
-/

set_option autoImplicit false

namespace BabyLuigi

open ConcurrentShyguy

/-- A call of `execute_at`, with the system time its notification stands for. -/
structure ExecuteAtCall where
  dag : ShyguyDag
  scheduledTime : Int
  occurrence : Int

/-- The state of the loop, and the calls it has made, newest first. -/
structure ScheduleThread where
  lastEnqueued : UnorderedMap Str Int
  calls : List ExecuteAtCall

def ScheduleThread.initial : ScheduleThread where
  lastEnqueued := ∅
  calls := []

/-- What one pass finds: the server as other threads left it, the clocks as
read during its call and an iteration order of the schedules. -/
structure SchedulePass (Store : Type) where
  server : ConcurrentShyguy Store
  clocks : ClockReadings
  traversal : UnorderedMap.Traversal Str Str

namespace SchedulePass

variable {Store : Type}

def instant (pass : SchedulePass Store) (occurrence : Int) : Int :=
  pass.clocks.nowSteady + (occurrence - pass.clocks.nowSystem)

/-- The system time a steady-clock instant of this pass stands for. -/
def occurrenceOf (pass : SchedulePass Store) (time : Int) : Int :=
  pass.clocks.nowSystem + (time - pass.clocks.nowSteady)

/-- The DAG and the occurrence that the call of this pass selects. -/
def selected (calcNext : CalcNext) (pass : SchedulePass Store) : Option (Str × Int) :=
  match nextScheduledDag calcNext pass.traversal pass.clocks pass.server with
  | .ok (some scheduled) =>
    match scheduled.associatedRequest.data with
    | .dag dag => some (dag.name, pass.occurrenceOf scheduled.time)
    | _ => none
  | _ => none

/-- One pass up to its sleep. `last_enqueued[name]` starts at the clock's epoch. -/
def run (calcNext : CalcNext) (pass : SchedulePass Store) (thread : ScheduleThread) :
    Except Fault ScheduleThread :=
  match nextScheduledDag calcNext pass.traversal pass.clocks pass.server with
  | .error fault => .error fault
  | .ok none => .ok thread
  | .ok (some scheduled) =>
    match scheduled.associatedRequest.data with
    | .dag dag =>
      let last := (thread.lastEnqueued.lookup dag.name).getD 0
      if last ≠ scheduled.time then
        .ok {
          lastEnqueued := thread.lastEnqueued.insert dag.name scheduled.time
          calls := {
            dag := dag
            scheduledTime := scheduled.time
            occurrence := pass.occurrenceOf scheduled.time } :: thread.calls }
      else .ok { thread with lastEnqueued := thread.lastEnqueued.insert dag.name last }
    | _ => .ok thread

end SchedulePass

namespace ScheduleThread

variable {Store : Type}

def executed (thread : ScheduleThread) : List (Str × Int) :=
  thread.calls.map fun call => (call.dag.name, call.occurrence)

/-- Runs of the loop over passes that the condition admits, newest pass first. -/
inductive Run (calcNext : CalcNext)
    (admits : List (SchedulePass Store) → ScheduleThread → SchedulePass Store → Prop) :
    List (SchedulePass Store) → ScheduleThread → Prop where
  | start : Run calcNext admits [] initial
  | pass {past : List (SchedulePass Store)} {thread after : ScheduleThread}
      {pass : SchedulePass Store} :
      Run calcNext admits past thread → admits past thread pass →
      pass.run calcNext thread = .ok after → Run calcNext admits (pass :: past) after

/-- The clocks of the machine: they differ by `offset`, each call reads the
system clock first, and calls follow one another. -/
structure Timed (offset : Int) (past : List (SchedulePass Store)) (pass : SchedulePass Store) :
    Prop where
  steadySecond : pass.clocks.nowSystem + offset ≤ pass.clocks.nowSteady
  follows : ∀ previous ∈ past.head?, previous.clocks.nowSteady ≤ pass.clocks.nowSystem + offset

end ScheduleThread

/-- `calcNext` returns the least occurrence after its argument, if there is one. -/
structure ExactNext (occurs : Str → Int → Prop) (calcNext : CalcNext) : Prop where
  returns : ∀ schedule now, ∃ found, calcNext schedule now = .ok found
  least : ∀ schedule now tp, calcNext schedule now = .ok (some tp) ↔
    IsLeast {time | occurs schedule time ∧ now < time} tp

/-- One minute in nanosecond ticks. -/
def minuteTicks : Int := 60 * 1000000000

end BabyLuigi
