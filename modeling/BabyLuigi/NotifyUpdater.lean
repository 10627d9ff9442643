import BabyLuigi.Request

/-!
# Wake-ups of the schedule thread

`notify_updater` in its critical sections. Any thread may post at any time; one
thread sleeps. A post wakes the sleeper only while it waits, and a wait may
also end without a cause.
-/

set_option autoImplicit false

namespace BabyLuigi

/-- Where the thread stands that calls `sleep_until_or_notified`. -/
inductive Sleeper where
  | running
  | waiting (deadline : Int)
  | woken
  deriving DecidableEq, Repr

structure NotifyUpdater where
  cachedTime : Option NotificationType
  sleeper : Sleeper

namespace NotifyUpdater

def initial : NotifyUpdater where
  cachedTime := none
  sleeper := .running

def notifyWakeup (updater : NotifyUpdater) (notification : NotificationType) : NotifyUpdater where
  cachedTime := some notification
  sleeper :=
    match updater.sleeper with
    | .waiting _ => .woken
    | .running => .running
    | .woken => .woken

/-- `sleep_until_or_notified` up to its wait, which tests nothing first. -/
def beginSleep (updater : NotifyUpdater) (nextTime : Int) : NotifyUpdater :=
  { updater with sleeper := .waiting nextTime }

/-- `sleep_until_or_notified` after its wait. -/
def endSleep (_ : NotifyUpdater) : NotifyUpdater where
  cachedTime := none
  sleeper := .running

end NotifyUpdater

/-- What the threads have done with the updater so far. -/
inductive WakeupEvent where
  | posted (notification : NotificationType)
  | slept (nextTime : Int)
  | returned (result : Option NotificationType)

/-- The updater with the steady clock and the events so far, newest first. -/
structure WakeupWorld where
  updater : NotifyUpdater
  now : Int
  events : List WakeupEvent

inductive WakeupAction where
  | notifyWakeup (notification : NotificationType)
  | beginSleep (nextTime : Int)
  | wakeSpuriously
  | timeOut
  | endSleep
  | tick (later : Int)

namespace WakeupWorld

def initial (now : Int) : WakeupWorld where
  updater := .initial
  now := now
  events := []

def act (world : WakeupWorld) : WakeupAction → Option WakeupWorld
  | .notifyWakeup notification =>
    some { world with
      updater := world.updater.notifyWakeup notification
      events := .posted notification :: world.events }
  | .beginSleep nextTime =>
    match world.updater.sleeper with
    | .running =>
      some { world with
        updater := world.updater.beginSleep nextTime
        events := .slept nextTime :: world.events }
    | .waiting _ | .woken => none
  | .wakeSpuriously =>
    match world.updater.sleeper with
    | .waiting _ => some { world with updater := { world.updater with sleeper := .woken } }
    | .running | .woken => none
  | .timeOut =>
    match world.updater.sleeper with
    | .waiting deadline =>
      if deadline ≤ world.now then
        some { world with updater := { world.updater with sleeper := .woken } }
      else none
    | .running | .woken => none
  | .endSleep =>
    match world.updater.sleeper with
    | .woken =>
      some { world with
        updater := world.updater.endSleep
        events := .returned world.updater.cachedTime :: world.events }
    | .running | .waiting _ => none
  | .tick later => if world.now ≤ later then some { world with now := later } else none

/-- Interleavings of the threads whose actions the condition admits. -/
inductive Run (admits : WakeupWorld → WakeupAction → Prop) (start : Int) : WakeupWorld → Prop where
  | start : Run admits start (initial start)
  | act {world after : WakeupWorld} (action : WakeupAction) :
      Run admits start world → admits world action → world.act action = some after →
      Run admits start after

end WakeupWorld

end BabyLuigi
