import BabyLuigi.BlockingPriorityQueue
import BabyLuigi.ExecutionControl

/-!
# Producers and executioners

The threads that queue runs, the executioners they start, and the queue between
them. The loop of `run_until_idle` is embedded up to the waves of a DAG, of
which only their number in flight is kept.
-/

set_option autoImplicit false

namespace BabyLuigi

/-- Where `run_until_idle` stands; from `draining` on it has left its loop. -/
inductive LoopPhase where
  | starting
  | looping
  | dequeuing
  | received
  | timedOut
  | draining
  deriving DecidableEq, Repr

structure ExecutionLoop where
  phase : LoopPhase
  lastWork : Int
  inFlightDags : Nat

/-- The idle test of the loop, after `dequeue_wait` returned nothing. -/
def ExecutionLoop.isIdle (loop : ExecutionLoop) (idleTimeout now : Int) : Bool :=
  loop.inFlightDags == 0 && decide (idleTimeout ≤ now - loop.lastWork)

/-- A producer that owes a call has enqueued a request and has yet to call
`ensure_executioner_running`. -/
structure ExecutionSystem (Producer Item : Type) where
  control : ExecutionControl Producer
  queue : BlockingPriorityQueue Nat Item
  loops : Nat → ExecutionLoop
  owing : Producer → Bool

inductive SystemAction (Producer Item : Type) where
  | enqueue (producer : Producer) (item : Item)
  | control (action : ControlAction Producer)
  | start (executioner : Nat)
  | loadTerminator (executioner : Nat)
  | dequeue (action : QueueAction Nat Item)
  | testIdle (executioner : Nat)
  | dispatch (executioner : Nat)
  | complete (executioner : Nat)
  | tick (later : Int)

namespace ExecutionSystem

variable {Producer Item : Type}

def initial (now : Int) : ExecutionSystem Producer Item where
  control := .initial
  queue := .initial now
  loops := fun _ => { phase := .starting, lastWork := now, inFlightDags := 0 }
  owing := fun _ => false

def setLoop (system : ExecutionSystem Producer Item) (executioner : Nat) (loop : ExecutionLoop) :
    ExecutionSystem Producer Item :=
  { system with loops := Function.update system.loops executioner loop }

def setPhase (system : ExecutionSystem Producer Item) (executioner : Nat) (phase : LoopPhase) :
    ExecutionSystem Producer Item :=
  system.setLoop executioner { system.loops executioner with phase := phase }

variable [DecidableEq Producer]

/-- One step of one thread. The control and the queue make steps of their own. -/
inductive Step (compare : Item → Item → Bool) (scheduledTimeOf : Item → Except Fault Int)
    (idleTimeout : Int) (system : ExecutionSystem Producer Item) :
    SystemAction Producer Item → ExecutionSystem Producer Item → Prop where
  | enqueue (producer : Producer) (item : Item) {time : Int}
      {queue : BlockingPriorityQueue Nat Item} :
      system.control.calls producer = .outside → system.owing producer = false →
      scheduledTimeOf item = .ok time → time ≤ system.queue.now →
      system.queue.Step compare scheduledTimeOf (.enqueue item) queue →
      Step compare scheduledTimeOf idleTimeout system (.enqueue producer item)
        { system with
          queue := queue
          owing := Function.update system.owing producer true }
  | call (producer : Producer) {control : ExecutionControl Producer} :
      system.owing producer = true → system.control.Step (.call producer) control →
      Step compare scheduledTimeOf idleTimeout system (.control (.call producer))
        { system with
          control := control
          owing := Function.update system.owing producer false }
  | control {action : ControlAction Producer} {control : ExecutionControl Producer} :
      (∀ producer, action ≠ .call producer) → (∀ executioner, action ≠ .leave executioner) →
      system.control.Step action control →
      Step compare scheduledTimeOf idleTimeout system (.control action)
        { system with control := control }
  | start (executioner : Nat) :
      system.control.executioners executioner = .running →
      (system.loops executioner).phase = .starting →
      Step compare scheduledTimeOf idleTimeout system (.start executioner)
        (system.setLoop executioner
          { phase := .looping, lastWork := system.queue.now, inFlightDags := 0 })
  | loadTrue (executioner : Nat) {queue : BlockingPriorityQueue Nat Item} :
      (system.loops executioner).phase = .looping → system.control.terminator = true →
      system.queue.Step compare scheduledTimeOf (.dequeueWait executioner idleTimeout) queue →
      Step compare scheduledTimeOf idleTimeout system (.loadTerminator executioner)
        { system.setPhase executioner .dequeuing with queue := queue }
  | loadFalse (executioner : Nat) :
      (system.loops executioner).phase = .looping → system.control.terminator = false →
      Step compare scheduledTimeOf idleTimeout system (.loadTerminator executioner)
        (system.setPhase executioner .draining)
  | wait (executioner : Nat) {queue : BlockingPriorityQueue Nat Item} :
      (system.loops executioner).phase = .dequeuing →
      system.queue.Step compare scheduledTimeOf (.wait executioner) queue →
      Step compare scheduledTimeOf idleTimeout system (.dequeue (.wait executioner))
        { system with queue := queue }
  | take (executioner : Nat) {item : Item} {queue : BlockingPriorityQueue Nat Item} :
      (system.loops executioner).phase = .dequeuing →
      system.queue.Step compare scheduledTimeOf (.take executioner item) queue →
      Step compare scheduledTimeOf idleTimeout system (.dequeue (.take executioner item))
        { system.setPhase executioner .received with queue := queue }
  | wake (executioner : Nat) {timedOut : Bool} {queue : BlockingPriorityQueue Nat Item} :
      (system.loops executioner).phase = .dequeuing →
      system.queue.Step compare scheduledTimeOf (.wake executioner timedOut) queue →
      Step compare scheduledTimeOf idleTimeout system (.dequeue (.wake executioner timedOut))
        { system.setPhase executioner
            (if queue.calls executioner = none then .timedOut else .dequeuing) with
          queue := queue }
  | testIdle (executioner : Nat) :
      (system.loops executioner).phase = .timedOut →
      Step compare scheduledTimeOf idleTimeout system (.testIdle executioner)
        (system.setPhase executioner
          (if (system.loops executioner).isIdle idleTimeout system.queue.now then .draining
            else .looping))
  | dispatch (executioner : Nat) :
      (system.loops executioner).phase = .received →
      Step compare scheduledTimeOf idleTimeout system (.dispatch executioner)
        (system.setLoop executioner {
          phase := .looping
          lastWork := system.queue.now
          inFlightDags := (system.loops executioner).inFlightDags + 1 })
  | complete (executioner : Nat) {remaining : Nat} :
      (system.loops executioner).inFlightDags = remaining + 1 →
      Step compare scheduledTimeOf idleTimeout system (.complete executioner)
        (system.setLoop executioner
          { system.loops executioner with inFlightDags := remaining })
  | leave (executioner : Nat) {control : ExecutionControl Producer} :
      (system.loops executioner).phase = .draining →
      (system.loops executioner).inFlightDags = 0 →
      system.control.Step (.leave executioner) control →
      Step compare scheduledTimeOf idleTimeout system (.control (.leave executioner))
        { system with control := control }
  | tick (later : Int) {queue : BlockingPriorityQueue Nat Item} :
      system.queue.Step compare scheduledTimeOf (.tick later) queue →
      Step compare scheduledTimeOf idleTimeout system (.tick later) { system with queue := queue }

/-- Interleavings whose actions the condition admits after the actions before
them, newest first, until the process aborts. -/
inductive Run (compare : Item → Item → Bool) (scheduledTimeOf : Item → Except Fault Int)
    (idleTimeout : Int)
    (admits : List (SystemAction Producer Item) → ExecutionSystem Producer Item →
      SystemAction Producer Item → Prop) (now : Int) :
    List (SystemAction Producer Item) → ExecutionSystem Producer Item → Prop where
  | start : Run compare scheduledTimeOf idleTimeout admits now [] (initial now)
  | step {past : List (SystemAction Producer Item)} {system after : ExecutionSystem Producer Item}
      {action : SystemAction Producer Item} :
      Run compare scheduledTimeOf idleTimeout admits now past system →
      system.control.aborted = false → admits past system action →
      Step compare scheduledTimeOf idleTimeout system action after →
      Run compare scheduledTimeOf idleTimeout admits now (action :: past) after

end ExecutionSystem

end BabyLuigi
