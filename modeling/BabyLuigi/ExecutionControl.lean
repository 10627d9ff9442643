import Mathlib.Logic.Function.Basic

/-!
# Starting executioners

`ensure_executioner_running` and the life of the threads it starts. Every load
and store of `execution_running` is a step of its own; `execution_mutex`
serialises the calls, but not the executioner that clears the flag.
-/

set_option autoImplicit false

namespace BabyLuigi

/-- Where a call of `ensure_executioner_running` stands. -/
inductive EnsurePhase where
  | outside
  | called
  | entering
  | locked
  | joining
  | tested (sawRunning : Bool)
  | storing
  | emplacing
  deriving DecidableEq, Repr

/-- The phases in which a call holds `execution_mutex`. -/
def EnsurePhase.inside : EnsurePhase → Bool
  | .outside | .called | .entering => false
  | .locked | .joining | .tested _ | .storing | .emplacing => true

/-- The body of an executioner thread: `run_until_idle`, then the store of
`false`, then its end. -/
inductive ExecutionerPhase where
  | absent
  | running
  | returned
  | cleared
  | ended
  deriving DecidableEq, Repr

/-- A thread that has yet to clear the flag. -/
def ExecutionerPhase.active : ExecutionerPhase → Bool
  | .running | .returned => true
  | .absent | .cleared | .ended => false

structure ExecutionControl (Caller : Type) where
  terminator : Bool
  executionRunning : Bool
  executionThread : Option Nat
  executionMutex : Option Caller
  calls : Caller → EnsurePhase
  executioners : Nat → ExecutionerPhase
  started : Nat
  aborted : Bool

inductive ControlAction (Caller : Type) where
  | call (caller : Caller)
  | loadTerminator (caller : Caller)
  | lock (caller : Caller)
  | firstLoad (caller : Caller)
  | join (caller : Caller)
  | secondLoad (caller : Caller)
  | store (caller : Caller)
  | emplace (caller : Caller)
  | leave (executioner : Nat)
  | clear (executioner : Nat)
  | finish (executioner : Nat)
  | stop

/-- The first test: a thread that is held is joined unless the flag is set. -/
def afterFirstLoad (executionThread : Option Nat) (executionRunning : Bool) : EnsurePhase :=
  match executionThread with
  | none => .tested false
  | some _ => if executionRunning then .tested true else .joining

namespace ExecutionControl

variable {Caller : Type}

def initial : ExecutionControl Caller where
  terminator := true
  executionRunning := false
  executionThread := none
  executionMutex := none
  calls := fun _ => .outside
  executioners := fun _ => .absent
  started := 0
  aborted := false

def setExecutioner (control : ExecutionControl Caller) (executioner : Nat)
    (phase : ExecutionerPhase) : ExecutionControl Caller :=
  { control with executioners := Function.update control.executioners executioner phase }

@[simp] theorem setExecutioner_executioners (control : ExecutionControl Caller)
    (executioner other : Nat) (phase : ExecutionerPhase) :
    (control.setExecutioner executioner phase).executioners other =
      if other = executioner then phase else control.executioners other :=
  Function.update_apply ..

variable [DecidableEq Caller]

def setCall (control : ExecutionControl Caller) (caller : Caller) (phase : EnsurePhase) :
    ExecutionControl Caller :=
  { control with calls := Function.update control.calls caller phase }

@[simp] theorem setCall_calls (control : ExecutionControl Caller) (caller other : Caller)
    (phase : EnsurePhase) : (control.setCall caller phase).calls other =
      if other = caller then phase else control.calls other :=
  Function.update_apply ..

/-- `execution_thread.emplace`: the destructor of a thread that was not joined
terminates the process. -/
def emplace (control : ExecutionControl Caller) (caller : Caller) : ExecutionControl Caller :=
  match control.executionThread with
  | some _ => { control with aborted := true }
  | none =>
    { control.setCall caller .outside with
      executioners := Function.update control.executioners control.started .running
      executionThread := some control.started
      started := control.started + 1
      executionMutex := none }

inductive Step (control : ExecutionControl Caller) :
    ControlAction Caller → ExecutionControl Caller → Prop where
  | call (caller : Caller) :
      control.calls caller = .outside → Step control (.call caller) (control.setCall caller .called)
  | loadTerminator (caller : Caller) :
      control.calls caller = .called →
      Step control (.loadTerminator caller)
        (control.setCall caller (if control.terminator then .entering else .outside))
  | lock (caller : Caller) :
      control.calls caller = .entering → control.executionMutex = none →
      Step control (.lock caller)
        { control.setCall caller .locked with executionMutex := some caller }
  | firstLoad (caller : Caller) :
      control.calls caller = .locked →
      Step control (.firstLoad caller)
        (control.setCall caller (afterFirstLoad control.executionThread control.executionRunning))
  | join (caller : Caller) {executioner : Nat} :
      control.calls caller = .joining → control.executionThread = some executioner →
      control.executioners executioner = .ended →
      Step control (.join caller)
        { control.setCall caller (.tested false) with executionThread := none }
  | secondLoadTrue (caller : Caller) {sawRunning : Bool} :
      control.calls caller = .tested sawRunning → control.executionRunning = true →
      Step control (.secondLoad caller)
        { control.setCall caller .outside with executionMutex := none }
  | secondLoadFalse (caller : Caller) {sawRunning : Bool} :
      control.calls caller = .tested sawRunning → control.executionRunning = false →
      Step control (.secondLoad caller) (control.setCall caller .storing)
  | store (caller : Caller) :
      control.calls caller = .storing →
      Step control (.store caller)
        { control.setCall caller .emplacing with executionRunning := true }
  | emplace (caller : Caller) :
      control.calls caller = .emplacing → Step control (.emplace caller) (control.emplace caller)
  | leave (executioner : Nat) :
      control.executioners executioner = .running →
      Step control (.leave executioner) (control.setExecutioner executioner .returned)
  | clear (executioner : Nat) :
      control.executioners executioner = .returned →
      Step control (.clear executioner)
        { control.setExecutioner executioner .cleared with executionRunning := false }
  | finish (executioner : Nat) :
      control.executioners executioner = .cleared →
      Step control (.finish executioner) (control.setExecutioner executioner .ended)
  | stop : Step control .stop { control with terminator := false }

/-- Interleavings whose actions the condition admits; an aborted process makes
no further step. -/
inductive Run (admits : ExecutionControl Caller → ControlAction Caller → Prop) :
    ExecutionControl Caller → Prop where
  | start : Run admits initial
  | step {control after : ExecutionControl Caller} {action : ControlAction Caller} :
      Run admits control → control.aborted = false → admits control action →
      Step control action after → Run admits after

end ExecutionControl

end BabyLuigi
