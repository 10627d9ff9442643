import Mathlib.Order.WellFounded
import Mathlib.Logic.Relation

/-!
# Step relations

Rules for arbitrary step relations: what an invariant and a decreasing measure
say about whole runs, and what holds of each event of a history.
-/

set_option autoImplicit false

namespace BabyLuigi.Transition

variable {State : Type} {step : State → State → Prop}

/-- An invariant of the first state that every step keeps holds after any run. -/
theorem invariant_of_reflTransGen {invariant : State → Prop} {first last : State}
    (keeps : ∀ before after, invariant before → step before after → invariant after)
    (start : invariant first) (run : Relation.ReflTransGen step first last) : invariant last := by
  induction run with
  | refl => exact start
  | tail _ taken ih => exact keeps _ _ ih taken

/-- If every step from a state within the invariant lowers the measure, no run
from such a state goes on for ever. -/
theorem acc_of_measure {invariant : State → Prop} (measure : State → Nat)
    (keeps : ∀ before after, invariant before → step before after → invariant after)
    (lowers : ∀ before after, invariant before → step before after →
      measure after < measure before)
    {state : State} (start : invariant state) : Acc (fun after before => step before after) state := by
  induction bound : measure state using Nat.strong_induction_on generalizing state with
  | _ limit ih =>
      refine .intro state ?_
      intro after taken
      exact ih (measure after) (bound ▸ lowers state after start taken)
        (keeps state after start taken) rfl

/-- What holds of each event after the ones before it, in a history whose newest
event comes first. -/
def EachEvent {Event : Type} (holds : Event → List Event → Prop) (events : List Event) : Prop :=
  ∀ later event earlier, events = later ++ event :: earlier → holds event earlier

section EachEvent

variable {Event : Type} {holds : Event → List Event → Prop} {event : Event} {events : List Event}

theorem eachEvent_nil : EachEvent holds [] := by
  intro later _ _ split
  cases later <;> cases split

theorem EachEvent.cons (each : EachEvent holds events) (newest : holds event events) :
    EachEvent holds (event :: events) := by
  intro later other earlier split
  cases later with
  | nil =>
      obtain ⟨rfl, rfl⟩ := List.cons.inj split
      exact newest
  | cons _ rest =>
      obtain ⟨_, same⟩ := List.cons.inj split
      exact each rest other earlier same

end EachEvent

end BabyLuigi.Transition
