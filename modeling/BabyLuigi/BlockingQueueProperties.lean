import BabyLuigi.BlockingQueue

/-! First in, first out, in every interleaving of producers and consumers. -/

set_option autoImplicit false

namespace BabyLuigi.BlockingQueue

variable {Caller Item : Type} [DecidableEq Caller] {queue after : BlockingQueue Caller Item}
  {action : InputAction Caller Item}

/-- What was returned, followed by what is held, is what was enqueued, in order. -/
def InOrder (queue : BlockingQueue Caller Item) : Prop :=
  (returnedItems queue.events).reverse ++ queue.q = (enqueuedItems queue.events).reverse

omit [DecidableEq Caller] in
theorem inOrder_initial (now : Int) : InOrder (initial now : BlockingQueue Caller Item) := rfl

theorem InOrder.step (inOrder : InOrder queue) (step : Step queue action after) :
    InOrder after := by
  unfold InOrder at inOrder ⊢
  cases step with
  | enqueue item =>
      simp only [returnedItems, enqueuedItems, List.reverse_cons]
      rw [← inOrder, List.append_assoc]
  | take caller ready held =>
      simp only [returnedItems, enqueuedItems, List.reverse_cons]
      rw [← inOrder, held, List.append_assoc, List.singleton_append]
  | timeOut caller waiting due => exact inOrder
  | _ => exact inOrder

theorem Step.returnedItems_eq (step : Step queue action after)
    (notTake : ∀ caller item, action ≠ .take caller item) :
    returnedItems after.events = returnedItems queue.events := by
  cases step with
  | take caller _ _ => exact absurd rfl (notTake caller _)
  | _ => rfl

theorem Step.returnedItems_take {caller : Caller} {item : Item}
    (step : Step queue (.take caller item) after) :
    returnedItems after.events = item :: returnedItems queue.events := by
  cases step with
  | take _ _ _ => rfl

/-- Only an enqueue and a return change what is queued. -/
theorem Step.q_eq (step : Step queue action after) (notEnqueue : ∀ item, action ≠ .enqueue item)
    (notTake : ∀ caller item, action ≠ .take caller item) :
    after.q = queue.q ∧ enqueuedItems after.events = enqueuedItems queue.events := by
  cases step with
  | enqueue item => exact absurd rfl (notEnqueue item)
  | take caller _ _ => exact absurd rfl (notTake caller _)
  | _ => exact ⟨rfl, rfl⟩

end BabyLuigi.BlockingQueue
