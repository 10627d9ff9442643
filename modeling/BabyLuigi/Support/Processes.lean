import Mathlib.Algebra.GroupWithZero.Nat
import Mathlib.Algebra.Order.BigOperators.Group.List
import Mathlib.Algebra.Order.Group.Nat

/-!
# Lists of processes

Processes that live at the positions of a list and move one at a time: what one
move means for a property of each process and for a total over all of them.
-/

set_option autoImplicit false

namespace BabyLuigi.Processes

variable {Process : Type} {processes : List Process} {index : Nat} {before after : Process}

theorem forall_mem_set {holds : Process → Prop} (each : ∀ process ∈ processes, holds process)
    (moved : holds after) : ∀ process ∈ processes.set index after, holds process := by
  intro process member
  rcases List.mem_or_eq_of_mem_set member with old | rfl
  · exact each process old
  · exact moved

/-- A total changes by what the one process changes. -/
theorem sum_map_set (weight : Process → Nat) (here : processes[index]? = some before) :
    ((processes.set index after).map weight).sum + weight before =
      (processes.map weight).sum + weight after := by
  induction processes generalizing index with
  | nil => cases here
  | cons process rest ih =>
      cases index with
      | zero =>
          obtain rfl := Option.some.inj here
          simp only [List.set_cons_zero, List.map_cons, List.sum_cons]
          omega
      | succ index =>
          have moved := ih here
          simp only [List.set_cons_succ, List.map_cons, List.sum_cons]
          omega

theorem le_sum_map (weight : Process → Nat) (here : processes[index]? = some before) :
    weight before ≤ (processes.map weight).sum :=
  List.single_le_sum (fun _ _ => Nat.zero_le _) _
    (List.mem_map_of_mem (List.mem_of_getElem? here))

/-- Two processes contribute to a total together. -/
theorem add_le_sum_map (weight : Process → Nat) {other : Nat} {process : Process}
    (here : processes[index]? = some before) (there : processes[other]? = some process)
    (different : index ≠ other) : weight before + weight process ≤ (processes.map weight).sum := by
  induction processes generalizing index other with
  | nil => cases here
  | cons first rest ih =>
      simp only [List.map_cons, List.sum_cons]
      cases index with
      | zero =>
          cases other with
          | zero => exact absurd rfl different
          | succ other =>
              obtain rfl := Option.some.inj here
              have within : rest[other]? = some process := there
              exact Nat.add_le_add_left (le_sum_map weight within) _
      | succ index =>
          cases other with
          | zero =>
              obtain rfl := Option.some.inj there
              have within : rest[index]? = some before := here
              rw [Nat.add_comm]
              exact Nat.add_le_add_left (le_sum_map weight within) _
          | succ other =>
              have apart : index ≠ other := fun same => different (congrArg Nat.succ same)
              exact (ih here there apart).trans (Nat.le_add_left _ _)

/-- A positive total has a process that contributes to it. -/
theorem exists_of_sum_map_pos (weight : Process → Nat) (positive : 0 < (processes.map weight).sum) :
    ∃ (index : Nat) (process : Process), processes[index]? = some process ∧ 0 < weight process := by
  obtain ⟨_, member, contributes⟩ := List.sum_pos_iff_exists_pos_nat.mp positive
  obtain ⟨process, held, rfl⟩ := List.mem_map.mp member
  obtain ⟨index, here⟩ := List.mem_iff_getElem?.mp held
  exact ⟨index, process, here, contributes⟩

end BabyLuigi.Processes
