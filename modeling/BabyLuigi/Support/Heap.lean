import Mathlib.Data.List.Perm.Basic

/-!
# Binary heaps in a vector

The heap order of a range under a comparison, and what the algorithms that
insert and extract promise of it. The comparison need only be an order on the
elements at hand.
-/

set_option autoImplicit false

namespace BabyLuigi

variable {Item : Type}

/-- A strict weak order on the given items: asymmetric, and not being smaller
is transitive. -/
structure StrictWeakOn (compare : Item → Item → Bool) (items : Set Item) : Prop where
  asymmetric : ∀ first ∈ items, ∀ second ∈ items,
    compare first second = true → compare second first = false
  negativelyTransitive : ∀ first ∈ items, ∀ second ∈ items, ∀ third ∈ items,
    compare first second = false → compare second third = false → compare first third = false

theorem StrictWeakOn.mono {compare : Item → Item → Bool} {fewer items : Set Item}
    (ordered : StrictWeakOn compare items) (subset : ∀ item ∈ fewer, item ∈ items) :
    StrictWeakOn compare fewer where
  asymmetric first firstMember second secondMember :=
    ordered.asymmetric first (subset first firstMember) second (subset second secondMember)
  negativelyTransitive first firstMember second secondMember third thirdMember :=
    ordered.negativelyTransitive first (subset first firstMember) second
      (subset second secondMember) third (subset third thirdMember)

theorem StrictWeakOn.irreflexive {compare : Item → Item → Bool} {items : Set Item}
    (ordered : StrictWeakOn compare items) {item : Item} (member : item ∈ items) :
    compare item item = false := by
  by_contra smaller
  rw [Bool.not_eq_false] at smaller
  exact absurd (ordered.asymmetric item member item member smaller) (by simp [smaller])

/-- No element is above its parent. -/
def IsHeap (compare : Item → Item → Bool) (range : List Item) : Prop :=
  ∀ (index : Nat) (parent child : Item), 0 < index → range[(index - 1) / 2]? = some parent →
    range[index]? = some child → compare parent child = false

theorem isHeap_nil (compare : Item → Item → Bool) : IsHeap compare [] := by
  intro _ _ _ _ found
  cases found

theorem isHeap_singleton (compare : Item → Item → Bool) (only : Item) :
    IsHeap compare [only] := by
  intro index _ _ positive _ found
  cases index with
  | zero => exact absurd positive (Nat.lt_irrefl 0)
  | succ _ => cases found

theorem isHeap_pair {compare : Item → Item → Bool} {first second : Item}
    (below : compare first second = false) : IsHeap compare [first, second] := by
  intro index parent child positive parentFound found
  match index with
  | 0 => exact absurd positive (Nat.lt_irrefl 0)
  | 1 =>
      cases parentFound
      cases found
      exact below
  | _ + 2 => cases found

/-- Nothing in a heap is above its front. -/
theorem IsHeap.front_greatest {compare : Item → Item → Bool} {front : Item} {tail : List Item}
    (heap : IsHeap compare (front :: tail))
    (ordered : StrictWeakOn compare {item | item ∈ front :: tail}) :
    ∀ item ∈ front :: tail, compare front item = false := by
  have atIndex : ∀ (index : Nat) (item : Item), (front :: tail)[index]? = some item →
      compare front item = false := by
    intro index
    induction index using Nat.strongRecOn with
    | ind index ih =>
        intro item found
        cases index with
        | zero =>
            obtain rfl := Option.some.inj found
            exact ordered.irreflexive List.mem_cons_self
        | succ previous =>
            have below : previous / 2 < previous + 1 :=
              Nat.lt_succ_of_le (Nat.div_le_self previous 2)
            have inRange := Nat.lt_trans below (List.getElem?_eq_some_iff.mp found).1
            have parentFound := List.getElem?_eq_getElem inRange
            have parentMember := List.mem_of_getElem? parentFound
            exact ordered.negativelyTransitive front List.mem_cons_self _ parentMember item
              (List.mem_of_getElem? found) (ih _ below _ parentFound)
              (heap (previous + 1) _ item previous.succ_pos parentFound found)
  intro item member
  obtain ⟨index, found⟩ := List.mem_iff_getElem?.mp member
  exact atIndex index item found

/-- `std::push_heap` on a range whose last element is new. -/
def PushHeap (compare : Item → Item → Bool) (range result : List Item) : Prop :=
  StrictWeakOn compare {item | item ∈ range} → IsHeap compare range.dropLast →
    result.Perm range ∧ IsHeap compare result

/-- `std::pop_heap`: the front moves to the end, and a heap remains before it. -/
def PopHeap (compare : Item → Item → Bool) (range result : List Item) : Prop :=
  ∀ front tail, range = front :: tail → StrictWeakOn compare {item | item ∈ range} →
    IsHeap compare range →
    ∃ rest, result = rest ++ [front] ∧ rest.Perm tail ∧ IsHeap compare rest

end BabyLuigi
