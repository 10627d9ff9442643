import Mathlib.Data.List.AList

/-!
# Containers with unspecified iteration order

A finite map with distinct keys. The order of its entries is one possible
iteration order, so a result about every traversal quantifies over the
permutations of the keys.
-/

set_option autoImplicit false

namespace BabyLuigi

abbrev UnorderedMap (Key Value : Type) := AList (fun _ : Key => Value)

namespace UnorderedMap

variable {Key Value : Type} [DecidableEq Key]

def emplace (key : Key) (value : Value) (container : UnorderedMap Key Value) :
    UnorderedMap Key Value × Bool :=
  if key ∈ container then (container, false) else (container.insert key value, true)

theorem emplace_of_notMem {key : Key} {container : UnorderedMap Key Value}
    (absent : key ∉ container) (value : Value) :
    emplace key value container = (container.insert key value, true) := by
  simp [emplace, absent]

theorem emplace_of_mem {key : Key} {container : UnorderedMap Key Value}
    (present : key ∈ container) (value : Value) :
    emplace key value container = (container, false) := by
  simp [emplace, present]

/-- In-place update of every stored value. -/
def mapValues {Result : Type} (change : Value → Result) (container : UnorderedMap Key Value) :
    UnorderedMap Key Result :=
  ⟨container.entries.map (Sigma.map id fun _ => change),
    List.NodupKeys.map₂ (fun _ => change) container.entries container.nodupKeys⟩

@[simp] theorem lookup_mapValues {Result : Type} (change : Value → Result)
    (container : UnorderedMap Key Value) (key : Key) :
    (mapValues change container).lookup key = (container.lookup key).map change :=
  List.dlookup_map₂ key

theorem isSome_lookup_iff {key : Key} {container : UnorderedMap Key Value} :
    (container.lookup key).isSome = true ↔ key ∈ container.keys :=
  AList.lookup_isSome.trans AList.mem_keys

theorem mem_keys_of_lookup {key : Key} {value : Value} {container : UnorderedMap Key Value}
    (found : container.lookup key = some value) : key ∈ container.keys :=
  isSome_lookup_iff.mp (by rw [found]; rfl)

theorem exists_lookup_of_mem_keys {key : Key} {container : UnorderedMap Key Value}
    (member : key ∈ container.keys) : ∃ value, container.lookup key = some value :=
  Option.isSome_iff_exists.mp (isSome_lookup_iff.mpr member)

theorem mem_insert_of_lookup {key : Key} {value : Value} {container : UnorderedMap Key Value}
    (found : container.lookup key = some value) (replacement : Value) (other : Key) :
    other ∈ container.insert key replacement ↔ other ∈ container := by
  have member : key ∈ container := AList.lookup_isSome.mp (by rw [found]; rfl)
  rw [AList.mem_insert]
  exact ⟨fun either => either.elim (fun same => same ▸ member) id, .inr⟩

/-- One choice of iteration order for every container of the type. -/
structure Traversal (Key Value : Type) where
  order : UnorderedMap Key Value → List Key
  perm : ∀ container, (order container).Perm container.keys

/-- The traversal in storage order. -/
def Traversal.storage (Key Value : Type) : Traversal Key Value where
  order container := container.keys
  perm _ := .refl _

omit [DecidableEq Key] in
theorem Traversal.mem_order {traversal : Traversal Key Value}
    {container : UnorderedMap Key Value} {key : Key} :
    key ∈ traversal.order container ↔ key ∈ container.keys :=
  (traversal.perm container).mem_iff

/-- The entries of a container in traversal order. -/
def Traversal.entries (traversal : Traversal Key Value) (container : UnorderedMap Key Value) :
    List (Key × Value) :=
  (traversal.order container).filterMap fun key => (container.lookup key).map (key, ·)

theorem Traversal.mem_entries {traversal : Traversal Key Value}
    {container : UnorderedMap Key Value} {key : Key} {value : Value} :
    (key, value) ∈ traversal.entries container ↔ container.lookup key = some value := by
  simp only [Traversal.entries, List.mem_filterMap, Option.map_eq_some_iff, Prod.mk.injEq]
  constructor
  · intro held
    obtain ⟨_, _, _, found, rfl, rfl⟩ := held
    exact found
  · intro found
    exact ⟨key, Traversal.mem_order.mpr (mem_keys_of_lookup found), value, found, rfl, rfl⟩

end UnorderedMap

end BabyLuigi
