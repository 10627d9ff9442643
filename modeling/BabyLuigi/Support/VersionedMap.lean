import Mathlib.Logic.Function.Basic

/-!
# Versioned maps

A map that counts how often its entries were written. A change can be made
conditional on a version; an absent entry has version 0.
-/

set_option autoImplicit false

namespace BabyLuigi

structure Versioned (Value : Type) where
  value : Value
  version : Nat

inductive Refusal where
  | conflict
  | notFound
  deriving DecidableEq, Repr

abbrev VersionedMap (Key Value : Type) := Key → Option (Versioned Value)

/-- A list of exactly the entries of a map, each of them once. -/
structure Lists {Key Entry : Type} (map : Key → Option Entry) (entries : List Entry) : Prop where
  once : entries.Nodup
  exact : ∀ entry, entry ∈ entries ↔ ∃ key, map key = some entry

namespace VersionedMap

variable {Key Value : Type}

def version (map : VersionedMap Key Value) (key : Key) : Nat :=
  match map key with
  | none => 0
  | some entry => entry.version

variable [DecidableEq Key]

/-- Write an entry; the new value may depend on the one it replaces. -/
def upsert (map : VersionedMap Key Value) (key : Key) (value : Option Value → Value)
    (ifVersion : Option Nat) : VersionedMap Key Value × Except Refusal Nat :=
  match map key with
  | none =>
    if ifVersion.all fun expected => expected = 0 then
      (Function.update map key (some { value := value none, version := 1 }), .ok 1)
    else (map, .error .conflict)
  | some entry =>
    if ifVersion.all fun expected => expected = entry.version then
      (Function.update map key
          (some { value := value (some entry.value), version := entry.version + 1 }),
        .ok (entry.version + 1))
    else (map, .error .conflict)

def erase (map : VersionedMap Key Value) (key : Key) (ifVersion : Option Nat) :
    VersionedMap Key Value × Except Refusal Unit :=
  match map key with
  | none => (map, .error .notFound)
  | some entry =>
    if ifVersion.all fun expected => expected = entry.version then
      (Function.update map key none, .ok ())
    else (map, .error .conflict)

theorem version_update (map : VersionedMap Key Value) (key other : Key)
    (entry : Option (Versioned Value)) :
    version (Function.update map key entry) other =
      if other = key then entry.elim 0 Versioned.version else map.version other := by
  split
  · subst other
    simp only [version, Function.update_self]
    cases entry <;> rfl
  · simp only [version, Function.update_of_ne ‹_›]

/-- An update is refused for its version only; otherwise it counts up by one. -/
theorem upsert_cases (map : VersionedMap Key Value) (key : Key) (value : Option Value → Value)
    (ifVersion : Option Nat) :
    (∃ expected, ifVersion = some expected ∧ expected ≠ map.version key ∧
      map.upsert key value ifVersion = (map, .error .conflict)) ∨
    (∀ expected, ifVersion = some expected → expected = map.version key) ∧
      map.upsert key value ifVersion =
        (Function.update map key (some {
            value := value ((map key).map Versioned.value)
            version := map.version key + 1 }),
          .ok (map.version key + 1)) := by
  unfold upsert version
  cases ifVersion with
  | none => cases map key <;> exact .inr ⟨by simp, rfl⟩
  | some expected =>
      cases map key with
      | none =>
          by_cases same : expected = 0
          · exact .inr ⟨by simp [same], by simp [same]⟩
          · exact .inl ⟨expected, rfl, same, by simp [same]⟩
      | some entry =>
          by_cases same : expected = entry.version
          · exact .inr ⟨by simp [same], by simp [same]⟩
          · exact .inl ⟨expected, rfl, same, by simp [same]⟩

theorem erase_cases (map : VersionedMap Key Value) (key : Key) (ifVersion : Option Nat) :
    (map key = none ∧ map.erase key ifVersion = (map, .error .notFound)) ∨
    (∃ entry expected, map key = some entry ∧ ifVersion = some expected ∧
      expected ≠ entry.version ∧ map.erase key ifVersion = (map, .error .conflict)) ∨
    (∃ entry, map key = some entry ∧
      (∀ expected, ifVersion = some expected → expected = entry.version) ∧
      map.erase key ifVersion = (Function.update map key none, .ok ())) := by
  unfold erase
  cases map key with
  | none => exact .inl ⟨rfl, rfl⟩
  | some entry =>
      cases ifVersion with
      | none => exact .inr (.inr ⟨entry, rfl, by simp, rfl⟩)
      | some expected =>
          by_cases same : expected = entry.version
          · exact .inr (.inr ⟨entry, rfl, by simp [same], by simp [same]⟩)
          · exact .inr (.inl ⟨entry, expected, rfl, rfl, same, by simp [same]⟩)

/-- An update counts the version of its entry up, and no other. -/
theorem version_update_succ (map : VersionedMap Key Value) (key other : Key) (value : Value) :
    version (Function.update map key
        (some { value := value, version := map.version key + 1 })) other =
      map.version other + if other = key then 1 else 0 := by
  rw [version_update]
  split
  · subst other
    rfl
  · rfl

theorem version_erase_le (map : VersionedMap Key Value) (key other : Key)
    (ifVersion : Option Nat) : (map.erase key ifVersion).1.version other ≤ map.version other := by
  rcases map.erase_cases key ifVersion with
      ⟨_, refused⟩ | ⟨_, _, _, _, _, refused⟩ | ⟨_, _, _, accepted⟩
  · exact Nat.le_of_eq (congrArg (fun changed => version changed.1 other) refused)
  · exact Nat.le_of_eq (congrArg (fun changed => version changed.1 other) refused)
  · rw [accepted, version_update]
    split
    · exact Nat.zero_le _
    · exact Nat.le_refl _

end VersionedMap

end BabyLuigi
