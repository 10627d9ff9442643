import BabyLuigi.Storage.JsonProperties

/-! Which JSON values the readers of stored documents take without throwing. -/

set_option autoImplicit false

namespace BabyLuigi

namespace Json

/-! ### Shapes -/

def IsString (json : Json) : Prop := ∃ text, json = .string text

def IsStrings (json : Json) : Prop :=
  ∃ elements, json = .array elements ∧ ∀ element ∈ elements, IsString element

def OrNull (shape : Json → Prop) (json : Json) : Prop := json = .null ∨ shape json

/-- The member is there and has the shape. -/
def Holds (json : Json) (name : Str) (shape : Json → Prop) : Prop :=
  ∃ value, json.member name = some value ∧ shape value

/-- The member is absent or has the shape. -/
def MayHold (json : Json) (name : Str) (shape : Json → Prop) : Prop :=
  ∀ value, json.member name = some value → shape value

structure DagShape (json : Json) : Prop where
  name : json.Holds (ascii "name") IsString
  schedule : json.Holds (ascii "schedule") (OrNull IsString)

structure TaskShape (json : Json) : Prop where
  name : json.Holds (ascii "name") IsString
  associatedDag : json.Holds (ascii "associated_dag") IsString
  type : json.Holds (ascii "type") (OrNull IsString)
  filename : json.Holds (ascii "filename") (OrNull IsString)
  fileContent : json.Holds (ascii "file_content") (OrNull IsString)
  dependencyNames : json.Holds (ascii "dependency_names") (OrNull IsStrings)

/-- An object whose members of these two names, if any, are strings. -/
structure TextPair (first second : Str) (json : Json) : Prop where
  first : json.MayHold first IsString
  second : json.MayHold second IsString

/-- Parts of metadata that are no objects are ignored. -/
structure MetadataShape (json : Json) : Prop where
  schedule : json.MayHold (ascii "schedule") fun schedule =>
    schedule.isObject = true → TextPair (ascii "cron") (ascii "frequency") schedule
  statuses : json.MayHold (ascii "statuses") fun statuses =>
    statuses.isObject = true → TextPair (ascii "previous") (ascii "current") statuses

structure ExtrasShape (json : Json) : Prop where
  blobId : json.MayHold (ascii "blob_id") IsString
  metadata : json.MayHold (ascii "metadata") MetadataShape

/-! ### Readers -/

theorem returns_bind_iff {Value Result : Type} {source : Except Fault Value}
    {continuation : Value → Except Fault Result} :
    (∃ result, (source >>= continuation) = .ok result) ↔
      ∃ value, source = .ok value ∧ ∃ result, continuation value = .ok result := by
  simp only [bind_eq_ok]
  constructor
  · intro returned
    obtain ⟨result, value, first, rest⟩ := returned
    exact ⟨value, first, result, rest⟩
  · intro returned
    obtain ⟨value, first, result, rest⟩ := returned
    exact ⟨result, value, first, rest⟩

theorem at'_eq_ok {json value : Json} {name : Str} :
    json.at' name = .ok value ↔ json.member name = some value := by
  unfold at'
  cases json.member name <;> simp

theorem getString_returns_iff {json : Json} :
    (∃ text, json.getString = .ok text) ↔ IsString json := by
  cases json <;> simp [getString, IsString]

theorem getStrings_returns_iff {json : Json} :
    (∃ texts, json.getStrings = .ok texts) ↔ IsStrings json := by
  cases json with
  | array elements =>
      simp only [getStrings, IsStrings, Json.array.injEq, exists_eq_left', mapM_returns_iff,
        getString_returns_iff]
  | _ => simp [getStrings, IsStrings]

theorem getOptional_returns_iff {Value : Type} {get : Json → Except Fault Value}
    {shape : Json → Prop} (reads : ∀ json, (∃ value, get json = .ok value) ↔ shape json)
    {json : Json} : (∃ value, json.getOptional get = .ok value) ↔ OrNull shape json := by
  have present : ∀ other : Json, (∃ value, (get other).map some = .ok value) ↔ shape other := by
    intro other
    rw [← reads]
    cases get other <;> simp [Except.map]
  cases json with
  | null => simp [getOptional, OrNull]
  | _ => simpa [getOptional, OrNull] using present _

theorem getDag_returns_iff {json : Json} : (∃ dag, json.getDag = .ok dag) ↔ DagShape json := by
  unfold getDag
  simp only [returns_bind_iff, at'_eq_ok, pure_eq_ok, exists_eq', and_true, exists_and_right,
    getString_returns_iff, getOptional_returns_iff fun _ => getString_returns_iff]
  constructor
  · intro returned
    obtain ⟨name, nameFound, isName, schedule⟩ := returned
    exact ⟨⟨name, nameFound, isName⟩, schedule⟩
  · intro shape
    obtain ⟨⟨name, nameFound, isName⟩, schedule⟩ := shape
    exact ⟨name, nameFound, isName, schedule⟩

theorem getTask_returns_iff {json : Json} : (∃ task, json.getTask = .ok task) ↔ TaskShape json := by
  unfold getTask
  simp only [returns_bind_iff, at'_eq_ok, pure_eq_ok, exists_eq', and_true, exists_and_right,
    getString_returns_iff, getOptional_returns_iff fun _ => getString_returns_iff,
    getOptional_returns_iff fun _ => getStrings_returns_iff]
  constructor
  · intro returned
    obtain ⟨name, nameFound, isName, associatedDag, dagFound, isDag, type, typeFound, isType,
      filename, filenameFound, isFilename, fileContent, contentFound, isContent, dependencies⟩ :=
        returned
    exact ⟨⟨name, nameFound, isName⟩, ⟨associatedDag, dagFound, isDag⟩, ⟨type, typeFound, isType⟩,
      ⟨filename, filenameFound, isFilename⟩, ⟨fileContent, contentFound, isContent⟩, dependencies⟩
  · intro shape
    obtain ⟨⟨name, nameFound, isName⟩, ⟨associatedDag, dagFound, isDag⟩, ⟨type, typeFound, isType⟩,
      ⟨filename, filenameFound, isFilename⟩, ⟨fileContent, contentFound, isContent⟩,
      dependencies⟩ := shape
    exact ⟨name, nameFound, isName, associatedDag, dagFound, isDag, type, typeFound, isType,
      filename, filenameFound, isFilename, fileContent, contentFound, isContent, dependencies⟩

end Json

namespace FsStorage

open Json

end FsStorage

end BabyLuigi
