import BabyLuigi.Storage.FsStorage

/-! Which documents can be printed: those made of strings that are valid
UTF-8. -/

set_option autoImplicit false

namespace BabyLuigi

namespace Json

/-- An optional string that can be printed. -/
def ValidText (text : Option Str) : Prop := ∀ value, text = some value → validUtf8 value = true

@[simp] theorem dumpable_string (value : Str) : (string value).dumpable = validUtf8 value := by
  rw [dumpable]

@[simp] theorem dumpable_object (members : List (Str × Json)) :
    (object members).dumpable = dumpableMembers members := by
  rw [dumpable]

@[simp] theorem dumpableMembers_nil : dumpableMembers [] = true := by
  rw [dumpableMembers]

@[simp] theorem dumpableMembers_cons (key : Str) (value : Json) (rest : List (Str × Json)) :
    dumpableMembers ((key, value) :: rest) =
      (validUtf8 key && value.dumpable && dumpableMembers rest) := by
  rw [dumpableMembers]

theorem dumpable_ofOptional {Value : Type} (convert : Value → Json) (value : Option Value) :
    (ofOptional convert value).dumpable = true ↔
      ∀ given, value = some given → (convert given).dumpable = true := by
  cases value with
  | none => simp [ofOptional, dumpable]
  | some given => simp [ofOptional]

theorem dumpable_ofStrings (values : List Str) :
    (ofStrings values).dumpable = true ↔ ∀ value ∈ values, validUtf8 value = true := by
  rw [ofStrings, dumpable]
  induction values with
  | nil => simp [dumpableElements]
  | cons first rest ih => simp [dumpableElements, ih]

theorem dumpable_of_find {members : List (Str × Json)} {name : Str} {value : Json}
    (printable : dumpableMembers members = true) (found : find members name = some value) :
    value.dumpable = true := by
  induction members with
  | nil => cases found
  | cons first rest ih =>
      obtain ⟨key, held⟩ := first
      simp only [dumpableMembers_cons, Bool.and_eq_true] at printable
      simp only [find] at found
      split at found
      · obtain rfl := Option.some.inj found
        exact printable.1.2
      · exact ih printable.2 found

theorem dumpable_of_member {json value : Json} {name : Str} (printable : json.dumpable = true)
    (found : json.member name = some value) : value.dumpable = true := by
  cases json with
  | object members => exact dumpable_of_find (by simpa using printable) found
  | _ => cases found

theorem dumpable_of_at' {json value : Json} {name : Str} (printable : json.dumpable = true)
    (found : json.at' name = .ok value) : value.dumpable = true := by
  unfold at' at found
  split at found
  · rename_i member
    cases found
    exact dumpable_of_member printable member
  · cases found

theorem validUtf8_of_ascii {text : Str} (small : ∀ char ∈ text, char ≤ 0x7F) :
    validUtf8 text = true := by
  have accepted : text.foldl Utf8State.next .accept = .accept := by
    induction text with
    | nil => rfl
    | cons first rest ih =>
        obtain ⟨firstSmall, restSmall⟩ := List.forall_mem_cons.mp small
        rw [List.foldl_cons, Utf8State.next, if_pos firstSmall]
        exact ih restSmall
  simp [validUtf8, accepted]

/-- The strings of a DAG can be printed. -/
structure ValidDag (dag : ShyguyDag) : Prop where
  name : validUtf8 dag.name = true
  schedule : ValidText dag.schedule

theorem dumpable_ofDag (dag : ShyguyDag) : (ofDag dag).dumpable = true ↔ ValidDag dag := by
  have nameKey : validUtf8 (ascii "name") = true := by decide
  have scheduleKey : validUtf8 (ascii "schedule") = true := by decide
  simp only [ofDag, dumpable_object, dumpableMembers_cons, dumpableMembers_nil, dumpable_string,
    nameKey, scheduleKey, Bool.true_and, Bool.and_true, Bool.and_eq_true, dumpable_ofOptional]
  exact ⟨fun both => ⟨both.1, both.2⟩, fun valid => ⟨valid.name, valid.schedule⟩⟩

/-- The strings of a task can be printed. -/
structure ValidTask (task : ShyguyTask) : Prop where
  name : validUtf8 task.name = true
  associatedDag : validUtf8 task.associatedDag = true
  type : ValidText task.type
  filename : ValidText task.filename
  fileContent : ValidText task.fileContent
  dependencyNames : ∀ names, task.dependencyNames = some names →
    ∀ name ∈ names, validUtf8 name = true

theorem dumpable_ofTask (task : ShyguyTask) : (ofTask task).dumpable = true ↔ ValidTask task := by
  have keys : validUtf8 (ascii "name") = true ∧ validUtf8 (ascii "associated_dag") = true ∧
      validUtf8 (ascii "type") = true ∧ validUtf8 (ascii "filename") = true ∧
      validUtf8 (ascii "file_content") = true ∧ validUtf8 (ascii "dependency_names") = true := by
    decide
  obtain ⟨nameKey, dagKey, typeKey, filenameKey, contentKey, dependenciesKey⟩ := keys
  simp only [ofTask, dumpable_object, dumpableMembers_cons, dumpableMembers_nil, dumpable_string,
    nameKey, dagKey, typeKey, filenameKey, contentKey, dependenciesKey, Bool.true_and,
    Bool.and_true, Bool.and_eq_true, dumpable_ofOptional, dumpable_ofStrings]
  constructor
  · intro valid
    obtain ⟨name, associatedDag, type, filename, fileContent, dependencyNames⟩ := valid
    exact ⟨name, associatedDag, type, filename, fileContent, dependencyNames⟩
  · intro valid
    exact ⟨valid.name, valid.associatedDag, valid.type, valid.filename, valid.fileContent,
      valid.dependencyNames⟩

theorem validUtf8_frequencyName (frequency : ScheduleFrequency) :
    validUtf8 (frequencyName frequency) = true := by
  cases frequency <;> decide

theorem validUtf8_statusName (status : DagRunStatus) : validUtf8 (statusName status) = true := by
  cases status <;> decide

theorem dumpable_metadataToJson (metadata : TaskMetadata) :
    (metadataToJson metadata).dumpable = true ↔
      validUtf8 metadata.schedule.cronExpression = true := by
  have keys : validUtf8 (ascii "schedule") = true ∧ validUtf8 (ascii "cron") = true ∧
      validUtf8 (ascii "frequency") = true ∧ validUtf8 (ascii "statuses") = true ∧
      validUtf8 (ascii "previous") = true ∧ validUtf8 (ascii "current") = true := by decide
  obtain ⟨scheduleKey, cronKey, frequencyKey, statusesKey, previousKey, currentKey⟩ := keys
  simp only [metadataToJson, dumpable_object, dumpableMembers_cons, dumpableMembers_nil,
    dumpable_string, scheduleKey, cronKey, frequencyKey, statusesKey, previousKey, currentKey,
    validUtf8_frequencyName, validUtf8_statusName, Bool.true_and, Bool.and_true]

end Json

namespace FsStorage

open Json

theorem dumpable_dagDocument (version : UInt64) (dag : ShyguyDag) :
    (dagDocument version dag).dumpable = true ↔ ValidDag dag := by
  have keys : validUtf8 (ascii "version") = true ∧ validUtf8 (ascii "value") = true := by decide
  simp only [dagDocument, dumpable_object, dumpableMembers_cons, dumpableMembers_nil, keys.1,
    keys.2, dumpable, Bool.true_and, Bool.and_true, dumpable_ofDag]

theorem dumpable_taskDocument (version : UInt64) (task : ShyguyTask) (blobId : Option Str)
    (metadata : Option Json) :
    (taskDocument version task blobId metadata).dumpable = true ↔
      ValidTask task ∧ ValidText blobId ∧
        ∀ json, metadata = some json → json.dumpable = true := by
  have keys : validUtf8 (ascii "version") = true ∧ validUtf8 (ascii "value") = true ∧
      validUtf8 (ascii "blob_id") = true ∧ validUtf8 (ascii "metadata") = true := by decide
  obtain ⟨versionKey, valueKey, blobKey, metadataKey⟩ := keys
  cases blobId <;> cases metadata <;>
    simp [taskDocument, ValidText, versionKey, valueKey, blobKey, metadataKey, dumpable,
      ← dumpable_ofTask]

theorem validUtf8_fnv1aHex (bytes : Str) : validUtf8 (fnv1aHex bytes) = true := by
  apply validUtf8_of_ascii
  intro char member
  obtain ⟨position, _, rfl⟩ := List.mem_map.mp member
  have digits : ∀ digit, digit < 16 → hexDigit digit ≤ 0x7F := by decide
  exact digits _ (Nat.mod_lt _ (by decide))

end FsStorage

end BabyLuigi
