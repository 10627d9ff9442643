import BabyLuigi.Storage.ListedEntriesProperties
import BabyLuigi.Storage.StoreMapsProperties

/-! What a client reads back of a task that it stored with metadata. -/

set_option autoImplicit false

namespace BabyLuigi.FsStorage

open FileSystem (KeptOnWay)

variable {root : StoreRoot} {writing reading : DiskBehavior}

/-- The entry was made from a document in another file than the key's. -/
def FromOtherFile (root : StoreRoot) (reading : DiskBehavior) (files : Files) (task : ShyguyTask)
    (entry : TaskEntry) : Prop :=
  ∃ child document,
    child :: (taskDirectory root task.associatedDag).resolve ≠
      (taskFile root task.associatedDag task.name).resolve ∧
    readJson root reading files (child :: (taskDirectory root task.associatedDag).resolve) =
      .ok document ∧
    decodeTask document = .ok entry

/-- A read of the key gives exactly what was stored. So does a list that holds
the key's file; its other entries come from files that were there before. -/
def ReturnsStored (root : StoreRoot) (reading : DiskBehavior) (files after : Files)
    (task : ShyguyTask) (blobId : Option Str) (metadata : TaskMetadata) : Prop :=
  ∃ entry : TaskEntry,
    (entry.value = task ∧ entry.blobId = blobId ∧ entry.metadata = some metadata) ∧
    getTask root reading after task.associatedDag task.name = .value entry ∧
    ∀ entries, listTasks root reading after task.associatedDag = .value entries →
      (∀ child, (taskFile root task.associatedDag task.name).resolve =
        child :: (taskDirectory root task.associatedDag).resolve → entry ∈ entries) ∧
      ∀ other ∈ entries, other = entry ∨ FromOtherFile root reading files task other

theorem frequency_returns_iff {frequency : ScheduleFrequency} :
    Json.scheduleFrequencyFromString (Json.frequencyName frequency) = frequency ↔
      frequency.Named := by
  refine ⟨?_, scheduleFrequencyFromString_frequencyName⟩
  intro returned
  constructor
  · rintro rfl
    exact absurd returned (by decide)
  · rintro rfl
    exact absurd returned (by decide)

/-- What written metadata is read as. -/
def rereadMetadata (metadata : TaskMetadata) : TaskMetadata where
  schedule := {
    cronExpression := metadata.schedule.cronExpression
    frequency := Json.scheduleFrequencyFromString (Json.frequencyName metadata.schedule.frequency) }
  statuses := metadata.statuses

theorem metadataFromJson_eq_reread (metadata : TaskMetadata) :
    Json.metadataFromJson (Json.metadataToJson metadata) = .ok (some (rereadMetadata metadata)) := by
  rw [Json.metadataFromJson_metadataToJson, Json.dagRunStatusFromString_statusName,
    Json.dagRunStatusFromString_statusName]
  rfl

theorem rereadMetadata_eq_iff {metadata : TaskMetadata} :
    rereadMetadata metadata = metadata ↔ metadata.schedule.frequency.Named := by
  rw [← frequency_returns_iff]
  constructor
  · intro same
    exact congrArg (fun reread => reread.schedule.frequency) same
  · intro same
    rw [rereadMetadata, same]

variable {files after : Files} {task : ShyguyTask} {blobId : Option Str}
  {ifVersion : Option UInt64} {metadata : TaskMetadata} {version : UInt64}

/-- A successful update leaves its document at the key's file, takes the
temporary file away and touches no other file. -/
theorem node_of_upsertTask
    (result : upsertTask root writing files task blobId ifVersion (some metadata) =
      (after, .value version)) :
    after.node (taskFile root task.associatedDag task.name).resolve =
      some (.file (writing.stored
        (taskDocument version task blobId (some (Json.metadataToJson metadata))))) ∧
    ∀ other, other ≠ (taskFile root task.associatedDag task.name).resolve →
      ∀ content, after.fileAt other = some content → files.fileAt other = some content := by
  rcases upsertAt_cases result with ⟨failed, _⟩ | ⟨written, existing, _, same, _, nodes⟩
  · exact absurd rfl (failed version)
  · cases same
    refine ⟨(nodes _).trans (if_pos rfl), ?_⟩
    intro other different content file
    have moved := (nodes other).trans (if_neg different)
    by_cases temporary : other = (taskFile root task.associatedDag task.name).temporary
    · rw [if_pos temporary] at moved
      cases moved.symm.trans (FileSystem.fileAt_eq_some.mp file)
    · rw [if_neg temporary] at moved
      have sameFile : after.fileAt other =
          (makeParents writing files (taskFile root task.associatedDag task.name)).fileAt other := by
        rw [FileSystem.fileAt, moved, ← FileSystem.fileAt]
      rw [sameFile, (keptOnWay_makeParents writing files _ other).fileAt] at file
      exact file

theorem readJson_of_stored (reliable : reading.Reliable) {location : Location} {document : Json}
    (node : after.node location = some (.file (writing.stored document))) :
    readJson root reading after location =
      if writing.keeps = none then .ok document else .error .corrupt := by
  unfold DiskBehavior.stored at node
  cases keeps : writing.keeps with
  | none => simp [keeps] at node; simp [readJson, reliable.reads, node, readContent]
  | some text => simp [keeps] at node; simp [readJson, reliable.reads, node, readContent]

theorem readJson_of_fileAt (reliable : reading.Reliable) {location : Location}
    (same : ∀ content, after.fileAt location = some content → files.fileAt location = some content)
    {document : Json} (found : readJson root reading after location = .ok document) :
    readJson root reading files location = .ok document := by
  obtain ⟨content, file, readable⟩ := exists_file_of_readJson found
  simp [readJson, reliable.reads, FileSystem.fileAt_eq_some.mp (same content file), readable]

/-- After every successful update, from whatever tree, a client reads back what
it stored iff no text was lost and the frequency has a name of its own. -/
theorem upsertTask_returnsStored_iff (reliable : reading.Reliable)
    (result : upsertTask root writing files task blobId ifVersion (some metadata) =
      (after, .value version)) :
    ReturnsStored root reading files after task blobId metadata ↔
      writing.keeps = none ∧ metadata.schedule.frequency.Named := by
  obtain ⟨node, others⟩ := node_of_upsertTask result
  have read : readJson root reading after _ = _ := readJson_of_stored reliable node
  have decoded : decodeTask
      (taskDocument version task blobId (some (Json.metadataToJson metadata))) = _ :=
    decodeTask_of_metadata version task blobId (metadataFromJson_eq_reread metadata)
  constructor
  · intro returned
    obtain ⟨entry, ⟨_, _, given⟩, got, _⟩ := returned
    obtain ⟨document, found, same⟩ := getTask_eq_value.mp got
    by_cases kept : writing.keeps = none
    · rw [if_pos kept] at read
      cases found.symm.trans read
      cases decoded.symm.trans same
      exact ⟨kept, rereadMetadata_eq_iff.mp (Option.some.inj given)⟩
    · rw [if_neg kept] at read
      cases found.symm.trans read
  · intro both
    obtain ⟨kept, named⟩ := both
    rw [if_pos kept] at read
    rw [rereadMetadata_eq_iff.mpr named] at decoded
    refine ⟨_, ⟨rfl, rfl, rfl⟩, getTask_eq_value.mpr ⟨_, read, decoded⟩, ?_⟩
    intro entries listed
    constructor
    · intro child located
      rw [located] at read
      exact (mem_listTasks_iff reliable listed _).mpr ⟨child, _, read, decoded⟩
    · intro other member
      obtain ⟨child, document, found, otherDecoded⟩ :=
        (mem_listTasks_iff reliable listed other).mp member
      by_cases own : child :: (taskDirectory root task.associatedDag).resolve =
          (taskFile root task.associatedDag task.name).resolve
      · rw [own] at found
        cases found.symm.trans read
        exact .inl (Except.ok.inj (otherDecoded.symm.trans decoded))
      · exact .inr ⟨child, document, own, readJson_of_fileAt reliable (others _ own) found, otherDecoded⟩

/-- The first update of a task under a schedule with this frequency. -/
def storeScheduled (frequency : ScheduleFrequency) : Files × Outcome UInt64 :=
  upsertTask dataRoot .reliable freshFiles (bareTask (ascii "etl") (ascii "extract")) none none
    (some {
      schedule := { cronExpression := ascii "0 * * * *", frequency := frequency }
      statuses := { previous := .success, current := .running } })

def ReturnsScheduled (frequency : ScheduleFrequency) : Prop :=
  ReturnsStored dataRoot .reliable freshFiles (storeScheduled frequency).1
    (bareTask (ascii "etl") (ascii "extract")) none
    { schedule := { cronExpression := ascii "0 * * * *", frequency := frequency }
      statuses := { previous := .success, current := .running } }

theorem upsertTask_returnsStored_hourly : ReturnsScheduled .hourly := by
  have stored : (storeScheduled .hourly).2 = .value 1 := by decide +kernel
  have result : storeScheduled .hourly = ((storeScheduled .hourly).1, .value 1) :=
    Prod.ext rfl stored
  exact (upsertTask_returnsStored_iff DiskBehavior.reliable_reliable result).mpr
    ⟨rfl, by decide, by decide⟩

/-- The frequency that a reader finds. -/
def readFrequency (files : Files) : Option ScheduleFrequency :=
  match getTask dataRoot .reliable files (ascii "etl") (ascii "extract") with
  | .value entry => entry.metadata.map fun metadata => metadata.schedule.frequency
  | _ => none

/-- An unset frequency is stored under the name of a custom one. -/
theorem unset_frequency_becomes_custom :
    (storeScheduled .unset).2 = .value 1 ∧ ¬ ReturnsScheduled .unset := by
  refine ⟨by decide +kernel, ?_⟩
  intro returned
  obtain ⟨entry, ⟨_, _, given⟩, got, _⟩ := returned
  have found : readFrequency (storeScheduled .unset).1 = some .unset := by
    have read : getTask dataRoot .reliable (storeScheduled .unset).1 (ascii "etl")
        (ascii "extract") = .value entry := got
    simp only [readFrequency, read, given, Option.map_some]
  exact absurd found (by decide +kernel)

end BabyLuigi.FsStorage
