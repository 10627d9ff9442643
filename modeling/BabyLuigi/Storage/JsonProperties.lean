import BabyLuigi.Storage.FsStorage
import BabyLuigi.Support.Except

/-! Documents that the stores write are documents that they can read. -/

set_option autoImplicit false

namespace BabyLuigi

namespace Json

theorem getOptional_ofString (value : Option Str) :
    getOptional getString (ofOptional .string value) = .ok value := by
  cases value <;> rfl

theorem getStrings_ofStrings (values : List Str) : getStrings (ofStrings values) = .ok values := by
  have collected : ∀ rest : List Str, (rest.map Json.string).mapM getString = .ok rest := by
    intro rest
    induction rest with
    | nil => rfl
    | cons first others ih => rw [List.map_cons, List.mapM_cons, ih]; rfl
  exact collected values

theorem getOptional_ofStrings (values : Option (List Str)) :
    getOptional getStrings (ofOptional ofStrings values) = .ok values := by
  cases values with
  | none => rfl
  | some values =>
      rw [ofOptional, getOptional, getStrings_ofStrings]
      · rfl
      · nofun

theorem getDag_ofDag (dag : ShyguyDag) : (ofDag dag).getDag = .ok dag := by
  have name : (ofDag dag).at' (ascii "name") = .ok (.string dag.name) := rfl
  have schedule : (ofDag dag).at' (ascii "schedule") = .ok (ofOptional .string dag.schedule) := rfl
  rw [getDag, bind_of_ok name, getString, bind_of_ok rfl, bind_of_ok schedule,
    bind_of_ok (getOptional_ofString _)]
  rfl

theorem getTask_ofTask (task : ShyguyTask) : (ofTask task).getTask = .ok task := by
  have name : (ofTask task).at' (ascii "name") = .ok (.string task.name) := rfl
  have associatedDag : (ofTask task).at' (ascii "associated_dag") =
      .ok (.string task.associatedDag) := rfl
  have type : (ofTask task).at' (ascii "type") = .ok (ofOptional .string task.type) := rfl
  have filename : (ofTask task).at' (ascii "filename") =
      .ok (ofOptional .string task.filename) := rfl
  have fileContent : (ofTask task).at' (ascii "file_content") =
      .ok (ofOptional .string task.fileContent) := rfl
  have dependencyNames : (ofTask task).at' (ascii "dependency_names") =
      .ok (ofOptional ofStrings task.dependencyNames) := rfl
  rw [getTask, bind_of_ok name, getString, bind_of_ok rfl, bind_of_ok associatedDag, getString,
    bind_of_ok rfl, bind_of_ok type, bind_of_ok (getOptional_ofString _), bind_of_ok filename,
    bind_of_ok (getOptional_ofString _), bind_of_ok fileContent,
    bind_of_ok (getOptional_ofString _), bind_of_ok dependencyNames,
    bind_of_ok (getOptional_ofStrings _)]
  rfl

/-- Written metadata can be read, though an unset frequency comes back as a
custom one. -/
theorem metadataFromJson_metadataToJson (metadata : TaskMetadata) :
    metadataFromJson (metadataToJson metadata) = .ok (some {
      schedule := {
        cronExpression := metadata.schedule.cronExpression
        frequency := scheduleFrequencyFromString (frequencyName metadata.schedule.frequency) }
      statuses := {
        previous := dagRunStatusFromString (statusName metadata.statuses.previous)
        current := dagRunStatusFromString (statusName metadata.statuses.current) } }) := rfl

theorem dagRunStatusFromString_statusName (status : DagRunStatus) :
    dagRunStatusFromString (statusName status) = status := by
  cases status <;> decide

end Json

namespace FsStorage

theorem decodeDag_dagDocument (version : UInt64) (dag : ShyguyDag) :
    ∃ entry, decodeDag (dagDocument version dag) = .ok entry ∧ entry.value = dag := by
  obtain ⟨found, versionFound⟩ : ∃ found, (dagDocument version dag).version = .ok found :=
    ⟨_, rfl⟩
  have value : (dagDocument version dag).at' (ascii "value") = .ok (.ofDag dag) := rfl
  have decoded : decodeDagValue (dagDocument version dag) = .ok dag := by
    rw [decodeDagValue, bind_of_ok value, Json.getDag_ofDag]
  refine ⟨⟨dag, found⟩, ?_, rfl⟩
  rw [decodeDag, decodeEntry, bind_of_ok versionFound, bind_of_ok decoded]
  rfl

theorem decodeTaskExtras_eq (document : Json) :
    decodeTaskExtras document =
      (if document.contains (ascii "blob_id") then
        (document.stringOr (ascii "blob_id") []).map some
      else .ok none) >>= fun blobId =>
        (document.member (ascii "metadata")).elim (.ok none) Json.metadataFromJson >>=
          fun metadata => .ok (blobId, metadata) := by
  unfold decodeTaskExtras
  cases document.contains (ascii "blob_id") <;>
    cases document.member (ascii "metadata") <;> rfl

theorem metadata_of_decodeTaskExtras {document : Json}
    {extras : Option Str × Option TaskMetadata}
    (decoded : decodeTaskExtras document = .ok extras) :
    (document.member (ascii "metadata")).elim (.ok none) Json.metadataFromJson =
      .ok extras.2 := by
  rw [decodeTaskExtras_eq] at decoded
  obtain ⟨blobId, _, decoded⟩ := bind_eq_ok.mp decoded
  obtain ⟨metadata, metadataFound, same⟩ := bind_eq_ok.mp decoded
  cases same
  exact metadataFound

/-- A task document gives back what was put into it, as far as its metadata can
be read. -/
theorem decodeTask_of_metadata (version : UInt64) (task : ShyguyTask) (blobId : Option Str)
    {metadata : Option Json} {given : Option TaskMetadata}
    (parsed : metadata.elim (.ok none) Json.metadataFromJson = .ok given) :
    decodeTask (taskDocument version task blobId metadata) = .ok {
      value := task
      version := Json.versionOfInt (Int.bmod version.toNat (2 ^ 32))
      blobId := blobId
      metadata := given } := by
  have versionFound : (taskDocument version task blobId metadata).version =
      .ok (Json.versionOfInt (Int.bmod version.toNat (2 ^ 32))) := rfl
  have value : (taskDocument version task blobId metadata).at' (ascii "value") =
      .ok (.ofTask task) := rfl
  have extras : decodeTaskExtras (taskDocument version task blobId metadata) =
      .ok (blobId, given) := by
    have parts : decodeTaskExtras (taskDocument version task blobId metadata) =
        metadata.elim (.ok none) Json.metadataFromJson >>= fun given => .ok (blobId, given) := by
      cases blobId <;> cases metadata <;> rfl
    rw [parts, bind_of_ok parsed]
  rw [decodeTask, decodeEntry, bind_of_ok versionFound, decodeTaskValue, bind_of_ok value,
    Json.getTask_ofTask, bind_of_ok rfl, bind_of_ok extras]
  rfl

theorem decodeTask_taskDocument (version : UInt64) (task : ShyguyTask) (blobId : Option Str)
    (metadata : Option TaskMetadata) :
    ∃ entry, decodeTask (taskDocument version task blobId (chosenMetadata metadata none)) =
      .ok entry ∧ entry.value = task := by
  cases metadata with
  | none => exact ⟨_, decodeTask_of_metadata version task blobId rfl, rfl⟩
  | some given => exact ⟨_, decodeTask_of_metadata version task blobId
      (Json.metadataFromJson_metadataToJson given), rfl⟩

end FsStorage

end BabyLuigi
