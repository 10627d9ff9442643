import BabyLuigi.Storage.StoreMaps
import BabyLuigi.Storage.StoredDocumentsProperties
import BabyLuigi.Storage.VersionedStoreProperties

/-! The stores in files answer every call like the two maps, as long as the
versions are small enough to be read back. -/

set_option autoImplicit false

namespace BabyLuigi

open FsStorage (StoreKey StoresDocuments dagDocument taskDocument decodeDag decodeTask EmptyRoot
  decodeTask_of_metadata)
open VersionedStore (reread)

/-! ### Documents of the maps -/

theorem toNat_ofNat_small {version : Nat} (small : version < 2 ^ 31) :
    (UInt64.ofNat version).toNat = version :=
  UInt64.toNat_ofNat_of_lt (by simp only [UInt64.size]; omega)

theorem ofNat_eq_iff {version : Nat} (small : version < 2 ^ 31) {expected : UInt64} :
    UInt64.ofNat version = expected ↔ expected.toNat = version := by
  rw [← UInt64.toNat_inj, toNat_ofNat_small small]
  exact eq_comm

theorem reread_ofNat {version : Nat} (small : version < 2 ^ 31) :
    reread (.ofNat version) = .ofNat version := by
  have fits := toNat_ofNat_small small
  have kept : Int.bmod (version : Int) (2 ^ 32) = version := by
    rw [Int.bmod_def]
    omega
  have whole : ((version : Int) % 2 ^ 64).toNat = version := by omega
  calc reread (.ofNat version)
      = Json.versionOfInt (Int.bmod (version : Int) (2 ^ 32)) := by rw [reread, fits]
    _ = Json.versionOfInt version := by rw [kept]
    _ = .ofNat version := congrArg UInt64.ofNat whole

theorem decodeDag_eq (version : UInt64) (dag : ShyguyDag) :
    decodeDag (dagDocument version dag) = .ok { value := dag, version := reread version } := by
  have versionFound : (dagDocument version dag).version = .ok (reread version) := rfl
  have value : (dagDocument version dag).at' (ascii "value") = .ok (.ofDag dag) := rfl
  rw [decodeDag, FsStorage.decodeEntry, bind_of_ok versionFound, FsStorage.decodeDagValue,
    bind_of_ok value, Json.getDag_ofDag]
  rfl

theorem scheduleFrequencyFromString_frequencyName {frequency : ScheduleFrequency}
    (named : frequency.Named) :
    Json.scheduleFrequencyFromString (Json.frequencyName frequency) = frequency := by
  cases frequency with
  | unset => exact absurd rfl named.1
  | unknown => exact absurd rfl named.2
  | _ => decide

theorem metadataFromJson_of_named {metadata : TaskMetadata}
    (named : metadata.schedule.frequency.Named) :
    Json.metadataFromJson (Json.metadataToJson metadata) = .ok (some metadata) := by
  rw [Json.metadataFromJson_metadataToJson, scheduleFrequencyFromString_frequencyName named,
    Json.dagRunStatusFromString_statusName, Json.dagRunStatusFromString_statusName]

theorem member_metadata (version : UInt64) (task : ShyguyTask) (blobId : Option Str)
    (metadata : Option Json) :
    (taskDocument version task blobId metadata).member (ascii "metadata") = metadata := by
  cases blobId <;> cases metadata <;> rfl

theorem decodeTask_eq (version : UInt64) (task : ShyguyTask) (blobId : Option Str)
    {metadata : Option TaskMetadata}
    (named : ∀ given, metadata = some given → given.schedule.frequency.Named) :
    decodeTask (taskDocument version task blobId (metadata.map Json.metadataToJson)) =
      .ok { value := task, version := reread version, blobId := blobId, metadata := metadata } := by
  refine decodeTask_of_metadata version task blobId ?_
  cases metadata with
  | none => rfl
  | some given => exact metadataFromJson_of_named (named given rfl)

/-! ### Versions -/

section Versions

variable {root : StoreRoot} {disk : DiskBehavior} {files : Files}
  {documents : StoreKey → Option Json} {key : StoreKey} {Key Value : Type}
  {map : VersionedMap Key Value} {mapKey : Key} {documentOf : UInt64 → Value → Json}

/-- The document of a key is made from an entry of a map. -/
structure Documents (documents : StoreKey → Option Json) (key : StoreKey)
    (map : VersionedMap Key Value) (mapKey : Key) (documentOf : UInt64 → Value → Json) :
    Prop where
  shape : documents key = (map mapKey).map fun held => documentOf (.ofNat held.version) held.value
  versions : ∀ version value, (documentOf version value).version = .ok (reread version)
  small : map.version mapKey < 2 ^ 31

theorem Documents.version_found (made : Documents documents key map mapKey documentOf)
    {held : Versioned Value} (found : map mapKey = some held) :
    (documentOf (.ofNat held.version) held.value).version = .ok (.ofNat held.version) := by
  have small := made.small
  simp only [VersionedMap.version, found] at small
  rw [made.versions, reread_ofNat small]

theorem nextVersion_conflict (stores : StoresDocuments root files documents)
    (reliable : disk.Reliable) (plain : key.Plain)
    (made : Documents documents key map mapKey documentOf) {ifVersion : Option UInt64}
    {expected : Nat} (given : ifVersion.map UInt64.toNat = some expected)
    (differs : expected ≠ map.version mapKey) :
    FsStorage.nextVersion root disk files (key.file root).resolve ifVersion =
      .error .conflict := by
  obtain ⟨wanted, rfl, rfl⟩ := Option.map_eq_some_iff.mp given
  rw [stores.nextVersion reliable plain, made.shape]
  cases found : map mapKey with
  | none =>
      simp only [VersionedMap.version, found] at differs
      have nonzero : wanted ≠ 0 := fun same => differs (by rw [same]; rfl)
      simp [nonzero]
  | some held =>
      have versionFound := made.version_found found
      have small := made.small
      simp only [VersionedMap.version, found] at differs small
      have unequal : UInt64.ofNat held.version ≠ wanted :=
        fun same => differs ((ofNat_eq_iff small).mp same)
      simp [versionFound, unequal]

theorem nextVersion_agrees (stores : StoresDocuments root files documents)
    (reliable : disk.Reliable) (plain : key.Plain)
    (made : Documents documents key map mapKey documentOf) {ifVersion : Option UInt64}
    (agrees : ∀ expected, ifVersion.map UInt64.toNat = some expected →
      expected = map.version mapKey) :
    FsStorage.nextVersion root disk files (key.file root).resolve ifVersion =
      .value (.ofNat (map.version mapKey + 1), documents key) := by
  rw [stores.nextVersion reliable plain, made.shape]
  cases found : map mapKey with
  | none =>
      have zero : ∀ wanted, ifVersion = some wanted → wanted = 0 := by
        intro wanted isWanted
        have same := agrees wanted.toNat (by rw [isWanted]; rfl)
        simp only [VersionedMap.version, found] at same
        exact UInt64.toNat_inj.mp same
      cases ifVersion with
      | none => simp [VersionedMap.version, found]
      | some wanted => simp [VersionedMap.version, found, zero wanted rfl]
  | some held =>
      have versionFound := made.version_found found
      have small := made.small
      have equal : ∀ wanted, ifVersion = some wanted → UInt64.ofNat held.version = wanted := by
        intro wanted isWanted
        have same := agrees wanted.toNat (by rw [isWanted]; rfl)
        simp only [VersionedMap.version, found] at same small
        exact (ofNat_eq_iff small).mpr same
      cases ifVersion with
      | none => simp [VersionedMap.version, found, versionFound, UInt64.ofNat_add]
      | some wanted =>
          obtain rfl := equal wanted rfl
          simp [VersionedMap.version, found, versionFound, UInt64.ofNat_add]

theorem checkVersion_conflict (stores : StoresDocuments root files documents)
    (reliable : disk.Reliable) (made : Documents documents key map mapKey documentOf)
    {held : Versioned Value} (found : map mapKey = some held) {ifVersion : Option UInt64}
    {expected : Nat} (given : ifVersion.map UInt64.toNat = some expected)
    (differs : expected ≠ held.version) :
    FsStorage.checkVersion root disk files (key.location root) ifVersion = .error .conflict := by
  obtain ⟨wanted, rfl, rfl⟩ := Option.map_eq_some_iff.mp given
  have small := made.small
  simp only [VersionedMap.version, found] at small
  have unequal : UInt64.ofNat held.version ≠ wanted :=
    fun same => differs ((ofNat_eq_iff small).mp same)
  rw [stores.checkVersion reliable (made.shape.trans (by rw [found]; rfl))
    (made.version_found found)]
  simp [unequal]

theorem checkVersion_agrees (stores : StoresDocuments root files documents)
    (reliable : disk.Reliable) (made : Documents documents key map mapKey documentOf)
    {held : Versioned Value} (found : map mapKey = some held) {ifVersion : Option UInt64}
    (agrees : ∀ expected, ifVersion.map UInt64.toNat = some expected → expected = held.version) :
    FsStorage.checkVersion root disk files (key.location root) ifVersion = .value () := by
  have small := made.small
  simp only [VersionedMap.version, found] at small
  rw [stores.checkVersion reliable (made.shape.trans (by rw [found]; rfl))
    (made.version_found found)]
  cases ifVersion with
  | none => rfl
  | some wanted =>
      have equal : UInt64.ofNat held.version = wanted :=
        (ofNat_eq_iff small).mpr (agrees wanted.toNat rfl)
      simp [equal]

end Versions

namespace StoreMaps

/-! ### Representation -/

def documents (maps : StoreMaps) : StoreKey → Option Json
  | .dag name => (maps.dags name).map fun held => dagDocument (.ofNat held.version) held.value
  | .task associatedDag name => (maps.tasks (associatedDag, name)).map fun held =>
      taskDocument (.ofNat held.version) held.value.task held.value.blobId
        (held.value.metadata.map Json.metadataToJson)

def version (maps : StoreMaps) : StoreKey → Nat
  | .dag name => maps.dags.version name
  | .task associatedDag name => maps.tasks.version (associatedDag, name)

/-- Entries lie under the keys they name, and their metadata can be read back. -/
structure WellFormed (maps : StoreMaps) : Prop where
  dag : ∀ name held, maps.dags name = some held → held.value.name = name
  task : ∀ key held, maps.tasks key = some held →
    (held.value.task.associatedDag, held.value.task.name) = key
  metadata : ∀ key held given, maps.tasks key = some held → held.value.metadata = some given →
    Json.validUtf8 given.schedule.cronExpression = true ∧ given.schedule.frequency.Named

structure Represents (root : StoreRoot) (files : Files) (maps : StoreMaps) : Prop where
  stored : StoresDocuments root files maps.documents
  wellFormed : maps.WellFormed

/-- Every version can be read back. -/
def Small (maps : StoreMaps) : Prop := ∀ key, maps.version key < 2 ^ 31

theorem documents_update_dags (maps : StoreMaps) (name : Str)
    (entry : Option (Versioned ShyguyDag)) :
    { maps with dags := Function.update maps.dags name entry }.documents =
      Function.update maps.documents (.dag name) (entry.map fun held =>
        dagDocument (.ofNat held.version) held.value) := by
  funext key
  cases key with
  | dag other =>
      by_cases same : other = name
      · subst other
        simp only [documents, Function.update_self]
      · rw [Function.update_of_ne (by simpa using same)]
        simp only [documents, Function.update_of_ne same]
  | task dag other => rw [Function.update_of_ne (by simp)]; rfl

theorem documents_update_tasks (maps : StoreMaps) (dag name : Str)
    (entry : Option (Versioned TaskUpsert)) :
    { maps with tasks := Function.update maps.tasks (dag, name) entry }.documents =
      Function.update maps.documents (.task dag name) (entry.map fun held =>
        taskDocument (.ofNat held.version) held.value.task held.value.blobId
          (held.value.metadata.map Json.metadataToJson)) := by
  funext key
  cases key with
  | dag other => rw [Function.update_of_ne (by simp)]; rfl
  | task otherDag other =>
      by_cases same : (otherDag, other) = (dag, name)
      · cases same
        simp only [documents, Function.update_self]
      · rw [Function.update_of_ne (by simpa using same)]
        simp only [documents, Function.update_of_ne same]

variable {root : StoreRoot} {disk : DiskBehavior} {files after : Files} {maps : StoreMaps}

theorem Small.dagDocuments (small : maps.Small) (name : Str) :
    Documents maps.documents (.dag name) maps.dags name dagDocument where
  shape := rfl
  versions _ _ := rfl
  small := small (.dag name)

theorem Small.taskDocuments (small : maps.Small) (dag name : Str) :
    Documents maps.documents (.task dag name) maps.tasks (dag, name) fun version value =>
      taskDocument version value.task value.blobId (value.metadata.map Json.metadataToJson) where
  shape := rfl
  versions _ _ := rfl
  small := small (.task dag name)

theorem WellFormed.updateDags (wellFormed : maps.WellFormed) {name : Str}
    {entry : Option (Versioned ShyguyDag)}
    (named : ∀ held, entry = some held → held.value.name = name) :
    { maps with dags := Function.update maps.dags name entry }.WellFormed where
  dag other held found := by
    dsimp only at found
    by_cases same : other = name
    · subst other
      rw [Function.update_self] at found
      exact named held found
    · rw [Function.update_of_ne same] at found
      exact wellFormed.dag other held found
  task := wellFormed.task
  metadata := wellFormed.metadata

theorem WellFormed.updateTasks (wellFormed : maps.WellFormed) {key : Str × Str}
    {entry : Option (Versioned TaskUpsert)}
    (keyed : ∀ held, entry = some held →
      (held.value.task.associatedDag, held.value.task.name) = key)
    (readable : ∀ held given, entry = some held → held.value.metadata = some given →
      Json.validUtf8 given.schedule.cronExpression = true ∧ given.schedule.frequency.Named) :
    { maps with tasks := Function.update maps.tasks key entry }.WellFormed where
  dag := wellFormed.dag
  task other held found := by
    dsimp only at found
    by_cases same : other = key
    · subst other
      rw [Function.update_self] at found
      exact keyed held found
    · rw [Function.update_of_ne same] at found
      exact wellFormed.task other held found
  metadata other held given found := by
    dsimp only at found
    by_cases same : other = key
    · subst other
      rw [Function.update_self] at found
      exact readable held given found
    · rw [Function.update_of_ne same] at found
      exact wellFormed.metadata other held given found

/-! ### Single calls -/

theorem Represents.upsertDag (represents : Represents root files maps) (small : maps.Small)
    (reliable : disk.Reliable) {dag : ShyguyDag} (plain : PlainName dag.name)
    (valid : Json.ValidDag dag) {ifVersion : Option UInt64} {answer : StoreAnswer}
    (result : (StoreCall.upsertDag dag ifVersion).perform root disk files = (after, answer)) :
    ∃ mapsAfter, maps.Answers (.upsertDag dag ifVersion) answer mapsAfter ∧
      Represents root after mapsAfter := by
  have plainKey : StoreKey.Plain (.dag dag.name) := plain
  have made := small.dagDocuments dag.name
  rcases VersionedMap.upsert_cases maps.dags dag.name (fun _ => dag) (ifVersion.map UInt64.toNat)
      with ⟨expected, given, differs, refused⟩ | ⟨agrees, accepted⟩
  · have unchanged : FsStorage.upsertDag root disk files dag ifVersion =
        (files, .error .conflict) := FsStorage.upsertAt_refused
      (nextVersion_conflict represents.stored reliable plainKey made given differs)
    simp only [StoreCall.perform, unchanged] at result
    cases result
    refine ⟨maps, ?_, represents⟩
    rw [Answers, refused]
    exact ⟨rfl, rfl⟩
  · obtain ⟨written, succeeded, stored⟩ : ∃ written,
        FsStorage.upsertDag root disk files dag ifVersion =
          (written, .value (.ofNat (maps.dags.version dag.name + 1))) ∧
        StoresDocuments root written (Function.update maps.documents (.dag dag.name)
          (some (dagDocument (.ofNat (maps.dags.version dag.name + 1)) dag))) :=
      represents.stored.upsertAt reliable plainKey
        (nextVersion_agrees represents.stored reliable plainKey made agrees)
        ((FsStorage.dumpable_dagDocument _ dag).mpr valid)
    simp only [StoreCall.perform, succeeded] at result
    cases result
    refine ⟨{ maps with
      dags := Function.update maps.dags dag.name
        (some { value := dag, version := maps.dags.version dag.name + 1 }) }, ?_, ?_, ?_⟩
    · rw [Answers, accepted]
      exact ⟨rfl, rfl⟩
    · rw [documents_update_dags]
      exact stored
    · apply represents.wellFormed.updateDags
      intro held isHeld
      cases isHeld
      rfl

theorem Represents.metadata_readable (represents : Represents root files maps)
    {key : Str × Str} {task : ShyguyTask} {blobId : Option Str} {metadata : Option TaskMetadata}
    (readable : ∀ given, metadata = some given →
      Json.validUtf8 given.schedule.cronExpression = true ∧ given.schedule.frequency.Named)
    {given : TaskMetadata}
    (chosen : (writeTask task blobId metadata
      ((maps.tasks key).map Versioned.value)).metadata = some given) :
    Json.validUtf8 given.schedule.cronExpression = true ∧ given.schedule.frequency.Named := by
  cases metadata with
  | some new => exact readable given chosen
  | none =>
      obtain ⟨existing, isExisting, held⟩ := Option.bind_eq_some_iff.mp chosen
      obtain ⟨entry, found, rfl⟩ := Option.map_eq_some_iff.mp isExisting
      exact represents.wellFormed.metadata key entry given found held

theorem chosenMetadata_documents (maps : StoreMaps) (task : ShyguyTask) (blobId : Option Str)
    (metadata : Option TaskMetadata) :
    FsStorage.chosenMetadata metadata
        (maps.documents (.task task.associatedDag task.name)) =
      (writeTask task blobId metadata ((maps.tasks (task.associatedDag, task.name)).map
        Versioned.value)).metadata.map Json.metadataToJson := by
  cases metadata with
  | some new => rfl
  | none =>
      simp only [FsStorage.chosenMetadata, documents, writeTask, Option.none_or]
      cases maps.tasks (task.associatedDag, task.name) with
      | none => rfl
      | some held => exact member_metadata ..

theorem Represents.upsertTask (represents : Represents root files maps) (small : maps.Small)
    (reliable : disk.Reliable) {task : ShyguyTask}
    (plain : PlainName task.associatedDag ∧ PlainName task.name) (valid : Json.ValidTask task)
    {blobId : Option Str} (validBlob : Json.ValidText blobId) {metadata : Option TaskMetadata}
    (readable : ∀ given, metadata = some given →
      Json.validUtf8 given.schedule.cronExpression = true ∧ given.schedule.frequency.Named)
    {ifVersion : Option UInt64} {answer : StoreAnswer}
    (result : (StoreCall.upsertTask task blobId ifVersion metadata).perform root disk files =
      (after, answer)) :
    ∃ mapsAfter, maps.Answers (.upsertTask task blobId ifVersion metadata) answer mapsAfter ∧
      Represents root after mapsAfter := by
  have plainKey : StoreKey.Plain (.task task.associatedDag task.name) := plain
  have made := small.taskDocuments task.associatedDag task.name
  rcases VersionedMap.upsert_cases maps.tasks (task.associatedDag, task.name)
      (writeTask task blobId metadata) (ifVersion.map UInt64.toNat)
      with ⟨expected, given, differs, refused⟩ | ⟨agrees, accepted⟩
  · have unchanged : FsStorage.upsertTask root disk files task blobId ifVersion metadata =
        (files, .error .conflict) := FsStorage.upsertAt_refused
      (nextVersion_conflict represents.stored reliable plainKey made given differs)
    simp only [StoreCall.perform, unchanged] at result
    cases result
    refine ⟨maps, ?_, represents⟩
    rw [Answers, refused]
    exact ⟨rfl, rfl⟩
  · generalize isWritten : writeTask task blobId metadata
      ((maps.tasks (task.associatedDag, task.name)).map Versioned.value) = value at accepted
    have chosen := chosenMetadata_documents maps task blobId metadata
    rw [isWritten] at chosen
    have metadata_readable : ∀ given, value.metadata = some given →
        Json.validUtf8 given.schedule.cronExpression = true ∧
          given.schedule.frequency.Named := by
      intro given held
      rw [← isWritten] at held
      exact represents.metadata_readable readable held
    have dumpable : ∀ version, (taskDocument version task blobId
        (FsStorage.chosenMetadata metadata
          (maps.documents (.task task.associatedDag task.name)))).dumpable = true := by
      intro version
      refine (FsStorage.dumpable_taskDocument version task blobId _).mpr ⟨valid, validBlob, ?_⟩
      intro json isJson
      rw [chosen] at isJson
      obtain ⟨given, held, rfl⟩ := Option.map_eq_some_iff.mp isJson
      exact (Json.dumpable_metadataToJson given).mpr (metadata_readable given held).1
    obtain ⟨written, succeeded, stored⟩ : ∃ written,
        FsStorage.upsertTask root disk files task blobId ifVersion metadata =
          (written, .value (.ofNat (maps.tasks.version (task.associatedDag, task.name) + 1))) ∧
        StoresDocuments root written
          (Function.update maps.documents (.task task.associatedDag task.name)
            (some (taskDocument (.ofNat (maps.tasks.version (task.associatedDag, task.name) + 1))
              task blobId (FsStorage.chosenMetadata metadata
                (maps.documents (.task task.associatedDag task.name)))))) :=
      represents.stored.upsertAt reliable plainKey
        (nextVersion_agrees represents.stored reliable plainKey made agrees) (dumpable _)
    have isTask : value.task = task := isWritten ▸ rfl
    have isBlob : value.blobId = blobId := isWritten ▸ rfl
    simp only [StoreCall.perform, succeeded] at result
    cases result
    refine ⟨{ maps with
      tasks := Function.update maps.tasks (task.associatedDag, task.name) (some {
        value := value
        version := maps.tasks.version (task.associatedDag, task.name) + 1 }) }, ?_, ?_, ?_⟩
    · rw [Answers, accepted]
      exact ⟨rfl, rfl⟩
    · rw [documents_update_tasks, Option.map_some, isTask, isBlob, ← chosen]
      exact stored
    · apply represents.wellFormed.updateTasks
      · intro held isHeld
        cases isHeld
        rw [isTask]
      · intro held given isHeld
        cases isHeld
        exact metadata_readable given

theorem Represents.eraseDag (represents : Represents root files maps) (small : maps.Small)
    (reliable : disk.Reliable) {name : Str} (plain : PlainName name)
    {ifVersion : Option UInt64} {answer : StoreAnswer}
    (result : (StoreCall.eraseDag name ifVersion).perform root disk files = (after, answer)) :
    ∃ mapsAfter, maps.Answers (.eraseDag name ifVersion) answer mapsAfter ∧
      Represents root after mapsAfter := by
  have plainKey : StoreKey.Plain (.dag name) := plain
  have isTarget : (FsStorage.dagFile root name).resolve = StoreKey.location root (.dag name) :=
    StoreKey.resolve_file plainKey
  have made := small.dagDocuments name
  have isPresent := represents.stored.isPresent (.dag name)
  rw [made.shape] at isPresent
  obtain ⟨absent, refused⟩ | ⟨held, expected, found, given, differs, refused⟩ |
    ⟨held, found, agrees, accepted⟩ :=
      VersionedMap.erase_cases maps.dags name (ifVersion.map UInt64.toNat)
  · have unchanged : FsStorage.eraseDag root disk files name ifVersion =
        (files, .error .notFound) := by
      rw [absent] at isPresent
      simp [FsStorage.eraseDag, isTarget, reliable.examines, isPresent]
    simp only [StoreCall.perform, unchanged] at result
    cases result
    refine ⟨maps, ?_, represents⟩
    rw [Answers, refused]
    exact ⟨rfl, rfl⟩
  · have conflict := checkVersion_conflict represents.stored reliable made found given differs
    have unchanged : FsStorage.eraseDag root disk files name ifVersion =
        (files, .error .conflict) := by
      rw [found] at isPresent
      simp [FsStorage.eraseDag, isTarget, reliable.examines, isPresent, conflict]
    simp only [StoreCall.perform, unchanged] at result
    cases result
    refine ⟨maps, ?_, represents⟩
    rw [Answers, refused]
    exact ⟨rfl, rfl⟩
  · obtain ⟨erased, succeeded, stored⟩ := represents.stored.eraseDag reliable plainKey
      (made.shape.trans (by rw [found]; rfl))
      (checkVersion_agrees represents.stored reliable made found agrees)
    simp only [StoreCall.perform, succeeded] at result
    cases result
    refine ⟨{ maps with dags := Function.update maps.dags name none }, ?_, ?_, ?_⟩
    · rw [Answers, accepted]
      exact ⟨rfl, rfl⟩
    · rw [documents_update_dags]
      exact stored
    · exact represents.wellFormed.updateDags (by intro _ impossible; cases impossible)

theorem Represents.eraseTask (represents : Represents root files maps) (small : maps.Small)
    (reliable : disk.Reliable) {dag name : Str} (plain : PlainName dag ∧ PlainName name)
    {ifVersion : Option UInt64} {answer : StoreAnswer}
    (result : (StoreCall.eraseTask dag name ifVersion).perform root disk files =
      (after, answer)) :
    ∃ mapsAfter, maps.Answers (.eraseTask dag name ifVersion) answer mapsAfter ∧
      Represents root after mapsAfter := by
  have plainKey : StoreKey.Plain (.task dag name) := plain
  have isTarget : (FsStorage.taskFile root dag name).resolve =
      StoreKey.location root (.task dag name) := StoreKey.resolve_file plainKey
  have made := small.taskDocuments dag name
  have isPresent := represents.stored.isPresent (.task dag name)
  rw [made.shape] at isPresent
  obtain ⟨absent, refused⟩ | ⟨held, expected, found, given, differs, refused⟩ |
    ⟨held, found, agrees, accepted⟩ :=
      VersionedMap.erase_cases maps.tasks (dag, name) (ifVersion.map UInt64.toNat)
  · have unchanged : FsStorage.eraseTask root disk files dag name ifVersion =
        (files, .error .notFound) := by
      rw [absent] at isPresent
      simp [FsStorage.eraseTask, isTarget, reliable.examines, isPresent]
    simp only [StoreCall.perform, unchanged] at result
    cases result
    refine ⟨maps, ?_, represents⟩
    rw [Answers, refused]
    exact ⟨rfl, rfl⟩
  · have conflict := checkVersion_conflict represents.stored reliable made found given differs
    have unchanged : FsStorage.eraseTask root disk files dag name ifVersion =
        (files, .error .conflict) := by
      rw [found] at isPresent
      simp [FsStorage.eraseTask, isTarget, reliable.examines, isPresent, conflict]
    simp only [StoreCall.perform, unchanged] at result
    cases result
    refine ⟨maps, ?_, represents⟩
    rw [Answers, refused]
    exact ⟨rfl, rfl⟩
  · obtain ⟨erased, succeeded, stored⟩ := represents.stored.eraseTask reliable plainKey
      (made.shape.trans (by rw [found]; rfl))
      (checkVersion_agrees represents.stored reliable made found agrees)
    simp only [StoreCall.perform, succeeded] at result
    cases result
    refine ⟨{ maps with tasks := Function.update maps.tasks (dag, name) none }, ?_, ?_, ?_⟩
    · rw [Answers, accepted]
      exact ⟨rfl, rfl⟩
    · rw [documents_update_tasks]
      exact stored
    · exact represents.wellFormed.updateTasks (by intro _ impossible; cases impossible)
        (by intro _ _ impossible; cases impossible)

theorem decodeDag_held (small : maps.Small) {name : Str} {held : Versioned ShyguyDag}
    (isHeld : maps.dags name = some held) :
    decodeDag (dagDocument (.ofNat held.version) held.value) = .ok (dagEntry held) := by
  have fits := small (.dag name)
  simp only [version, VersionedMap.version, isHeld] at fits
  rw [decodeDag_eq, reread_ofNat fits]
  rfl

theorem Represents.decodeTask_held (represents : Represents root files maps)
    (small : maps.Small) {dag name : Str} {held : Versioned TaskUpsert}
    (isHeld : maps.tasks (dag, name) = some held) :
    decodeTask (taskDocument (.ofNat held.version) held.value.task held.value.blobId
      (held.value.metadata.map Json.metadataToJson)) = .ok (taskEntry held) := by
  have fits := small (.task dag name)
  simp only [version, VersionedMap.version, isHeld] at fits
  rw [decodeTask_eq _ _ _ fun given isGiven =>
    (represents.wellFormed.metadata _ held given isHeld isGiven).2, reread_ofNat fits]
  rfl

theorem Represents.getDag (represents : Represents root files maps) (small : maps.Small)
    (reliable : disk.Reliable) {name : Str} (plain : PlainName name) :
    FsStorage.getDag root disk files name = found ((maps.dags name).map dagEntry) := by
  have isTarget : (FsStorage.dagFile root name).resolve = StoreKey.location root (.dag name) :=
    StoreKey.resolve_file (show StoreKey.Plain (.dag name) from plain)
  rw [FsStorage.getDag, isTarget, represents.stored.readJson reliable, documents]
  cases isHeld : maps.dags name with
  | none => rfl
  | some held =>
      dsimp only [Option.map_some]
      rw [decodeDag_held small isHeld]
      rfl

theorem Represents.getTask (represents : Represents root files maps) (small : maps.Small)
    (reliable : disk.Reliable) {dag name : Str} (plain : PlainName dag ∧ PlainName name) :
    FsStorage.getTask root disk files dag name =
      found ((maps.tasks (dag, name)).map taskEntry) := by
  have isTarget : (FsStorage.taskFile root dag name).resolve =
      StoreKey.location root (.task dag name) :=
    StoreKey.resolve_file (show StoreKey.Plain (.task dag name) from plain)
  rw [FsStorage.getTask, isTarget, represents.stored.readJson reliable, documents]
  cases isHeld : maps.tasks (dag, name) with
  | none => rfl
  | some held =>
      dsimp only [Option.map_some]
      rw [represents.decodeTask_held small isHeld]
      rfl

theorem Represents.listDags (represents : Represents root files maps) (small : maps.Small)
    (reliable : disk.Reliable) :
    ∃ entries, FsStorage.listDags root disk files = .value entries ∧
      Lists (fun name => (maps.dags name).map dagEntry) entries := by
  obtain ⟨entries, listed, lists⟩ := represents.stored.listDags reliable (by
    intro name document isDocument
    obtain ⟨held, isHeld, rfl⟩ := Option.map_eq_some_iff.mp isDocument
    exact ⟨dagEntry held, decodeDag_held small isHeld,
      represents.wellFormed.dag name held isHeld⟩)
  have same : (fun name => (maps.documents (.dag name)).bind fun document =>
      (decodeDag document).toOption) = fun name => (maps.dags name).map dagEntry := by
    funext name
    dsimp only [documents]
    cases isHeld : maps.dags name with
    | none => rfl
    | some held =>
        rw [Option.map_some, Option.bind_some, decodeDag_held small isHeld]
        rfl
  exact ⟨entries, listed, same ▸ lists⟩

theorem Represents.listTasks (represents : Represents root files maps) (small : maps.Small)
    (reliable : disk.Reliable) {dag : Str} (plain : PlainName dag) :
    ∃ entries, FsStorage.listTasks root disk files dag = .value entries ∧
      Lists (fun name => (maps.tasks (dag, name)).map taskEntry) entries := by
  obtain ⟨entries, listed, lists⟩ := represents.stored.listTasks reliable plain (by
    intro name document isDocument
    obtain ⟨held, isHeld, rfl⟩ := Option.map_eq_some_iff.mp isDocument
    exact ⟨taskEntry held, represents.decodeTask_held small isHeld,
      congrArg Prod.snd (represents.wellFormed.task (dag, name) held isHeld)⟩)
  have same : (fun name => (maps.documents (.task dag name)).bind fun document =>
      (decodeTask document).toOption) =
        fun name => (maps.tasks (dag, name)).map taskEntry := by
    funext name
    dsimp only [documents]
    cases isHeld : maps.tasks (dag, name) with
    | none => rfl
    | some held =>
        rw [Option.map_some, Option.bind_some, represents.decodeTask_held small isHeld]
        rfl
  exact ⟨entries, listed, same ▸ lists⟩

/-! ### Runs -/

/-- Every call on reliable disks is a call on the maps. -/
theorem Represents.call (represents : Represents root files maps) (small : maps.Small)
    (reliable : disk.Reliable) {call : StoreCall} (admissible : call.Admissible)
    {answer : StoreAnswer} (result : call.perform root disk files = (after, answer)) :
    ∃ mapsAfter, maps.Answers call answer mapsAfter ∧ Represents root after mapsAfter := by
  cases call with
  | upsertDag dag ifVersion =>
      exact represents.upsertDag small reliable admissible.1 admissible.2 result
  | getDag name =>
      cases result
      rw [represents.getDag small reliable admissible]
      exact ⟨maps, ⟨rfl, rfl⟩, represents⟩
  | listDags =>
      cases result
      obtain ⟨entries, listed, lists⟩ := represents.listDags small reliable
      exact ⟨maps, ⟨⟨entries, congrArg StoreAnswer.dags listed, lists⟩, rfl⟩, represents⟩
  | eraseDag name ifVersion => exact represents.eraseDag small reliable admissible result
  | upsertTask task blobId ifVersion metadata =>
      obtain ⟨plain, valid, validBlob, readable⟩ := admissible
      exact represents.upsertTask small reliable plain valid validBlob readable result
  | getTask dag name =>
      cases result
      rw [represents.getTask small reliable admissible]
      exact ⟨maps, ⟨rfl, rfl⟩, represents⟩
  | listTasks dag =>
      cases result
      obtain ⟨entries, listed, lists⟩ := represents.listTasks small reliable admissible
      exact ⟨maps, ⟨⟨entries, congrArg StoreAnswer.tasks listed, lists⟩, rfl⟩, represents⟩
  | eraseTask dag name ifVersion => exact represents.eraseTask small reliable admissible result

/-- Only an update counts a version up, and by one. -/
theorem Answers.version_le {mapsAfter : StoreMaps} {call : StoreCall} {answer : StoreAnswer}
    (answers : maps.Answers call answer mapsAfter) (key : StoreKey) :
    mapsAfter.version key ≤
      maps.version key + if updatedKey (call, answer) = some key then 1 else 0 := by
  cases call with
  | upsertDag dag ifVersion =>
      rcases VersionedMap.upsert_cases maps.dags dag.name (fun _ => dag)
          (ifVersion.map UInt64.toNat) with ⟨_, _, _, refused⟩ | ⟨_, accepted⟩
      · rw [Answers, refused] at answers
        obtain ⟨_, rfl⟩ := answers
        exact Nat.le_add_right _ _
      · rw [Answers, accepted] at answers
        obtain ⟨rfl, rfl⟩ := answers
        cases key with
        | dag name =>
            simp [version, VersionedMap.version_update_succ, updatedKey, updated, eq_comm]
        | task dag name => exact Nat.le_add_right _ _
  | upsertTask task blobId ifVersion metadata =>
      rcases VersionedMap.upsert_cases maps.tasks (task.associatedDag, task.name)
          (writeTask task blobId metadata) (ifVersion.map UInt64.toNat)
          with ⟨_, _, _, refused⟩ | ⟨_, accepted⟩
      · rw [Answers, refused] at answers
        obtain ⟨_, rfl⟩ := answers
        exact Nat.le_add_right _ _
      · rw [Answers, accepted] at answers
        obtain ⟨rfl, rfl⟩ := answers
        cases key with
        | dag name => exact Nat.le_add_right _ _
        | task dag name =>
            simp [version, VersionedMap.version_update_succ, updatedKey, updated, eq_comm]
  | eraseDag name ifVersion =>
      obtain ⟨_, rfl⟩ := answers
      cases key with
      | dag other =>
          exact (VersionedMap.version_erase_le maps.dags name other _).trans (Nat.le_add_right _ _)
      | task dag other => exact Nat.le_add_right _ _
  | eraseTask dag name ifVersion =>
      obtain ⟨_, rfl⟩ := answers
      cases key with
      | dag other => exact Nat.le_add_right _ _
      | task otherDag other =>
          exact (VersionedMap.version_erase_le maps.tasks (dag, name) (otherDag, other) _).trans
            (Nat.le_add_right _ _)
  | getDag name =>
      obtain ⟨_, rfl⟩ := answers
      exact Nat.le_add_right _ _
  | listDags =>
      obtain ⟨_, rfl⟩ := answers
      exact Nat.le_add_right _ _
  | getTask dag name =>
      obtain ⟨_, rfl⟩ := answers
      exact Nat.le_add_right _ _
  | listTasks dag =>
      obtain ⟨_, rfl⟩ := answers
      exact Nat.le_add_right _ _

theorem Run.version_le {trace : StoreTrace} (run : Run maps trace) (key : StoreKey) :
    maps.version key ≤ updates key trace := by
  induction run with
  | start => cases key <;> exact Nat.le_refl 0
  | call _ answers ih =>
      rw [updates, List.countP_cons]
      simp only [decide_eq_true_eq]
      exact (answers.version_le key).trans (Nat.add_le_add_right ih _)

theorem represents_construct (reliable : disk.Reliable) (start : EmptyRoot root files) :
    Represents root (FsStorage.construct root disk files) empty := by
  have noDocument : empty.documents = fun _ => none := by
    funext key
    cases key <;> rfl
  refine ⟨noDocument ▸ FsStorage.storesDocuments_construct reliable start, ⟨?_, ?_, ?_⟩⟩
  · intro _ _ impossible
    cases impossible
  · intro _ _ impossible
    cases impossible
  · intro _ _ _ impossible
    cases impossible

/-- Every run of calls on the stores, each of them on a disk that fails no
operation, is a run of the two maps with the same answers. -/
theorem run_refines (reliable : disk.Reliable) (start : EmptyRoot root files)
    {filesAfter : Files} {trace : StoreTrace}
    (run : StoreRun root (FsStorage.construct root disk files) filesAfter trace)
    (admissible : ∀ record ∈ trace, record.1.Admissible)
    (few : ∀ key, updates key trace < 2 ^ 31) :
    ∃ maps, Run maps trace := by
  have refines : ∃ maps, Run maps trace ∧ Represents root filesAfter maps := by
    induction run with
    | start => exact ⟨empty, .start, represents_construct reliable start⟩
    | call _ diskReliable result ih =>
        obtain ⟨callAdmissible, earlierAdmissible⟩ := List.forall_mem_cons.mp admissible
        obtain ⟨maps, mapsRun, represents⟩ := ih earlierAdmissible fun key =>
          (List.sublist_cons_self _ _).countP_le.trans_lt (few key)
        have small : maps.Small := fun key => (mapsRun.version_le key).trans_lt
          ((List.sublist_cons_self _ _).countP_le.trans_lt (few key))
        obtain ⟨mapsAfter, answers, after⟩ :=
          represents.call small diskReliable callAdmissible result
        exact ⟨mapsAfter, mapsRun.call answers, after⟩
  obtain ⟨maps, mapsRun, _⟩ := refines
  exact ⟨maps, mapsRun⟩

def nightly : TaskMetadata where
  schedule := { cronExpression := ascii "0 0 * * *", frequency := .daily }
  statuses := { previous := .none, current := .none }

/-- A task is created with metadata and updated without, and keeps them. -/
theorem run_refines_etl : ∃ files trace maps,
    StoreRun FsStorage.dataRoot FsStorage.freshFiles files trace ∧ Run maps trace ∧
    trace.length = 3 ∧ trace.head? = some
      (.getTask (ascii "etl") (ascii "extract"), .task (.value {
        value := FsStorage.bareTask (ascii "etl") (ascii "extract")
        version := 2
        blobId := none
        metadata := some nightly })) := by
  have reliable := DiskBehavior.reliable_reliable
  have plain : PlainName (ascii "etl") ∧ PlainName (ascii "extract") := by
    constructor <;> constructor <;> decide
  have valid : Json.ValidTask (FsStorage.bareTask (ascii "etl") (ascii "extract")) := by
    constructor <;> first | decide | (intro _ impossible; cases impossible)
  have noBlob : Json.ValidText none := by
    intro _ impossible
    cases impossible
  have run : ∃ files trace,
      StoreRun FsStorage.dataRoot FsStorage.freshFiles files trace ∧
      (∀ record ∈ trace, record.1.Admissible) ∧ trace.length = 3 ∧ trace.head? = some
        (.getTask (ascii "etl") (ascii "extract"), .task (.value {
          value := FsStorage.bareTask (ascii "etl") (ascii "extract")
          version := 2
          blobId := none
          metadata := some nightly })) := by
    refine ⟨_, _, .call (.call (.call .start reliable
      (rfl : (StoreCall.upsertTask (FsStorage.bareTask (ascii "etl") (ascii "extract")) none none
        (some nightly)).perform _ _ _ = _)) reliable
      (rfl : (StoreCall.upsertTask (FsStorage.bareTask (ascii "etl") (ascii "extract")) none
        (some 1) none).perform _ _ _ = _)) reliable
      (rfl : (StoreCall.getTask (ascii "etl") (ascii "extract")).perform _ _ _ = _), ?_, rfl, ?_⟩
    · intro record member
      rcases List.mem_cons.mp member with rfl | member
      · exact plain
      · rcases List.mem_cons.mp member with rfl | member
        · exact ⟨plain, valid, noBlob, by intro _ impossible; cases impossible⟩
        · obtain rfl := List.mem_singleton.mp member
          refine ⟨plain, valid, noBlob, ?_⟩
          intro given isGiven
          cases isGiven
          exact ⟨by decide, by constructor <;> decide⟩
    · decide +kernel
  obtain ⟨files, trace, run, admissible, length, answer⟩ := run
  obtain ⟨maps, mapsRun⟩ := run_refines reliable (FsStorage.emptyRoot_empty _) run admissible
    fun key => (List.countP_le_length).trans_lt (by rw [length]; decide)
  exact ⟨files, trace, maps, run, mapsRun, length, answer⟩

end StoreMaps

end BabyLuigi
