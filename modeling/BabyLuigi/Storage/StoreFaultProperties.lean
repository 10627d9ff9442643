import BabyLuigi.Storage.FsStorageProperties
import BabyLuigi.Storage.JsonTextProperties

/-! When the calls on the stores return, with a value or with an error: strings
that can be printed, and documents that can be read back. -/

set_option autoImplicit false

namespace BabyLuigi.FsStorage

open Json (ValidDag ValidTask ValidText)

variable {root : StoreRoot} {disk : DiskBehavior}

/-- A document at the location, if one can be read, is accepted by the
conversion. -/
def IntactAt {Entry : Type} (root : StoreRoot) (files : Files) (location : Location)
    (decode : Json → Except Fault Entry) : Prop :=
  ∀ document, readJson root .reliable files location = .ok document →
    document.dumpable = true ∧ ∃ entry, decode document = .ok entry

theorem readJson_reliable {files : Files} {location : Location} {document : Json}
    (result : readJson root disk files location = .ok document) :
    readJson root .reliable files location = .ok document := by
  unfold readJson at result ⊢
  split at result
  · cases result
  · exact result

theorem IntactAt.read {Entry : Type} {files : Files} {location : Location}
    {decode : Json → Except Fault Entry} (intact : IntactAt root files location decode)
    {document : Json} (result : readJson root disk files location = .ok document) :
    document.dumpable = true ∧ ∃ entry, decode document = .ok entry :=
  intact document (readJson_reliable result)

theorem intactAt_of_absent {Entry : Type} {files : Files} {location : Location}
    {decode : Json → Except Fault Entry} (absent : files.node location = none) :
    IntactAt root files location decode := by
  intro document result
  obtain ⟨content, file, _⟩ := exists_file_of_readJson result
  rw [FileSystem.fileAt_eq_some, absent] at file
  cases file

theorem writeVersion_noFault {files : Files} {path : FsPath} {version : UInt64} {document : Json}
    (dumpable : document.dumpable = true) (fault : Fault) :
    (writeVersion disk files path version document).2 ≠ .exception fault := by
  have written : ∀ other, (writeJsonAtomic disk files path document).2 ≠ .exception other := by
    intro other
    unfold writeJsonAtomic
    dsimp only
    split
    · nofun
    · split
      · nofun
      · rw [dumpable, Bool.not_true, if_neg Bool.false_ne_true]
        split
        · nofun
        · split
          · nofun
          · split <;> nofun
  unfold writeVersion
  split
  · nofun
  · nofun
  · rename_i thrown result
    exact absurd (congrArg Prod.snd result) (written thrown)

/-- An update throws at most where it examines its target, where it converts
the version it finds, and where it prints. -/
theorem upsertAt_noFault (examines : disk.examines = true) {files : Files} {path : FsPath}
    {ifVersion : Option UInt64} {document : UInt64 → Option Json → Json}
    (versions : ∀ current, readJson root disk files path.resolve = .ok current →
      ∃ version, current.version = .ok version)
    (dumpable : ∀ version existing, (∀ current, existing = some current →
        readJson root disk files path.resolve = .ok current) →
      (document version existing).dumpable = true) (fault : Fault) :
    (upsertAt root disk files path ifVersion document).2 ≠ .exception fault := by
  unfold upsertAt nextVersion
  rw [examines, Bool.not_true, if_neg Bool.false_ne_true]
  by_cases present : files.isPresent path.resolve = true
  · rw [if_pos present]
    cases found : readJson root disk files path.resolve with
    | error error =>
        nofun
    | ok current =>
        obtain ⟨version, versionFound⟩ := versions current found
        dsimp only
        rw [versionFound]
        dsimp only
        by_cases differs : (ifVersion.any fun expected => version != expected) = true
        · rw [if_pos differs]
          nofun
        · rw [if_neg differs]
          apply writeVersion_noFault
          apply dumpable
          intro _ same
          cases same
          exact found
  · rw [if_neg present]
    by_cases expects : (ifVersion.any fun expected => expected != 0) = true
    · rw [if_pos expects]
      nofun
    · rw [if_neg expects]
      apply writeVersion_noFault
      apply dumpable
      intro _ impossible
      cases impossible

theorem upsertDag_noFault (examines : disk.examines = true) {files : Files} {dag : ShyguyDag}
    (valid : ValidDag dag)
    (intact : IntactAt root files (dagFile root dag.name).resolve Json.version)
    (ifVersion : Option UInt64) (fault : Fault) :
    (upsertDag root disk files dag ifVersion).2 ≠ .exception fault := by
  apply upsertAt_noFault examines
  · exact fun current found => (intact.read found).2
  · exact fun version _ _ => (dumpable_dagDocument version dag).mpr valid

theorem getDag_noFault {files : Files} {name : Str}
    (intact : IntactAt root files (dagFile root name).resolve decodeDag) (fault : Fault) :
    getDag root disk files name ≠ .exception fault := by
  unfold getDag
  split
  · nofun
  · rename_i found
    obtain ⟨_, entry, decoded⟩ := intact.read found
    rw [decoded]
    nofun

/-- The schedule of a DAG that is read from an intact document can be printed. -/
theorem validText_of_getDag {files : Files} {name : Str} {entry : DagEntry}
    (intact : IntactAt root files (dagFile root name).resolve decodeDag)
    (result : getDag root disk files name = .value entry) : ValidText entry.value.schedule := by
  obtain ⟨document, found, decoded⟩ := getDag_eq_value.mp result
  obtain ⟨dumpable, _⟩ := intact.read found
  obtain ⟨version, dag, _, _, dagFound, _, rfl⟩ := decodeEntry_eq_ok decoded
  obtain ⟨value, valueFound, dagFound⟩ := bind_eq_ok.mp dagFound
  obtain ⟨_, nameFound, dagFound⟩ := bind_eq_ok.mp dagFound
  obtain ⟨_, nameString, dagFound⟩ := bind_eq_ok.mp dagFound
  obtain ⟨schedule, scheduleFound, dagFound⟩ := bind_eq_ok.mp dagFound
  obtain ⟨text, textFound, made⟩ := bind_eq_ok.mp dagFound
  cases made
  intro given isGiven
  have valueDumpable := Json.dumpable_of_at' dumpable valueFound
  have scheduleDumpable := Json.dumpable_of_at' valueDumpable scheduleFound
  cases schedule with
  | string held =>
      cases textFound
      cases isGiven
      simpa using scheduleDumpable
  | null =>
      cases textFound
      cases isGiven
  | _ => cases textFound

theorem eraseDag_noFault (examines : disk.examines = true) (files : Files) (name : Str)
    (fault : Fault) : (eraseDag root disk files name none).2 ≠ .exception fault := by
  unfold eraseDag
  dsimp only [checkVersion]
  rw [examines, Bool.not_true, if_neg Bool.false_ne_true]
  split
  · intro impossible
    cases impossible
  · intro impossible
    cases impossible

theorem upsertTask_noFault (examines : disk.examines = true) {files : Files} {task : ShyguyTask}
    {blobId : Option Str} {metadata : Option TaskMetadata} (valid : ValidTask task)
    (validBlob : ValidText blobId)
    (validCron : ∀ given, metadata = some given →
      Json.validUtf8 given.schedule.cronExpression = true)
    (intact : IntactAt root files (taskFile root task.associatedDag task.name).resolve
      Json.version)
    (ifVersion : Option UInt64) (fault : Fault) :
    (upsertTask root disk files task blobId ifVersion metadata).2 ≠ .exception fault := by
  apply upsertAt_noFault examines
  · exact fun current found => (intact.read found).2
  · intro version existing isRead
    refine (dumpable_taskDocument version task blobId _).mpr ⟨valid, validBlob, ?_⟩
    intro json chosen
    cases metadata with
    | some given =>
        cases chosen
        exact (Json.dumpable_metadataToJson given).mpr (validCron given rfl)
    | none =>
        obtain ⟨current, isCurrent, member⟩ := Option.bind_eq_some_iff.mp chosen
        exact Json.dumpable_of_member (intact.read (isRead current isCurrent)).1 member

theorem getTask_noFault {files : Files} {dag name : Str}
    (intact : IntactAt root files (taskFile root dag name).resolve decodeTask) (fault : Fault) :
    getTask root disk files dag name ≠ .exception fault := by
  unfold getTask
  split
  · nofun
  · rename_i found
    obtain ⟨_, entry, decoded⟩ := intact.read found
    rw [decoded]
    nofun

theorem eraseTask_noFault (examines : disk.examines = true) (files : Files) (dag name : Str)
    (fault : Fault) : (eraseTask root disk files dag name none).2 ≠ .exception fault := by
  unfold eraseTask
  dsimp only [checkVersion]
  rw [examines, Bool.not_true, if_neg Bool.false_ne_true]
  split
  · split
    · intro impossible
      cases impossible
    · intro impossible
      cases impossible
  · intro impossible
    cases impossible

theorem putBlob_noFault (files : Files) (bytes : Str) (fault : Fault) :
    (putBlob root disk files bytes).2 ≠ .exception fault := by
  unfold putBlob
  dsimp only
  split
  · nofun
  · split
    · nofun
    · split
      · nofun
      · split <;> nofun

theorem putBlob_value {files after : Files} {bytes id : Str}
    (result : putBlob root disk files bytes = (after, .value id)) : id = fnv1aHex bytes := by
  unfold putBlob at result
  dsimp only at result
  split at result
  · cases result
    rfl
  · split at result
    · cases result
    · split at result
      · cases result
      · split at result
        · cases result
          rfl
        · cases result

end BabyLuigi.FsStorage
