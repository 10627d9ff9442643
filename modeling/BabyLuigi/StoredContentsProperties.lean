import BabyLuigi.ExecutedTasksProperties
import BabyLuigi.Storage.StoredBlobsProperties

/-! The blobs that the stored tasks name: each is in the store, with a content
that was put under its id. -/

set_option autoImplicit false

namespace BabyLuigi

/-- The content that is stored as a blob, for a task that also names a file. -/
def ShyguyTask.blobContent (task : ShyguyTask) : Option Str :=
  task.filename.bind fun _ => task.fileContent

namespace FsStorage

variable {root : StoreRoot} {disk : DiskBehavior} {files after : Files} {contents : List Str}

/-- The entry has the id of the content of its task, which is one of those put. -/
structure NamesBlob (contents : List Str) (entry : TaskEntry) : Prop where
  blobId : entry.blobId = entry.value.blobContent.map fnv1aHex
  put : ∀ content, entry.value.blobContent = some content → content ∈ contents

/-- Every task document is read as an entry that names a blob. -/
def NameBlobs (contents : List Str) (documents : StoreKey → Option Json) : Prop :=
  ∀ dag name document, documents (.task dag name) = some document →
    ∃ entry, decodeTask document = .ok entry ∧ NamesBlob contents entry

/-- The blobs of a store next to the tasks that name them. -/
structure KeepsContents (root : StoreRoot) (files : Files) (contents : List Str) : Prop where
  blobs : KeepsBlobs root files contents
  tasks : ∃ documents, StoresDocuments root files documents ∧ NameBlobs contents documents

theorem keepsContents_construct (reliable : disk.Reliable) (empty : EmptyRoot root files) :
    KeepsContents root (construct root disk files) [] where
  blobs := keepsBlobs_construct reliable empty
  tasks := by
    refine ⟨_, storesDocuments_construct reliable empty, ?_⟩
    intro dag name document held
    cases held

theorem NameBlobs.update {documents : StoreKey → Option Json} (names : NameBlobs contents documents)
    {key : StoreKey} {changed : Option Json}
    (isNamed : ∀ dag name document, key = .task dag name → changed = some document →
      ∃ entry, decodeTask document = .ok entry ∧ NamesBlob contents entry) :
    NameBlobs contents (Function.update documents key changed) := by
  intro dag name document held
  by_cases same : .task dag name = key
  · rw [same, Function.update_self] at held
    exact isNamed dag name document same.symm held
  · rw [Function.update_of_ne same] at held
    exact names dag name document held

/-! ### Calls on the stores -/

theorem KeepsBlobs.after_change (keeps : KeepsBlobs root files contents) (change : StoreChange)
    (plain : change.key.Plain) (result : (change.apply root disk files).1 = after) :
    KeepsBlobs root after contents :=
  result ▸ keeps.apply disk plain

theorem KeepsContents.upsertDag (keeps : KeepsContents root files contents)
    (reliable : disk.Reliable) {dag : ShyguyDag} (plain : PlainName dag.name)
    {outcome : Outcome UInt64} (result : upsertDag root disk files dag none = (after, outcome))
    (noFault : ∀ fault, outcome ≠ .exception fault) : KeepsContents root after contents := by
  obtain ⟨documents, stored, names⟩ := keeps.tasks
  have plainKey : StoreKey.Plain (.dag dag.name) := plain
  constructor
  · exact keeps.blobs.after_change (.upsertDag dag none) plain (congrArg Prod.fst result)
  · obtain ⟨version, written⟩ := stored.upsertAt_returned reliable plainKey result noFault
    refine ⟨_, written, names.update ?_⟩
    intro dagName name document impossible
    cases impossible

theorem KeepsContents.eraseDag (keeps : KeepsContents root files contents)
    (reliable : disk.Reliable) {dag : Str} (plain : PlainName dag) {outcome : Outcome Unit}
    (result : eraseDag root disk files dag none = (after, outcome)) :
    KeepsContents root after contents := by
  obtain ⟨documents, stored, names⟩ := keeps.tasks
  constructor
  · exact keeps.blobs.after_change (.eraseDag dag none) plain (congrArg Prod.fst result)
  · refine ⟨_, stored.eraseDag_returned reliable plain result, names.update ?_⟩
    intro dagName name document impossible
    cases impossible

theorem KeepsContents.eraseTask (keeps : KeepsContents root files contents)
    (reliable : disk.Reliable) {dag name : Str} (plain : PlainName dag ∧ PlainName name)
    {outcome : Outcome Unit} (result : eraseTask root disk files dag name none = (after, outcome)) :
    KeepsContents root after contents := by
  obtain ⟨documents, stored, names⟩ := keeps.tasks
  constructor
  · exact keeps.blobs.after_change (.eraseTask dag name none) plain (congrArg Prod.fst result)
  · refine ⟨_, stored.eraseTask_returned reliable plain result, names.update ?_⟩
    intro dagName taskName document _ impossible
    cases impossible

/-- A content that is put stays among those that the entries may name. -/
theorem KeepsContents.putBlob (keeps : KeepsContents root files contents)
    (reliable : disk.Reliable) {bytes : Str} {outcome : Outcome Str}
    (result : putBlob root disk files bytes = (after, outcome)) :
    outcome = .value (fnv1aHex bytes) ∧ KeepsContents root after (bytes :: contents) := by
  obtain ⟨documents, stored, names⟩ := keeps.tasks
  obtain ⟨answered, blobs⟩ := keeps.blobs.putBlob reliable result
  refine ⟨answered, blobs, documents, stored.putBlob result, ?_⟩
  intro dag name document held
  obtain ⟨entry, decoded, named⟩ := names dag name document held
  refine ⟨entry, decoded, named.blobId, ?_⟩
  exact fun content isContent => List.mem_cons_of_mem _ (named.put content isContent)

/-- The id that is stored comes back with the task, whatever was replaced. -/
theorem decodeTask_blobId (version : UInt64) (task : ShyguyTask) (blobId : Option Str)
    (metadata : Option TaskMetadata) {existing : Option Json}
    (decodes : ∀ document, existing = some document →
      ∃ entry, decodeTask document = .ok entry) :
    ∃ entry, decodeTask (taskDocument version task blobId (chosenMetadata metadata existing)) =
      .ok entry ∧ entry.value = task ∧ entry.blobId = blobId := by
  have parsed : ∃ given, (chosenMetadata metadata existing).elim (.ok none)
      Json.metadataFromJson = .ok given := by
    cases metadata with
    | some given => exact ⟨_, Json.metadataFromJson_metadataToJson given⟩
    | none =>
        cases existing with
        | none => exact ⟨none, rfl⟩
        | some document =>
            obtain ⟨entry, decoded⟩ := decodes document rfl
            obtain ⟨_, _, extras, _, _, extrasFound, _⟩ := decodeEntry_eq_ok decoded
            exact ⟨_, metadata_of_decodeTaskExtras extrasFound⟩
  obtain ⟨given, parsed⟩ := parsed
  exact ⟨_, decodeTask_of_metadata version task blobId parsed, rfl, rfl⟩

theorem KeepsContents.upsertTask (keeps : KeepsContents root files contents)
    (reliable : disk.Reliable) {task : ShyguyTask}
    (plain : PlainName task.associatedDag ∧ PlainName task.name)
    (put : ∀ content, task.blobContent = some content → content ∈ contents)
    {metadata : Option TaskMetadata} {outcome : Outcome UInt64}
    (result : upsertTask root disk files task (task.blobContent.map fnv1aHex) none metadata =
      (after, outcome))
    (noFault : ∀ fault, outcome ≠ .exception fault) : KeepsContents root after contents := by
  obtain ⟨documents, stored, names⟩ := keeps.tasks
  have plainKey : StoreKey.Plain (.task task.associatedDag task.name) := plain
  constructor
  · exact keeps.blobs.after_change (.upsertTask task _ none metadata) plain
      (congrArg Prod.fst result)
  · obtain ⟨version, written⟩ := stored.upsertAt_returned reliable plainKey result noFault
    refine ⟨_, written, names.update ?_⟩
    intro dagName name document _ held
    cases held
    have decodes : ∀ document,
        documents (.task task.associatedDag task.name) = some document →
        ∃ entry, decodeTask document = .ok entry :=
      fun document held => (names _ _ document held).imp fun _ => And.left
    obtain ⟨entry, decoded, isTask, isId⟩ :=
      decodeTask_blobId version task (task.blobContent.map fnv1aHex) metadata decodes
    exact ⟨entry, decoded, by rw [isTask, isId], by rwa [isTask]⟩

end FsStorage

/-! ### Runs of the server -/

namespace ConcurrentShyguy

open FsStorage (EmptyRoot KeepsContents StoreKey fnv1aHex hasBlob getBlob getTask blobsDir)

variable {root : StoreRoot} {environment : Environment Files}
  {state after : ConcurrentShyguy Files} {history : History} {answer : CommandResultType}

/-- The contents of the tasks created so far, newest first. -/
def putContents : History → List Str
  | [] => []
  | entry :: rest =>
    match effect entry with
    | .createdTask task => task.blobContent.toList ++ putContents rest
    | _ => putContents rest

/-- A request with plain names to a server on reliable disks. -/
structure ServedPlainly (root : StoreRoot) (_ : History) (environment : Environment Files)
    (_ : ConcurrentShyguy Files) (request : ShyguyRequest) : Prop where
  served : ServedBy root environment
  plain : PlainRequest request

/-- The storage of the server, with a blob for each content it was given. -/
def HoldsContents (root : StoreRoot) (state : ConcurrentShyguy Files) (contents : List Str) :
    Prop :=
  ∃ files, state.storage = some files ∧ KeepsContents root files contents

theorem persistTask_holdsContents {contents : List Str} (served : ServedBy root environment)
    {task : ShyguyTask} (plain : PlainName task.associatedDag ∧ PlainName task.name)
    {metadata : Option TaskMetadata} (holds : HoldsContents root state contents)
    (result : persistTask environment state task metadata = .ok after) :
    HoldsContents root after (task.blobContent.toList ++ contents) := by
  obtain ⟨files, attached, keeps⟩ := holds
  obtain ⟨blobDisk, _, taskDisk, blobReliable, _, reliable, isStorage⟩ := served
  have upserts : environment.storage.upsertTask = FsStorage.upsertTask root taskDisk := by
    rw [isStorage]
    rfl
  have puts : environment.storage.putBlob = FsStorage.putBlob root blobDisk := by
    rw [isStorage]
    rfl
  have stores : ∀ {prepared : Files} {put : List Str}, KeepsContents root prepared put →
      (∀ content, task.blobContent = some content → content ∈ put) →
      ({ state with storage := some prepared }).persist (fun store =>
        environment.storage.upsertTask store task (task.blobContent.map fnv1aHex) none metadata) =
          .ok after → HoldsContents root after put := by
    intro prepared put preparedKeeps isPut persisted
    obtain ⟨_, ⟨stored, outcome, called, noFault, rfl⟩, rfl⟩ := persist_eq persisted
    rw [upserts] at called
    exact ⟨stored, rfl, preparedKeeps.upsertTask reliable plain isPut called noFault⟩
  have unchanged : { state with storage := some files } = state := by rw [← attached]
  cases hasContent : task.blobContent with
  | none =>
      refine stores keeps (by simp [hasContent]) ?_
      rw [unchanged, ← result, persistTask, attached, hasContent]
      cases isFilename : task.filename with
      | none => cases task.fileContent <;> rfl
      | some filename =>
          have noContent : task.fileContent = none := by
            rwa [ShyguyTask.blobContent, isFilename] at hasContent
          rw [noContent]
          rfl
  | some content =>
      obtain ⟨filename, isFilename, isContent⟩ := Option.bind_eq_some_iff.mp hasContent
      obtain ⟨prepared, outcome, called⟩ : ∃ prepared outcome,
          FsStorage.putBlob root blobDisk files content = (prepared, outcome) := ⟨_, _, rfl⟩
      obtain ⟨rfl, preparedKeeps⟩ := keeps.putBlob blobReliable called
      refine stores preparedKeeps ?_ ?_
      · intro other isOther
        cases hasContent.symm.trans isOther
        exact List.mem_cons_self
      · rw [← result, persistTask, attached, isContent, isFilename, puts]
        simp only [called, hasContent, Option.map_some]

theorem putContents_of_effect {entry : ShyguyRequest × CommandResultType}
    (did : ∀ task, effect entry ≠ .createdTask task) :
    putContents (entry :: history) = putContents history := by
  rw [putContents]
  split
  · exact absurd ‹_› (did _)
  · rfl

theorem HoldsContents.nothing {entry : ShyguyRequest × CommandResultType}
    (holds : HoldsContents root state (putContents history)) (storage : after.storage = state.storage)
    (did : ∀ task, effect entry ≠ .createdTask task) :
    HoldsContents root after (putContents (entry :: history)) := by
  rw [putContents_of_effect did, HoldsContents, storage]
  exact holds

theorem createTask_persists {text : Str} {task : ShyguyTask}
    (result : createTask environment state task = .ok (after, .ok text)) :
    ∃ before metadata, before.storage = state.storage ∧ before.schedules = state.schedules ∧
      (state.storage.isSome = true → makeTaskMetadata environment before task = .ok metadata) ∧
      persistTask environment before task metadata = .ok after := by
  unfold createTask at result
  dsimp only at result
  split at result
  · cases result
  · split at result
    · cases result
    · split at result
      · cases result
      · split at result
        · cases result
        · rename_i described
          split at result
          · cases result
          · rename_i persisted
            cases result
            refine ⟨_, _, by rfl, by rfl, ?_, persisted⟩
            intro attached
            rwa [if_pos attached] at described

theorem HoldsContents.createTask (holds : HoldsContents root state (putContents history))
    (served : ServedBy root environment) {task : ShyguyTask}
    (plain : PlainName task.associatedDag ∧ PlainName task.name)
    (result : createTask environment state task = .ok (after, answer)) :
    HoldsContents root after
      (putContents (({ data := .task task, command := .create }, answer) :: history)) := by
  cases answer with
  | error error =>
      obtain ⟨_, _, inserted, storage, _, _, rfl, failed, succeeded⟩ := createTask_cases result
      cases inserted with
      | error reason => exact holds.nothing (failed reason rfl).1 nofun
      | ok => cases (succeeded rfl).1
  | ok text =>
      obtain ⟨before, metadata, sameStorage, _, _, persisted⟩ := createTask_persists result
      have beforeHolds : HoldsContents root before (putContents history) := by
        rw [HoldsContents, sameStorage]
        exact holds
      exact persistTask_holdsContents served plain beforeHolds persisted

theorem HoldsContents.createDag (holds : HoldsContents root state (putContents history))
    (served : ServedBy root environment) {dag : ShyguyDag} (plain : PlainName dag.name)
    (result : createDag environment state dag = .ok (after, answer)) :
    HoldsContents root after
      (putContents (({ data := .dag dag, command := .create }, answer) :: history)) := by
  have did : ∀ task, effect ({ data := .dag dag, command := .create }, answer) ≠
      .createdTask task := by
    cases answer <;> exact nofun
  rcases createDag_cases result with ⟨rfl, _, _⟩ | ⟨storage, schedules, _, _, persisted, _, rfl⟩
  · exact holds.nothing rfl did
  · obtain ⟨files, attached, keeps⟩ := holds
    obtain ⟨_, dagDisk, _, _, reliable, _, isStorage⟩ := served
    rw [attached] at persisted
    obtain ⟨stored, outcome, called, noFault, rfl⟩ := persisted
    rw [isStorage] at called
    rw [putContents_of_effect did]
    exact ⟨stored, rfl, keeps.upsertDag reliable plain called noFault⟩

theorem HoldsContents.removeDag (holds : HoldsContents root state (putContents history))
    (served : ServedBy root environment) {dag : ShyguyDag} (plain : PlainName dag.name)
    (result : removeDag environment state dag = .ok (after, answer)) :
    HoldsContents root after
      (putContents (({ data := .dag dag, command := .remove }, answer) :: history)) := by
  have did : ∀ task, effect ({ data := .dag dag, command := .remove }, answer) ≠
      .createdTask task := by
    cases answer <;> exact nofun
  rcases removeDag_cases result with ⟨rfl, _, _⟩ | ⟨storage, _, _, persisted, rfl⟩
  · exact holds.nothing rfl did
  · obtain ⟨files, attached, keeps⟩ := holds
    obtain ⟨_, dagDisk, _, _, reliable, _, isStorage⟩ := served
    rw [attached] at persisted
    obtain ⟨less, outcome, called, _, rfl⟩ := persisted
    rw [isStorage] at called
    rw [putContents_of_effect did]
    exact ⟨less, rfl, keeps.eraseDag reliable plain called⟩

theorem HoldsContents.removeTask (holds : HoldsContents root state (putContents history))
    (served : ServedBy root environment) {task : ShyguyTask}
    (plain : PlainName task.associatedDag ∧ PlainName task.name)
    (result : removeTask environment state task = .ok (after, answer)) :
    HoldsContents root after
      (putContents (({ data := .task task, command := .remove }, answer) :: history)) := by
  have did : ∀ other, effect ({ data := .task task, command := .remove }, answer) ≠
      .createdTask other := by
    cases answer <;> exact nofun
  have erased : ∀ storage,
      Persisted (fun store =>
        environment.storage.eraseTask store task.associatedDag task.name none) state.storage
        storage →
      ∃ less, storage = some less ∧ KeepsContents root less (putContents history) := by
    intro storage persisted
    obtain ⟨files, attached, keeps⟩ := holds
    obtain ⟨_, _, taskDisk, _, _, reliable, isStorage⟩ := served
    rw [attached] at persisted
    obtain ⟨less, outcome, called, _, rfl⟩ := persisted
    rw [isStorage] at called
    exact ⟨less, rfl, keeps.eraseTask reliable plain called⟩
  obtain ⟨storage, _, _, persisted, rfl⟩ | ⟨_, _, _, _, _, rfl⟩ |
    ⟨_, storage, _, _, _, persisted, rfl⟩ := removeTask_cases result
  · rw [putContents_of_effect did]
    exact erased storage persisted
  · exact holds.nothing rfl did
  · rw [putContents_of_effect did]
    exact erased storage persisted

theorem HoldsContents.process {request : ShyguyRequest}
    (holds : HoldsContents root state (putContents history))
    (admitted : ServedPlainly root history environment state request)
    (result : process environment state request = .ok (after, answer)) :
    HoldsContents root after (putContents ((request, answer) :: history)) := by
  obtain ⟨served, plain⟩ := admitted
  obtain ⟨data, command⟩ := request
  cases data with
  | monostate =>
      cases result
      exact holds.nothing rfl nofun
  | dag dag =>
      cases command with
      | create => exact holds.createDag served plain result
      | remove => exact holds.removeDag served plain result
      | execute =>
          obtain ⟨_, _, rfl⟩ := executeAt_eq result
          exact holds.nothing rfl nofun
      | _ =>
          cases result
          exact holds.nothing rfl nofun
  | task task =>
      cases command with
      | create => exact holds.createTask served plain result
      | remove => exact holds.removeTask served plain result
      | execute =>
          obtain rfl := executeTask_eq result
          exact holds.nothing rfl nofun
      | _ =>
          cases result
          exact holds.nothing rfl nofun

theorem Run.holdsContents {disk : DiskBehavior} (reliable : disk.Reliable) {files : Files}
    (empty : EmptyRoot root files)
    (run : Run (some (FsStorage.construct root disk files)) (ServedPlainly root) state history) :
    HoldsContents root state (putContents history) := by
  induction run with
  | start => exact ⟨_, rfl, FsStorage.keepsContents_construct reliable empty⟩
  | handle _ _ _ admitted result ih => exact ih.process admitted result

/-- What the readers of a store see of its blobs. -/
structure ResolvesBlobs (root : StoreRoot) (disk : DiskBehavior) (print : Json → Str)
    (files : Files) (contents : List Str) : Prop where
  entries : ∀ dag name entry, PlainName dag → PlainName name →
    getTask root disk files dag name = .value entry →
    entry.blobId = entry.value.blobContent.map fnv1aHex ∧
      ∀ id, entry.blobId = some id → hasBlob root disk files id = .value true ∧
        ∃ held ∈ contents, fnv1aHex held = id ∧ getBlob root disk print files id = .value held
  kept : ∀ content ∈ contents, hasBlob root disk files (fnv1aHex content) = .value true
  only : ∀ child node, files.node (child :: (blobsDir root).resolve) = some node →
    ∃ held ∈ contents, child = fnv1aHex held ++ ascii ".bin" ∧ node = .file (.bytes held)

theorem resolvesBlobs {disk : DiskBehavior} (reliable : disk.Reliable) (print : Json → Str)
    {files : Files} {contents : List Str} (keeps : KeepsContents root files contents) :
    ResolvesBlobs root disk print files contents where
  entries dag name entry dagPlain namePlain read := by
    obtain ⟨documents, stored, names⟩ := keeps.tasks
    have plainKey : StoreKey.Plain (.task dag name) := ⟨dagPlain, namePlain⟩
    have isTarget : (FsStorage.taskFile root dag name).resolve =
        StoreKey.location root (.task dag name) := StoreKey.resolve_file plainKey
    rw [getTask, isTarget, stored.readJson reliable] at read
    cases held : documents (.task dag name) with
    | none =>
        rw [held] at read
        cases read
    | some document =>
        obtain ⟨known, decoded, named⟩ := names dag name document held
        simp only [held, decoded] at read
        cases read
        refine ⟨named.blobId, ?_⟩
        intro id isId
        rw [named.blobId] at isId
        obtain ⟨content, hasContent, rfl⟩ := Option.map_eq_some_iff.mp isId
        have put := named.put content hasContent
        exact ⟨keeps.blobs.hasBlob reliable put, keeps.blobs.getBlob reliable print put⟩
  kept content put := keeps.blobs.hasBlob reliable put
  only child node present := by
    obtain ⟨held, put, located, isFile⟩ := keeps.blobs.only child node present
    rw [FsStorage.blobLocation_eq] at located
    exact ⟨held, put, (List.cons.inj located).1, isFile⟩

/-- In every run each stored task names the blob of its content, that blob is
there, and no blob of the run is ever lost or made up. -/
theorem run_resolves_blobs {disk reader : DiskBehavior} (reliable : disk.Reliable) {files : Files}
    (empty : EmptyRoot root files)
    (run : Run (some (FsStorage.construct root disk files)) (ServedPlainly root) state history)
    (readerReliable : reader.Reliable) (print : Json → Str) :
    ∃ held, state.storage = some held ∧
      ResolvesBlobs root reader print held (putContents history) := by
  obtain ⟨held, attached, keeps⟩ := run.holdsContents reliable empty
  exact ⟨held, attached, resolvesBlobs readerReliable print keeps⟩

def scriptRequest : ShyguyRequest where
  data := .task { FsStorage.bareTask (ascii "etl") (ascii "extract") with
    filename := some (ascii "extract.sh")
    fileContent := some (ascii "true") }
  command := .create

/-- A DAG with one task that has a file. -/
theorem run_resolves_blobs_etl :
    ∃ state history held, Run (some FsStorage.freshFiles) (ServedPlainly FsStorage.dataRoot) state
        history ∧
      putContents history = [ascii "true"] ∧ state.storage = some held ∧
      ResolvesBlobs FsStorage.dataRoot .reliable (fun _ => []) held [ascii "true"] := by
  have plain : PlainRequest scriptRequest := by
    constructor <;> constructor <;> decide
  have run : ∃ state history, Run (some FsStorage.freshFiles) (ServedPlainly FsStorage.dataRoot)
      state history ∧ putContents history = [ascii "true"] := by
    exact ⟨_, _, .handle fileEnvironment scriptRequest
      (.handle fileEnvironment (etlRequest .create) .start
        ⟨servedBy_fileEnvironment, plainRequest_etl _⟩ rfl)
      ⟨servedBy_fileEnvironment, plain⟩ rfl, rfl⟩
  obtain ⟨state, history, run, put⟩ := run
  obtain ⟨held, attached, resolves⟩ := run_resolves_blobs DiskBehavior.reliable_reliable
    (FsStorage.emptyRoot_empty _) run DiskBehavior.reliable_reliable fun _ => []
  exact ⟨state, history, held, run, put, attached, put ▸ resolves⟩

end ConcurrentShyguy

end BabyLuigi
