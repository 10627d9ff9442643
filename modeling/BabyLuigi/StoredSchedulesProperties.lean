import BabyLuigi.ScheduleHistoryProperties
import BabyLuigi.Storage.MetadataRoundTripProperties
import BabyLuigi.StoredContentsProperties

/-! The metadata of the stored tasks: each describes the schedule that its DAG
has in memory, and no run was ever noted in it. -/

set_option autoImplicit false

namespace BabyLuigi

theorem classifySchedule_named (cron : Str) : (classifySchedule cron).Named := by
  unfold classifySchedule
  split
  · exact ⟨nofun, nofun⟩
  · split
    · exact ⟨nofun, nofun⟩
    · repeat' split
      all_goals exact ⟨nofun, nofun⟩

/-- The metadata of a task whose DAG has the schedule. -/
def describeSchedule : Option Str → Option TaskMetadata
  | none => none
  | some cron =>
    if cron.isEmpty then none
    else some {
      schedule := { cronExpression := cron, frequency := classifySchedule cron }
      statuses := { previous := .none, current := .none } }

theorem describeSchedule_of_unscheduled {dag : ShyguyDag} (unscheduled : hasSchedule dag = false) :
    describeSchedule dag.schedule = none := by
  cases given : dag.schedule with
  | none => rfl
  | some cron =>
      have empty : cron.isEmpty = true := by
        simpa [hasSchedule, existsValue, given] using unscheduled
      rw [describeSchedule, if_pos empty]

/-- A description is read as it was written. -/
theorem metadataFromJson_describeSchedule (schedule : Option Str) :
    ((describeSchedule schedule).map Json.metadataToJson).elim (.ok none) Json.metadataFromJson =
      .ok (describeSchedule schedule) := by
  cases described : describeSchedule schedule with
  | none => rfl
  | some metadata =>
      have named : metadata.schedule.frequency.Named := by
        unfold describeSchedule at described
        split at described
        · cases described
        · split at described
          · cases described
          · cases described
            exact classifySchedule_named _
      rw [Option.map_some, Option.elim_some, FsStorage.metadataFromJson_eq_reread,
        FsStorage.rereadMetadata_eq_iff.mpr named]

namespace ConcurrentShyguy

open FsStorage (EmptyRoot StoreKey StoresDocuments decodeDag decodeTask)

variable {root : StoreRoot} {environment : Environment Files}
  {state after : ConcurrentShyguy Files} {history : History} {answer : CommandResultType}
  {files : Files} {documents : StoreKey → Option Json}

/-- A stored DAG is in memory, with its schedule if it has one, and a stored
task describes the schedule of its DAG. -/
structure DescribesSchedules (state : ConcurrentShyguy Files) (history : History)
    (documents : StoreKey → Option Json) : Prop where
  dags : ∀ name document, documents (.dag name) = some document →
    PlainName name ∧ name ∈ state.dags ∧ ∃ entry, decodeDag document = .ok entry ∧
      entry.value.name = name ∧ (hasSchedule entry.value = true → name ∈ state.schedules)
  tasks : ∀ dag name document, documents (.task dag name) = some document →
    Unremoved dag name history ∧ ∃ entry, decodeTask document = .ok entry ∧
      entry.value.name = name ∧ entry.metadata = describeSchedule (state.schedules.lookup dag)

def HoldsSchedules (root : StoreRoot) (state : ConcurrentShyguy Files) (history : History) : Prop :=
  ∃ files documents, state.storage = some files ∧ StoresDocuments root files documents ∧
    DescribesSchedules state history documents

/-- A request that leaves the schedules and the stored documents. -/
theorem DescribesSchedules.same {request : ShyguyRequest}
    (describes : DescribesSchedules state history documents)
    (dags : ∀ name, name ∈ state.dags → name ∈ after.dags)
    (schedules : after.schedules = state.schedules)
    (unremoved : ∀ dag name, Unremoved dag name history →
      Unremoved dag name ((request, answer) :: history)) :
    DescribesSchedules after ((request, answer) :: history) documents where
  dags name document held := by
    obtain ⟨plain, present, entry, decoded, named, scheduled⟩ := describes.dags name document held
    exact ⟨plain, dags name present, entry, decoded, named, schedules ▸ scheduled⟩
  tasks dag name document held := by
    obtain ⟨created, entry, decoded, named, described⟩ := describes.tasks dag name document held
    exact ⟨unremoved dag name created, entry, decoded, named, schedules ▸ described⟩

theorem HoldsSchedules.same {request : ShyguyRequest} (holds : HoldsSchedules root state history)
    (storage : after.storage = state.storage) (dags : ∀ name, name ∈ state.dags → name ∈ after.dags)
    (schedules : after.schedules = state.schedules)
    (unremoved : ∀ dag name, Unremoved dag name history →
      Unremoved dag name ((request, answer) :: history)) :
    HoldsSchedules root after ((request, answer) :: history) := by
  obtain ⟨files, documents, attached, stored, describes⟩ := holds
  exact ⟨files, documents, storage.trans attached, stored,
    describes.same dags schedules unremoved⟩

/-- A request that changes the document of one DAG without stored tasks. -/
theorem DescribesSchedules.changeDag {request : ShyguyRequest}
    (describes : DescribesSchedules state history documents) {dag : Str} {changed : Option Json}
    (dags : ∀ name, name ≠ dag → name ∈ state.dags → name ∈ after.dags)
    (schedules : ∀ name, name ≠ dag → after.schedules.lookup name = state.schedules.lookup name)
    (emptied : ∀ name, ¬ Unremoved dag name history)
    (unremoved : ∀ dag name, Unremoved dag name history →
      Unremoved dag name ((request, answer) :: history))
    (described : ∀ document, changed = some document →
      PlainName dag ∧ dag ∈ after.dags ∧ ∃ entry, decodeDag document = .ok entry ∧
        entry.value.name = dag ∧ (hasSchedule entry.value = true → dag ∈ after.schedules)) :
    DescribesSchedules after ((request, answer) :: history)
      (Function.update documents (.dag dag) changed) where
  dags name document held := by
    by_cases same : name = dag
    · subst same
      rw [Function.update_self] at held
      exact described document held
    · rw [Function.update_of_ne (by simpa using same)] at held
      obtain ⟨plain, present, entry, decoded, named, scheduled⟩ := describes.dags name document held
      refine ⟨plain, dags name same present, entry, decoded, named, ?_⟩
      rwa [← AList.lookup_isSome, schedules name same, AList.lookup_isSome]
  tasks dagName name document held := by
    rw [Function.update_of_ne (by simp)] at held
    obtain ⟨created, entry, decoded, named, metadata⟩ := describes.tasks dagName name document held
    have different : dagName ≠ dag := by
      rintro rfl
      exact emptied name created
    exact ⟨unremoved _ _ created, entry, decoded, named, (schedules _ different).symm ▸ metadata⟩

/-- A request that changes the document of one task. -/
theorem DescribesSchedules.changeTask {request : ShyguyRequest}
    (describes : DescribesSchedules state history documents) {dag name : Str}
    {changed : Option Json} (dags : ∀ name, name ∈ state.dags → name ∈ after.dags)
    (schedules : after.schedules = state.schedules)
    (unremoved : ∀ dagName taskName, ¬ (dagName = dag ∧ taskName = name) →
      Unremoved dagName taskName history →
      Unremoved dagName taskName ((request, answer) :: history))
    (described : ∀ document, changed = some document →
      Unremoved dag name ((request, answer) :: history) ∧
        ∃ entry, decodeTask document = .ok entry ∧ entry.value.name = name ∧
          entry.metadata = describeSchedule (state.schedules.lookup dag)) :
    DescribesSchedules after ((request, answer) :: history)
      (Function.update documents (.task dag name) changed) where
  dags dagName document held := by
    rw [Function.update_of_ne (by simp)] at held
    obtain ⟨plain, present, known⟩ := describes.dags dagName document held
    exact ⟨plain, dags dagName present, schedules ▸ known⟩
  tasks dagName taskName document held := by
    rw [schedules]
    by_cases same : StoreKey.task dagName taskName = .task dag name
    · cases same
      rw [Function.update_self] at held
      exact described document held
    · rw [Function.update_of_ne same] at held
      obtain ⟨created, known⟩ := describes.tasks dagName taskName document held
      exact ⟨unremoved _ _ (by simpa using same) created, known⟩

/-! ### DAGs -/

/-- What a creation does to the schedules. -/
theorem lookup_createdSchedules {dag : ShyguyDag} {schedules : UnorderedMap Str Str}
    (chosen : schedules = (match dag.schedule with
      | some schedule =>
        if hasSchedule dag then (UnorderedMap.emplace dag.name schedule state.schedules).1
        else state.schedules
      | none => state.schedules)) {name : Str} (different : name ≠ dag.name) :
    schedules.lookup name = state.schedules.lookup name := by
  rw [chosen]
  split
  · split
    · by_cases present : dag.name ∈ state.schedules
      · rw [UnorderedMap.emplace_of_mem present]
      · rw [UnorderedMap.emplace_of_notMem present]
        exact AList.lookup_insert_ne different
    · rfl
  · rfl

theorem mem_createdSchedules {dag : ShyguyDag} {schedules : UnorderedMap Str Str}
    (chosen : schedules = (match dag.schedule with
      | some schedule =>
        if hasSchedule dag then (UnorderedMap.emplace dag.name schedule state.schedules).1
        else state.schedules
      | none => state.schedules)) (scheduled : hasSchedule dag = true) :
    dag.name ∈ schedules := by
  obtain ⟨schedule, given, _⟩ := hasSchedule_iff.mp scheduled
  rw [chosen, given]
  simp only [scheduled, if_true]
  by_cases present : dag.name ∈ state.schedules
  · rw [UnorderedMap.emplace_of_mem present]
    exact present
  · rw [UnorderedMap.emplace_of_notMem present]
    exact (AList.mem_insert _).mpr (.inl rfl)

theorem HoldsSchedules.createDag (holds : HoldsSchedules root state history)
    (agrees : Agrees root state history) (served : ServedBy root environment) {dag : ShyguyDag}
    (plain : PlainName dag.name) (result : createDag environment state dag = .ok (after, answer)) :
    HoldsSchedules root after (({ data := .dag dag, command := .create }, answer) :: history) := by
  rcases createDag_cases result with
      ⟨rfl, rfl, _⟩ | ⟨storage, schedules, _, absent, persisted, chosen, rfl⟩
  · exact holds.same rfl (fun _ => id) rfl fun _ _ => (unremoved_dag _ _).mpr
  · obtain ⟨files, documents, attached, stored, describes⟩ := holds
    obtain ⟨_, dagDisk, _, _, reliable, _, isStorage⟩ := served
    rw [attached] at persisted
    obtain ⟨written, outcome, called, noFault, rfl⟩ := persisted
    rw [isStorage] at called
    have plainKey : StoreKey.Plain (.dag dag.name) := plain
    obtain ⟨version, writes⟩ := stored.upsertAt_returned reliable plainKey called noFault
    refine ⟨written, _, rfl, writes, describes.changeDag ?_ ?_ ?_ ?_ ?_⟩
    · exact fun name _ present => (AList.mem_insert _).mpr (.inr present)
    · exact fun name different => lookup_createdSchedules chosen different
    · -- a DAG with a stored task was in memory already
      intro name created
      obtain ⟨graph, found, _⟩ := agrees.held _ _ created
      exact absent (AList.lookup_isSome.mp (by rw [found]; rfl))
    · exact fun _ _ => (unremoved_dag _ _).mpr
    · intro document isDocument
      cases isDocument
      obtain ⟨entry, decoded, isDag⟩ := FsStorage.decodeDag_dagDocument version dag
      refine ⟨plain, (AList.mem_insert _).mpr (.inl rfl), entry, decoded, by rw [isDag], ?_⟩
      rw [isDag]
      exact mem_createdSchedules chosen

theorem HoldsSchedules.removeDag (holds : HoldsSchedules root state history)
    (served : ServedBy root environment) {dag : ShyguyDag} (plain : PlainName dag.name)
    (emptied : dag.name ∈ state.dags → ∀ name, ¬ Unremoved dag.name name history)
    (result : removeDag environment state dag = .ok (after, answer)) :
    HoldsSchedules root after (({ data := .dag dag, command := .remove }, answer) :: history) := by
  rcases removeDag_cases result with ⟨rfl, rfl, _⟩ | ⟨storage, _, present, persisted, rfl⟩
  · exact holds.same rfl (fun _ => id) rfl fun _ _ => (unremoved_dag _ _).mpr
  · obtain ⟨files, documents, attached, stored, describes⟩ := holds
    obtain ⟨_, dagDisk, _, _, reliable, _, isStorage⟩ := served
    rw [attached] at persisted
    obtain ⟨less, outcome, called, _, rfl⟩ := persisted
    rw [isStorage] at called
    refine ⟨less, _, rfl, stored.eraseDag_returned reliable plain called,
      describes.changeDag ?_ ?_ (emptied present) (fun _ _ => (unremoved_dag _ _).mpr) nofun⟩
    · exact fun name different member => AList.mem_erase.mpr ⟨different, member⟩
    · intro name different
      dsimp only
      split
      · exact AList.lookup_erase_ne different
      · rfl

/-! ### Tasks -/

/-- Without a schedule in memory the stored DAG has none either. -/
theorem makeTaskMetadata_eq (served : ServedBy root environment)
    (stored : StoresDocuments root files documents)
    (describes : DescribesSchedules state history documents) {before : ConcurrentShyguy Files}
    (storage : before.storage = some files) (schedules : before.schedules = state.schedules)
    {task : ShyguyTask} (plain : PlainName task.associatedDag) {metadata : Option TaskMetadata}
    (result : makeTaskMetadata environment before task = .ok metadata) :
    metadata = describeSchedule (state.schedules.lookup task.associatedDag) := by
  obtain ⟨_, dagDisk, _, _, reliable, _, isStorage⟩ := served
  have plainKey : StoreKey.Plain (.dag task.associatedDag) := plain
  have isTarget : (FsStorage.dagFile root task.associatedDag).resolve =
      StoreKey.location root (.dag task.associatedDag) := StoreKey.resolve_file plainKey
  rw [makeTaskMetadata, schedules, storage, isStorage] at result
  cases scheduled : state.schedules.lookup task.associatedDag with
  | some cron =>
      rw [scheduled] at result
      exact (Except.ok.inj result).symm
  | none =>
      rw [scheduled] at result
      dsimp only [FsStorage.storage] at result
      rw [FsStorage.getDag, isTarget, stored.readJson reliable] at result
      cases held : documents (.dag task.associatedDag) with
      | none =>
          rw [held] at result
          exact (Except.ok.inj result).symm
      | some document =>
          obtain ⟨_, _, entry, decoded, _, known⟩ := describes.dags _ _ held
          simp only [held, decoded] at result
          have unscheduled : hasSchedule entry.value = false := by
            rw [Bool.eq_false_iff]
            intro carries
            exact absurd (known carries) (AList.lookup_eq_none.mp scheduled)
          rw [← Except.ok.inj result]
          exact describeSchedule_of_unscheduled unscheduled

/-- The description given to a new task is read back. -/
theorem StoresDocuments.persisted (served : ServedBy root environment)
    (stored : StoresDocuments root files documents) {task : ShyguyTask}
    (plain : PlainName task.associatedDag ∧ PlainName task.name)
    (fresh : documents (.task task.associatedDag task.name) = none) {schedule : Option Str}
    {storage : Option Files}
    (persisted : TaskPersisted environment task (describeSchedule schedule) (some files) storage) :
    ∃ written document, storage = some written ∧
      StoresDocuments root written
        (Function.update documents (.task task.associatedDag task.name) (some document)) ∧
      ∃ entry, decodeTask document = .ok entry ∧ entry.value.name = task.name ∧
        entry.metadata = describeSchedule schedule := by
  obtain ⟨_, _, taskDisk, _, _, reliable, isStorage⟩ := served
  obtain ⟨prepared, blobId, preparation, persisted⟩ := persisted
  rw [isStorage] at preparation persisted
  have prepares : ∃ blobs, prepared = some blobs ∧ StoresDocuments root blobs documents := by
    rcases preparation with rfl | ⟨store, content, blobs, outcome, same, called, rfl⟩
    · exact ⟨files, rfl, stored⟩
    · cases same
      exact ⟨blobs, rfl, stored.putBlob called⟩
  obtain ⟨blobs, rfl, blobsStored⟩ := prepares
  obtain ⟨written, outcome, called, noFault, rfl⟩ := persisted
  have plainKey : StoreKey.Plain (.task task.associatedDag task.name) := plain
  obtain ⟨version, writes⟩ := blobsStored.upsertAt_returned reliable plainKey called noFault
  rw [fresh] at writes
  have chosen : FsStorage.chosenMetadata (describeSchedule schedule) none =
      (describeSchedule schedule).map Json.metadataToJson := by
    cases describeSchedule schedule <;> rfl
  refine ⟨written, _, rfl, writes, _, FsStorage.decodeTask_of_metadata version task blobId ?_,
    rfl, rfl⟩
  rw [chosen]
  exact metadataFromJson_describeSchedule _

theorem HoldsSchedules.createTask (holds : HoldsSchedules root state history)
    (agrees : Agrees root state history) (served : ServedBy root environment) {task : ShyguyTask}
    (plain : PlainName task.associatedDag ∧ PlainName task.name)
    (result : createTask environment state task = .ok (after, answer)) :
    HoldsSchedules root after
      (({ data := .task task, command := .create }, answer) :: history) := by
  obtain ⟨graph, extended, inserted, storage, found, pushed, isAfter, failed, succeeded⟩ :=
    createTask_cases result
  have dagsKept : ∀ name, name ∈ state.dags → name ∈ after.dags := by
    intro name member
    rw [isAfter]
    exact (UnorderedMap.mem_insert_of_lookup found extended name).mpr member
  have schedules : after.schedules = state.schedules := by rw [isAfter]
  cases answer with
  | error error =>
      refine holds.same ?_ dagsKept schedules fun _ _ => (unremoved_failed _ _).mpr
      cases inserted with
      | error reason => rw [isAfter, (failed reason rfl).1]
      | ok => cases (succeeded rfl).1
  | ok text =>
      obtain ⟨before, metadata, sameStorage, sameSchedules, described, persisted⟩ :=
        createTask_persists result
      obtain ⟨files, documents, attached, stored, describes⟩ := holds
      have isDescription := makeTaskMetadata_eq served stored describes
        (sameStorage.trans attached) sameSchedules plain.1 (described (by rw [attached]; rfl))
      subst isDescription
      obtain ⟨kept, persisted, isKept⟩ := persistTask_eq persisted
      rw [sameStorage, attached] at persisted
      have fresh : documents (.task task.associatedDag task.name) = none := by
        cases held : documents (.task task.associatedDag task.name) with
        | none => rfl
        | some document =>
            obtain ⟨unremoved, _⟩ := describes.tasks _ _ _ held
            obtain ⟨other, otherFound, contained⟩ := agrees.held _ _ unremoved
            cases otherFound.symm.trans found
            rcases DirectedAcyclicGraph.pushTask_cases pushed with
                ⟨_, _, isError⟩ | ⟨_, _, isError, _⟩ | ⟨absent, _, _, _⟩
            · cases (failed _ isError).2
            · cases (failed _ isError).2
            · exact absurd contained absent
      obtain ⟨written, document, rfl, writes, entry, decoded, named, metadata⟩ :=
        StoresDocuments.persisted served stored plain fresh persisted
      refine ⟨written, _, by rw [isKept], writes, describes.changeTask dagsKept schedules ?_ ?_⟩
      · exact fun _ _ _ unremoved => (unremoved_created _ _).mpr (.inl unremoved)
      · intro other isDocument
        cases isDocument
        exact ⟨(unremoved_created _ _).mpr (.inr ⟨rfl, rfl⟩), entry, decoded, named, metadata⟩

theorem HoldsSchedules.removeTask (holds : HoldsSchedules root state history)
    (served : ServedBy root environment) {task : ShyguyTask}
    (plain : PlainName task.associatedDag ∧ PlainName task.name)
    (result : removeTask environment state task = .ok (after, answer)) :
    HoldsSchedules root after
      (({ data := .task task, command := .remove }, answer) :: history) := by
  have erased : ∀ {storage : Option Files} {text : Str},
      Persisted (fun store =>
        environment.storage.eraseTask store task.associatedDag task.name none) state.storage
        storage →
      after.storage = storage → (∀ name, name ∈ state.dags → name ∈ after.dags) →
      after.schedules = state.schedules →
      HoldsSchedules root after
        (({ data := .task task, command := .remove }, .ok text) :: history) := by
    intro storage text persisted isStored dags schedules
    obtain ⟨files, documents, attached, stored, describes⟩ := holds
    obtain ⟨_, _, taskDisk, _, _, reliable, isStorage⟩ := served
    rw [attached] at persisted
    obtain ⟨less, outcome, called, _, rfl⟩ := persisted
    rw [isStorage] at called
    have plainKey : StoreKey.Plain (.task task.associatedDag task.name) := plain
    refine ⟨less, _, isStored, stored.eraseTask_returned reliable plainKey called,
      describes.changeTask dags schedules ?_ nofun⟩
    exact fun _ _ different unremoved => (unremoved_removed _ _).mpr ⟨unremoved, different⟩
  obtain ⟨storage, _, rfl, persisted, rfl⟩ | ⟨_, error, _, _, rfl, rfl⟩ |
    ⟨graph, storage, found, _, rfl, persisted, rfl⟩ := removeTask_cases result
  · exact erased persisted rfl (fun _ => id) rfl
  · exact holds.same rfl (fun _ => id) rfl fun _ _ => (unremoved_failed _ _).mpr
  · exact erased persisted rfl
      (fun name => (UnorderedMap.mem_insert_of_lookup found _ name).mpr) rfl

/-! ### Runs -/

theorem HoldsSchedules.process {request : ShyguyRequest} (holds : HoldsSchedules root state history)
    (agrees : Agrees root state history)
    (admitted : RemovesEmptied root history environment state request)
    (result : process environment state request = .ok (after, answer)) :
    HoldsSchedules root after ((request, answer) :: history) := by
  obtain ⟨served, plain, emptied⟩ := admitted
  obtain ⟨data, command⟩ := request
  cases data with
  | monostate =>
      cases result
      exact holds.same rfl (fun _ => id) rfl fun _ _ => (unremoved_failed _ _).mpr
  | dag dag =>
      cases command with
      | create => exact holds.createDag agrees served plain result
      | remove => exact holds.removeDag served plain (emptied dag ⟨rfl, rfl⟩) result
      | execute =>
          obtain ⟨_, _, rfl⟩ := executeAt_eq result
          exact holds.same rfl (fun _ => id) rfl fun _ _ => (unremoved_dag _ _).mpr
      | _ =>
          cases result
          exact holds.same rfl (fun _ => id) rfl fun _ _ => (unremoved_dag _ _).mpr
  | task task =>
      cases command with
      | create => exact holds.createTask agrees served plain result
      | remove => exact holds.removeTask served plain result
      | execute =>
          obtain rfl := executeTask_eq result
          exact holds.same rfl (fun _ => id) rfl fun _ _ => id
      | _ =>
          cases result
          exact holds.same rfl (fun _ => id) rfl fun _ _ => (unremoved_failed _ _).mpr

theorem Run.holdsSchedules {disk : DiskBehavior} (reliable : disk.Reliable)
    (empty : EmptyRoot root files)
    (run : Run (some (FsStorage.construct root disk files)) (RemovesEmptied root) state history) :
    HoldsSchedules root state history := by
  induction run with
  | start =>
      refine ⟨_, _, rfl, FsStorage.storesDocuments_construct reliable empty, ?_, ?_⟩
      · intro name document held
        cases held
      · intro dag name document held
        cases held
  | handle _ _ earlier admitted result ih =>
      exact ih.process (earlier.agrees reliable empty) admitted result

/-- What the two stores list. -/
structure ListsDescribed (root : StoreRoot) (state : ConcurrentShyguy Files) (history : History)
    (dagReader taskReader : DiskBehavior) (files : Files) : Prop where
  dags : ∃ entries, FsStorage.listDags root dagReader files = .value entries ∧
    (entries.map fun entry => entry.value.name).Nodup ∧
    ∀ name, name ∈ entries.map (fun entry => entry.value.name) ↔ name ∈ state.dags
  tasks : ∀ dag, dag ∈ state.dags → ∃ entries,
    FsStorage.listTasks root taskReader files dag = .value entries ∧
    (entries.map fun entry => entry.value.name).Nodup ∧
    (∀ name, name ∈ entries.map (fun entry => entry.value.name) ↔
      Holds state dag name ∧ Unremoved dag name history) ∧
    ∀ entry ∈ entries, entry.metadata = describeSchedule (state.schedules.lookup dag)

theorem listsDescribed (agrees : Agrees root state history)
    (holds : HoldsSchedules root state history) {dagReader taskReader : DiskBehavior}
    (dagReliable : dagReader.Reliable) (taskReliable : taskReader.Reliable) :
    ∃ files, state.storage = some files ∧
      ListsDescribed root state history dagReader taskReader files := by
  obtain ⟨files, documents, attached, stored, describes⟩ := holds
  obtain ⟨known, same, storesDags, storesTasks⟩ := agrees.stored
  cases attached.symm.trans same
  have decodes : ∀ name document, documents (.dag name) = some document →
      ∃ entry, decodeDag document = .ok entry ∧ entry.value.name = name := by
    intro name document held
    obtain ⟨_, _, entry, decoded, named, _⟩ := describes.dags name document held
    exact ⟨entry, decoded, named⟩
  have plain : ∀ name, name ∈ state.dags → PlainName name := by
    intro name member
    obtain ⟨document, entry, node, _⟩ := storesDags.document name member
    obtain ⟨other, _, held, same⟩ := stored.only (.dag name) _ _ node
    obtain rfl : other = .dag name := StoreKey.location_injective same
    exact (describes.dags name _ held).1
  refine ⟨files, attached, ?_, ?_⟩
  · obtain ⟨entries, listed, lists⟩ := stored.listDags dagReliable decodes
    obtain ⟨_, again, members⟩ := storesDags.listDags dagReliable
    cases listed.symm.trans again
    exact ⟨entries, listed, FsStorage.nodup_names lists decodes, members⟩
  · intro dag member
    have decodable : ∀ name document, documents (.task dag name) = some document →
        ∃ entry, decodeTask document = .ok entry ∧ entry.value.name = name := by
      intro name document held
      obtain ⟨_, entry, decoded, named, _⟩ := describes.tasks dag name document held
      exact ⟨entry, decoded, named⟩
    obtain ⟨entries, listed, lists⟩ := stored.listTasks taskReliable (plain dag member) decodable
    obtain ⟨_, again, members⟩ := storesTasks.listTasks taskReliable (plain dag member)
    cases listed.symm.trans again
    refine ⟨entries, listed, FsStorage.nodup_names lists decodable, ?_, ?_⟩
    · intro name
      refine (members name).trans ?_
      exact ⟨fun unremoved => ⟨agrees.held dag name unremoved, unremoved⟩, And.right⟩
    · intro entry isEntry
      obtain ⟨name, found⟩ := (lists.exact entry).mp isEntry
      obtain ⟨document, held, decoded⟩ := Option.bind_eq_some_iff.mp found
      obtain ⟨_, known, knownDecoded, _, described⟩ := describes.tasks dag name document held
      cases (toOption_eq_some.mp decoded).symm.trans knownDecoded
      exact described

end ConcurrentShyguy

end BabyLuigi
