import BabyLuigi.ConcurrentShyguyProperties
import BabyLuigi.Storage.StoredNamesProperties

/-! The stores list what is in memory: the DAGs always, the tasks as long as a
DAG is removed only after its tasks. -/

set_option autoImplicit false

namespace BabyLuigi.ConcurrentShyguy

open FsStorage (StoresDags StoresTasks EmptyRoot)

/-- The task was created in the DAG and has not been removed since. -/
def Unremoved (dag name : Str) : History → Prop
  | [] => False
  | ({ data := .task task, command := .create }, .ok _) :: rest =>
    task.associatedDag = dag ∧ task.name = name ∨ Unremoved dag name rest
  | ({ data := .task task, command := .remove }, .ok _) :: rest =>
    ¬ (task.associatedDag = dag ∧ task.name = name) ∧ Unremoved dag name rest
  | _ :: rest => Unremoved dag name rest

def Holds {Store : Type} (state : ConcurrentShyguy Store) (dag name : Str) : Prop :=
  ∃ graph, state.dags.lookup dag = some graph ∧ graph.contains name = true

def ServedBy (root : StoreRoot) (environment : Environment Files) : Prop :=
  ∃ blobDisk dagDisk taskDisk : DiskBehavior,
    blobDisk.Reliable ∧ dagDisk.Reliable ∧ taskDisk.Reliable ∧
    environment.storage = FsStorage.storage root blobDisk dagDisk taskDisk

/-- The names in the request are path components of their own. -/
def PlainRequest (request : ShyguyRequest) : Prop :=
  match request.data with
  | .monostate => True
  | .dag dag => PlainName dag.name
  | .task task => PlainName task.associatedDag ∧ PlainName task.name

/-- A DAG in memory is removed only once its tasks have been. -/
structure RemovesEmptied (root : StoreRoot) (history : History) (environment : Environment Files)
    (state : ConcurrentShyguy Files) (request : ShyguyRequest) : Prop where
  served : ServedBy root environment
  plain : PlainRequest request
  emptied : ∀ dag, Asks .remove dag request → dag.name ∈ state.dags →
    ∀ name, ¬ Unremoved dag.name name history

/-- The stores hold the DAGs in memory and the tasks that were not removed, and
these are in memory too. -/
structure Agrees (root : StoreRoot) (state : ConcurrentShyguy Files) (history : History) : Prop where
  stored : ∃ files, state.storage = some files ∧
    StoresDags root files (fun name => name ∈ state.dags) ∧
    StoresTasks root files fun dag name => Unremoved dag name history
  held : ∀ dag name, Unremoved dag name history → Holds state dag name

variable {root : StoreRoot} {environment : Environment Files}
  {state after : ConcurrentShyguy Files} {history : History} {answer : CommandResultType}

theorem unremoved_failed {request : ShyguyRequest} {error : CommandError} (dag name : Str) :
    Unremoved dag name ((request, .error error) :: history) ↔ Unremoved dag name history := by
  obtain ⟨data, command⟩ := request
  cases data <;> cases command <;> rfl

theorem unremoved_dag {dag : ShyguyDag} {command : CommandEnum} (dagName name : Str) :
    Unremoved dagName name (({ data := .dag dag, command := command }, answer) :: history) ↔
      Unremoved dagName name history := by
  cases command <;> cases answer <;> rfl

theorem Agrees.same {request : ShyguyRequest} (agrees : Agrees root state history)
    (storage : after.storage = state.storage) (dags : after.dags = state.dags)
    (ignored : ∀ dag name,
      Unremoved dag name ((request, answer) :: history) ↔ Unremoved dag name history) :
    Agrees root after ((request, answer) :: history) := by
  obtain ⟨files, attached, storesDags, storesTasks⟩ := agrees.stored
  refine ⟨⟨files, storage.trans attached, dags ▸ storesDags, storesTasks.congr fun dag name =>
      (ignored dag name).symm⟩, ?_⟩
  intro dag name unremoved
  obtain ⟨graph, found, contained⟩ := agrees.held dag name ((ignored dag name).mp unremoved)
  exact ⟨graph, dags ▸ found, contained⟩

theorem Agrees.createDag (served : ServedBy root environment) (agrees : Agrees root state history)
    {dag : ShyguyDag} (plain : PlainName dag.name)
    (result : createDag environment state dag = .ok (after, answer)) :
    Agrees root after (({ data := .dag dag, command := .create }, answer) :: history) := by
  rcases createDag_cases result with
      ⟨rfl, rfl, _⟩ | ⟨storage, schedules, _, absent, persisted, _, rfl⟩
  · exact agrees.same rfl rfl (unremoved_dag · ·)
  · obtain ⟨files, attached, storesDags, storesTasks⟩ := agrees.stored
    obtain ⟨_, dagDisk, _, _, reliable, _, isStorage⟩ := served
    rw [attached] at persisted
    obtain ⟨stored, outcome, called, noFault, rfl⟩ := persisted
    rw [isStorage] at called
    obtain ⟨storesAfter, aside⟩ := storesDags.upsertDag reliable plain absent called noFault
    refine ⟨⟨stored, rfl, storesAfter.congr ?_, (storesTasks.frame aside).congr fun dagName name =>
        (unremoved_dag dagName name).symm⟩, ?_⟩
    · intro name
      rw [AList.mem_insert]
      exact or_comm
    · intro dagName name unremoved
      obtain ⟨graph, found, contained⟩ := agrees.held dagName name ((unremoved_dag _ _).mp unremoved)
      have different : dagName ≠ dag.name := by
        intro equal
        subst equal
        exact absent (AList.lookup_isSome.mp (by rw [found]; rfl))
      exact ⟨graph, (AList.lookup_insert_ne different).trans found, contained⟩

theorem Agrees.removeDag (served : ServedBy root environment) (agrees : Agrees root state history)
    {dag : ShyguyDag} (plain : PlainName dag.name)
    (emptied : dag.name ∈ state.dags → ∀ name, ¬ Unremoved dag.name name history)
    (result : removeDag environment state dag = .ok (after, answer)) :
    Agrees root after (({ data := .dag dag, command := .remove }, answer) :: history) := by
  rcases removeDag_cases result with ⟨rfl, rfl, _⟩ | ⟨storage, _, present, persisted, rfl⟩
  · exact agrees.same rfl rfl (unremoved_dag · ·)
  · obtain ⟨files, attached, storesDags, storesTasks⟩ := agrees.stored
    obtain ⟨_, dagDisk, _, _, reliable, _, isStorage⟩ := served
    rw [attached] at persisted
    obtain ⟨stored, outcome, called, noFault, rfl⟩ := persisted
    rw [isStorage] at called
    obtain ⟨storesAfter, aside⟩ := storesDags.eraseDag reliable plain present called
    refine ⟨⟨stored, rfl, storesAfter.congr ?_, (storesTasks.frame aside).congr fun dagName name =>
        (unremoved_dag dagName name).symm⟩, ?_⟩
    · intro name
      rw [AList.mem_erase]
      exact and_comm
    · intro dagName name unremoved
      replace unremoved := (unremoved_dag _ _).mp unremoved
      obtain ⟨graph, found, contained⟩ := agrees.held dagName name unremoved
      have different : dagName ≠ dag.name := by
        intro equal
        subst equal
        exact emptied present name unremoved
      exact ⟨graph, (AList.lookup_erase_ne different).trans found, contained⟩

theorem unremoved_created {task : ShyguyTask} {text : Str} (dag name : Str) :
    Unremoved dag name (({ data := .task task, command := .create }, .ok text) :: history) ↔
      Unremoved dag name history ∨ dag = task.associatedDag ∧ name = task.name := by
  rw [Unremoved, or_comm, eq_comm, @eq_comm _ task.name]

theorem unremoved_removed {task : ShyguyTask} {text : Str} (dag name : Str) :
    Unremoved dag name (({ data := .task task, command := .remove }, .ok text) :: history) ↔
      Unremoved dag name history ∧ ¬ (dag = task.associatedDag ∧ name = task.name) := by
  rw [Unremoved, and_comm, eq_comm, @eq_comm _ task.name]

theorem Holds.replace {graph replacement : DirectedAcyclicGraph Str} {dagName dag name : Str}
    (found : state.dags.lookup dagName = some graph) (held : Holds state dag name)
    (kept : dag = dagName → graph.contains name = true → replacement.contains name = true) :
    ∃ other, (state.dags.insert dagName replacement).lookup dag = some other ∧
      other.contains name = true := by
  obtain ⟨other, otherFound, contained⟩ := held
  by_cases same : dag = dagName
  · subst dag
    cases otherFound.symm.trans found
    exact ⟨replacement, AList.lookup_insert _, kept rfl contained⟩
  · exact ⟨other, (AList.lookup_insert_ne same).trans otherFound, contained⟩

theorem StoresTasks.persisted {files : Files} {names : Str → Prop} {stored : Str → Str → Prop}
    (storesDags : StoresDags root files names) (storesTasks : StoresTasks root files stored)
    (served : ServedBy root environment) {task : ShyguyTask} {metadata : Option TaskMetadata}
    {storage : Option Files} (dagPlain : PlainName task.associatedDag) (plain : PlainName task.name)
    (absent : ¬ stored task.associatedDag task.name)
    (persisted : TaskPersisted environment task metadata (some files) storage) :
    ∃ result, storage = some result ∧ StoresDags root result names ∧
      StoresTasks root result
        fun dag name => stored dag name ∨ dag = task.associatedDag ∧ name = task.name := by
  obtain ⟨blobDisk, _, taskDisk, _, _, reliable, isStorage⟩ := served
  obtain ⟨prepared, blobId, preparation, persisted⟩ := persisted
  rw [isStorage] at preparation persisted
  have prepares : ∃ blobs, prepared = some blobs ∧ StoresDags root blobs names ∧
      StoresTasks root blobs stored := by
    rcases preparation with rfl | ⟨store, content, blobs, outcome, same, called, rfl⟩
    · exact ⟨files, rfl, storesDags, storesTasks⟩
    · cases same
      exact ⟨blobs, rfl, storesDags.putBlob called, storesTasks.putBlob called⟩
  obtain ⟨blobs, rfl, blobDags, blobTasks⟩ := prepares
  obtain ⟨result, outcome, called, noFault, rfl⟩ := persisted
  obtain ⟨tasksAfter, aside⟩ :=
    blobTasks.upsertTask reliable dagPlain plain absent called noFault
  exact ⟨result, rfl, blobDags.frame aside, tasksAfter⟩

theorem Agrees.createTask (served : ServedBy root environment) (agrees : Agrees root state history)
    {task : ShyguyTask} (dagPlain : PlainName task.associatedDag) (plain : PlainName task.name)
    (result : createTask environment state task = .ok (after, answer)) :
    Agrees root after (({ data := .task task, command := .create }, answer) :: history) := by
  obtain ⟨dag, extended, inserted, storage, found, pushed, rfl, failed, succeeded⟩ :=
    createTask_cases result
  obtain ⟨files, attached, storesDags, storesTasks⟩ := agrees.stored
  have keys := UnorderedMap.mem_insert_of_lookup found extended
  have refused : ∀ error, inserted = .error error → extended.table = dag.table →
      Agrees root { state with
        taskMap := state.taskMap.insert task.name task
        dags := state.dags.insert task.associatedDag extended
        storage := storage } (({ data := .task task, command := .create }, answer) :: history) := by
    intro error isError same
    obtain ⟨rfl, rfl⟩ := failed error isError
    refine ⟨⟨files, attached, storesDags.congr fun name => (keys name).symm, storesTasks.congr fun
        dagName name => (unremoved_failed dagName name).symm⟩, ?_⟩
    intro dagName name unremoved
    refine (agrees.held dagName name ((unremoved_failed _ _).mp unremoved)).replace found ?_
    intro _ contained
    rwa [DirectedAcyclicGraph.contains_iff_table, same, ← DirectedAcyclicGraph.contains_iff_table]
  rcases DirectedAcyclicGraph.pushTask_cases pushed with
      ⟨_, rfl, isError⟩ | ⟨_, same, isError, _⟩ | ⟨fresh, isOk, rfl, _⟩
  · exact refused _ isError rfl
  · exact refused _ isError same
  · obtain ⟨rfl, metadata, persisted⟩ := succeeded isOk
    have absent : ¬ Unremoved task.associatedDag task.name history := by
      intro unremoved
      obtain ⟨graph, graphFound, contained⟩ := agrees.held _ _ unremoved
      cases graphFound.symm.trans found
      exact fresh contained
    rw [attached] at persisted
    obtain ⟨more, rfl, dagsAfter, tasksAfter⟩ :=
      StoresTasks.persisted storesDags storesTasks served dagPlain plain absent persisted
    refine ⟨⟨more, rfl, dagsAfter.congr fun name => (keys name).symm, tasksAfter.congr fun dagName
        name => (unremoved_created dagName name).symm⟩, ?_⟩
    intro dagName name unremoved
    rcases (unremoved_created _ _).mp unremoved with unremoved | ⟨rfl, rfl⟩
    · apply (agrees.held dagName name unremoved).replace found
      intro _ contained
      rw [DirectedAcyclicGraph.contains_iff_mem_keys, ← AList.mem_keys] at contained ⊢
      exact AList.mem_insert _ |>.mpr (.inr contained)
    · refine ⟨_, AList.lookup_insert _, ?_⟩
      rw [DirectedAcyclicGraph.contains_iff_mem_keys, ← AList.mem_keys]
      exact AList.mem_insert _ |>.mpr (.inl rfl)

theorem Agrees.removeTask (served : ServedBy root environment) (agrees : Agrees root state history)
    {task : ShyguyTask} (dagPlain : PlainName task.associatedDag) (plain : PlainName task.name)
    (result : removeTask environment state task = .ok (after, answer)) :
    Agrees root after (({ data := .task task, command := .remove }, answer) :: history) := by
  obtain ⟨files, attached, storesDags, storesTasks⟩ := agrees.stored
  have erased : ∀ storage,
      Persisted (fun store =>
        environment.storage.eraseTask store task.associatedDag task.name none) state.storage
        storage →
      ∃ less, storage = some less ∧ StoresDags root less (fun name => name ∈ state.dags) ∧
        StoresTasks root less fun dag name =>
          Unremoved dag name history ∧ ¬ (dag = task.associatedDag ∧ name = task.name) := by
    intro storage persisted
    obtain ⟨_, _, taskDisk, _, _, reliable, isStorage⟩ := served
    rw [attached] at persisted
    obtain ⟨less, outcome, called, _, rfl⟩ := persisted
    rw [isStorage] at called
    obtain ⟨tasksAfter, aside⟩ := storesTasks.eraseTask reliable dagPlain plain called
    exact ⟨less, rfl, storesDags.frame aside, tasksAfter⟩
  obtain ⟨storage, missing, rfl, persisted, rfl⟩ | ⟨_, error, _, _, rfl, rfl⟩ |
    ⟨dag, storage, found, removed, rfl, persisted, rfl⟩ := removeTask_cases result
  · obtain ⟨less, rfl, dagsAfter, tasksAfter⟩ := erased storage persisted
    refine ⟨⟨less, rfl, dagsAfter, tasksAfter.congr fun dagName name => (unremoved_removed dagName
        name).symm⟩, ?_⟩
    intro dagName name unremoved
    exact agrees.held dagName name ((unremoved_removed _ _).mp unremoved).1
  · exact agrees.same rfl rfl (unremoved_failed · ·)
  · obtain ⟨less, rfl, dagsAfter, tasksAfter⟩ := erased storage persisted
    refine ⟨⟨less, rfl, dagsAfter.congr fun name => (UnorderedMap.mem_insert_of_lookup found _
        name).symm, tasksAfter.congr fun dagName name => (unremoved_removed dagName name).symm⟩, ?_⟩
    intro dagName name unremoved
    obtain ⟨unremoved, different⟩ := (unremoved_removed _ _).mp unremoved
    apply (agrees.held dagName name unremoved).replace found
    intro same contained
    exact DirectedAcyclicGraph.contains_removeTask contained
      fun sameName => different ⟨same, sameName⟩

theorem Agrees.process {request : ShyguyRequest} (agrees : Agrees root state history)
    (admitted : RemovesEmptied root history environment state request)
    (result : process environment state request = .ok (after, answer)) :
    Agrees root after ((request, answer) :: history) := by
  obtain ⟨served, plain, emptied⟩ := admitted
  obtain ⟨data, command⟩ := request
  cases data with
  | monostate =>
      cases result
      exact agrees.same rfl rfl unremoved_failed
  | dag dag =>
      cases command with
      | create => exact agrees.createDag served plain result
      | remove => exact agrees.removeDag served plain (emptied dag ⟨rfl, rfl⟩) result
      | execute =>
          obtain ⟨_, _, rfl⟩ := executeAt_eq result
          exact agrees.same rfl rfl unremoved_dag
      | _ =>
          cases result
          exact agrees.same rfl rfl unremoved_dag
  | task task =>
      cases command with
      | create => exact agrees.createTask served plain.1 plain.2 result
      | remove => exact agrees.removeTask served plain.1 plain.2 result
      | execute =>
          obtain rfl := executeTask_eq result
          exact agrees.same rfl rfl fun _ _ => .rfl
      | _ =>
          cases result
          exact agrees.same rfl rfl unremoved_failed

theorem Run.agrees {disk : DiskBehavior} (reliable : disk.Reliable) {files : Files}
    (empty : EmptyRoot root files)
    (run : Run (some (FsStorage.construct root disk files)) (RemovesEmptied root) state history) :
    Agrees root state history := by
  induction run with
  | start =>
      obtain ⟨storesDags, storesTasks⟩ := FsStorage.construct_stores reliable empty
      refine ⟨⟨_, rfl, storesDags.congr ?_, storesTasks⟩, nofun⟩
      intro name
      exact ⟨False.elim, AList.notMem_empty name⟩
  | handle _ _ _ admitted result ih => exact ih.process admitted result

/-- When DAGs are removed only after their tasks, the stores list exactly the
DAGs in memory and the tasks in their graphs that were created and not removed. -/
theorem run_stores_agree {disk listDisk : DiskBehavior} (reliable : disk.Reliable)
    (listReliable : listDisk.Reliable) {files : Files} (empty : EmptyRoot root files)
    (run : Run (some (FsStorage.construct root disk files)) (RemovesEmptied root) state history) :
    ∃ stored, state.storage = some stored ∧
      (∃ entries, FsStorage.listDags root listDisk stored = .value entries ∧
        ∀ name, name ∈ entries.map (fun entry => entry.value.name) ↔ name ∈ state.dags) ∧
      ∀ dag, PlainName dag → ∃ entries,
        FsStorage.listTasks root listDisk stored dag = .value entries ∧
        ∀ name, name ∈ entries.map (fun entry => entry.value.name) ↔
          Holds state dag name ∧ Unremoved dag name history := by
  have agrees := run.agrees reliable empty
  obtain ⟨stored, attached, storesDags, storesTasks⟩ := agrees.stored
  refine ⟨stored, attached, storesDags.listDags listReliable, ?_⟩
  intro dag plain
  obtain ⟨entries, listed, members⟩ := storesTasks.listTasks listReliable plain
  refine ⟨entries, listed, fun name => (members name).trans ?_⟩
  exact ⟨fun unremoved => ⟨agrees.held dag name unremoved, unremoved⟩, And.right⟩

/-- The condition is also needed: after a removal that breaks it the store lists
a task that no graph holds. -/
theorem emptied_of_listed (served : ServedBy root environment) (agrees : Agrees root state history)
    {dag : ShyguyDag} (plain : PlainName dag.name) (present : dag.name ∈ state.dags)
    (result : ConcurrentShyguy.removeDag environment state dag = .ok (after, answer))
    {disk : DiskBehavior} (reliable : disk.Reliable)
    (listed : ∀ stored entries, after.storage = some stored →
      FsStorage.listTasks root disk stored dag.name = .value entries →
      ∀ name ∈ entries.map fun entry => entry.value.name, Holds after dag.name name)
    (name : Str) : ¬ Unremoved dag.name name history := by
  intro unremoved
  rcases removeDag_cases result with ⟨_, _, absent⟩ | ⟨storage, _, _, persisted, rfl⟩
  · exact absent present
  · obtain ⟨files, attached, storesDags, storesTasks⟩ := agrees.stored
    obtain ⟨_, dagDisk, _, _, dagReliable, _, isStorage⟩ := served
    rw [attached] at persisted
    obtain ⟨stored, outcome, called, _, rfl⟩ := persisted
    rw [isStorage] at called
    obtain ⟨_, aside⟩ := storesDags.eraseDag dagReliable plain present called
    obtain ⟨entries, shown, members⟩ := (storesTasks.frame aside).listTasks reliable plain
    obtain ⟨graph, found, _⟩ :=
      listed stored entries rfl shown name ((members name).mpr unremoved)
    rw [AList.lookup_erase] at found
    cases found

/-- A server with its stores below `data`, on disks that never fail. -/
def fileEnvironment : Environment Files where
  storage := FsStorage.storage FsStorage.dataRoot .reliable .reliable .reliable
  traversal := .storage _ _
  steadyNow := 0

theorem servedBy_fileEnvironment : ServedBy FsStorage.dataRoot fileEnvironment :=
  ⟨.reliable, .reliable, .reliable, DiskBehavior.reliable_reliable, DiskBehavior.reliable_reliable,
    DiskBehavior.reliable_reliable, rfl⟩

def taskRequest (command : CommandEnum) (dag name : Str) : ShyguyRequest where
  data := .task (FsStorage.bareTask dag name)
  command := command

def etlRequest (command : CommandEnum) : ShyguyRequest where
  data := .dag { name := ascii "etl", schedule := none }
  command := command

theorem plainRequest_etl (command : CommandEnum) : PlainRequest (etlRequest command) := by
  constructor <;> decide

theorem plainRequest_extract (command : CommandEnum) :
    PlainRequest (taskRequest command (ascii "etl") (ascii "extract")) := by
  constructor <;> constructor <;> decide

/-- A DAG with one task, both of them removed again, the task first. -/
theorem run_stores_agree_etl :
    ∃ state history, Run (some FsStorage.freshFiles) (RemovesEmptied FsStorage.dataRoot) state
        history ∧
      ∃ stored entries, state.storage = some stored ∧
        FsStorage.listTasks FsStorage.dataRoot .reliable stored (ascii "etl") = .value entries ∧
        ascii "extract" ∉ entries.map fun entry => entry.value.name := by
  have run : ∃ state history, Run (some FsStorage.freshFiles) (RemovesEmptied FsStorage.dataRoot)
      state history ∧ ¬ Unremoved (ascii "etl") (ascii "extract") history := by
    refine ⟨_, _, .handle fileEnvironment (etlRequest .remove)
      (.handle fileEnvironment (taskRequest .remove (ascii "etl") (ascii "extract"))
        (.handle fileEnvironment (taskRequest .create (ascii "etl") (ascii "extract"))
          (.handle fileEnvironment (etlRequest .create) .start
            ⟨servedBy_fileEnvironment, plainRequest_etl _, ?_⟩ rfl)
          ⟨servedBy_fileEnvironment, plainRequest_extract _, ?_⟩ rfl)
        ⟨servedBy_fileEnvironment, plainRequest_extract _, ?_⟩ rfl)
      ⟨servedBy_fileEnvironment, plainRequest_etl _, ?_⟩ rfl, ?_⟩
    · intro dag held
      obtain ⟨_, ⟨⟩⟩ := held
    · intro dag held
      obtain ⟨⟨⟩, _⟩ := held
    · intro dag held
      obtain ⟨⟨⟩, _⟩ := held
    · intro dag held _ name
      obtain ⟨⟨⟩, _⟩ := held
      intro held
      obtain ⟨different, same | impossible⟩ := held
      · exact different same
      · exact impossible
    · intro held
      obtain ⟨different, _⟩ := held
      exact different ⟨rfl, rfl⟩
  obtain ⟨state, history, run, removed⟩ := run
  obtain ⟨stored, attached, _, listed⟩ := run_stores_agree DiskBehavior.reliable_reliable
    DiskBehavior.reliable_reliable (FsStorage.emptyRoot_empty _) run
  obtain ⟨entries, result, members⟩ := listed (ascii "etl") (by constructor <;> decide)
  exact ⟨state, history, run, stored, entries, attached, result,
    fun member => removed ((members _).mp member).2⟩

/-- Removing a DAG leaves the files of its tasks: the store lists a task of a
DAG that is not in memory. -/
theorem removed_tasks_stay :
    ∃ state history, Run (some FsStorage.freshFiles)
        (fun _ environment _ request =>
          ServedBy FsStorage.dataRoot environment ∧ PlainRequest request) state history ∧
      ∃ stored entry, state.storage = some stored ∧ ascii "etl" ∉ state.dags ∧
        FsStorage.listTasks FsStorage.dataRoot .reliable stored (ascii "etl") = .value [entry] ∧
        entry.value.name = ascii "extract" := by
  refine ⟨_, _, .handle fileEnvironment (etlRequest .remove)
    (.handle fileEnvironment (taskRequest .create (ascii "etl") (ascii "extract"))
      (.handle fileEnvironment (etlRequest .create) .start
        ⟨servedBy_fileEnvironment, plainRequest_etl _⟩ rfl)
      ⟨servedBy_fileEnvironment, plainRequest_extract _⟩ rfl)
    ⟨servedBy_fileEnvironment, plainRequest_etl _⟩ rfl, _,
    { value := FsStorage.bareTask (ascii "etl") (ascii "extract")
      version := 1
      blobId := none
      metadata := none }, rfl, ?_, ?_, rfl⟩
  · decide +kernel
  · decide +kernel

end BabyLuigi.ConcurrentShyguy
