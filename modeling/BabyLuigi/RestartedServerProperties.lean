import BabyLuigi.Storage.KeptValuesProperties
import BabyLuigi.StoredSchedulesProperties

/-! A server that is started again on the files of the one before: what the
stores keep of all requests ever answered, and what the new server knows. -/

set_option autoImplicit false

namespace BabyLuigi

namespace FsStorage

/-- Stores that exist already are left as they are, even by a failing disk. -/
theorem construct_again {root : StoreRoot} {files : Files} {contents : List Str}
    {documents : StoreKey → Option Json} (keeps : KeepsBlobs root files contents)
    (stored : StoresDocuments root files documents) (disk : DiskBehavior) :
    construct root disk files = files := by
  have dags : files.node (dagDir root).resolve = some .directory := stored.directory (.dag [])
  have tasks : files.node (taskDir root).resolve = some .directory := stored.directory (.task [] [])
  rw [construct, FileSystem.createDirectories_of_directory keeps.directory,
    FileSystem.createDirectories_of_directory dags, FileSystem.createDirectories_of_directory tasks,
    ite_self]

end FsStorage

namespace ConcurrentShyguy

open FsStorage (EmptyRoot KeepsContents StoreKey Stored StoredValues StoresKept StoresLast
  ReadsKept keptDag keptTask)

variable {root : StoreRoot} {environment : Environment Files}
  {state after : ConcurrentShyguy Files} {history session : History} {answer : CommandResultType}
  {files : Files}

/-- The key that an answered request has changed, with its new value. -/
def change : ShyguyRequest × CommandResultType → Option ((key : StoreKey) × Option (Stored key))
  | ({ data := .dag dag, command := .create }, .ok _) => some ⟨.dag dag.name, some ⟨dag, rfl⟩⟩
  | ({ data := .dag dag, command := .remove }, .ok _) => some ⟨.dag dag.name, none⟩
  | ({ data := .task task, command := .create }, .ok _) =>
    some ⟨.task task.associatedDag task.name, some ⟨task, rfl, rfl⟩⟩
  | ({ data := .task task, command := .remove }, .ok _) =>
    some ⟨.task task.associatedDag task.name, none⟩
  | _ => none

/-- What is left of the requests answered so far. -/
def kept : History → StoredValues
  | [] => fun _ => none
  | entry :: rest =>
    match change entry with
    | some ⟨key, value⟩ => Function.update (kept rest) key value
    | none => kept rest

def HoldsKept (root : StoreRoot) (state : ConcurrentShyguy Files) (history : History) : Prop :=
  ∃ files, state.storage = some files ∧ StoresKept root files (kept history)

theorem kept_of_change {entry : ShyguyRequest × CommandResultType} {key : StoreKey}
    {value : Option (Stored key)} (changed : change entry = some ⟨key, value⟩) :
    kept (entry :: history) = Function.update (kept history) key value := by
  rw [kept, changed]

theorem HoldsKept.unchanged {entry : ShyguyRequest × CommandResultType}
    (holds : HoldsKept root state history) (storage : after.storage = state.storage)
    (unchanged : change entry = none) : HoldsKept root after (entry :: history) := by
  rw [HoldsKept, kept, unchanged, storage]
  exact holds

theorem change_failed (request : ShyguyRequest) (error : CommandError) :
    change (request, .error error) = none := by
  obtain ⟨data, command⟩ := request
  cases data <;> cases command <;> rfl

theorem HoldsKept.createDag (holds : HoldsKept root state history)
    (served : ServedBy root environment) {dag : ShyguyDag} (plain : PlainName dag.name)
    (result : createDag environment state dag = .ok (after, answer)) :
    HoldsKept root after (({ data := .dag dag, command := .create }, answer) :: history) := by
  rcases createDag_cases result with ⟨rfl, rfl, _⟩ | ⟨storage, _, rfl, _, persisted, _, rfl⟩
  · exact holds.unchanged rfl rfl
  · obtain ⟨files, attached, keeps⟩ := holds
    obtain ⟨_, dagDisk, _, _, reliable, _, isStorage⟩ := served
    rw [attached] at persisted
    obtain ⟨stored, outcome, called, noFault, rfl⟩ := persisted
    rw [isStorage] at called
    refine ⟨stored, rfl, ?_⟩
    rw [kept_of_change rfl]
    exact keeps.upsertDag reliable plain called noFault

theorem HoldsKept.removeDag (holds : HoldsKept root state history)
    (served : ServedBy root environment) {dag : ShyguyDag} (plain : PlainName dag.name)
    (result : removeDag environment state dag = .ok (after, answer)) :
    HoldsKept root after (({ data := .dag dag, command := .remove }, answer) :: history) := by
  rcases removeDag_cases result with ⟨rfl, rfl, _⟩ | ⟨storage, rfl, _, persisted, rfl⟩
  · exact holds.unchanged rfl rfl
  · obtain ⟨files, attached, keeps⟩ := holds
    obtain ⟨_, dagDisk, _, _, reliable, _, isStorage⟩ := served
    rw [attached] at persisted
    obtain ⟨less, outcome, called, _, rfl⟩ := persisted
    rw [isStorage] at called
    refine ⟨less, rfl, ?_⟩
    rw [kept_of_change rfl]
    exact keeps.eraseDag reliable plain called

theorem StoresKept.persisted {values : StoredValues} (keeps : StoresKept root files values)
    (served : ServedBy root environment) {task : ShyguyTask} {metadata : Option TaskMetadata}
    {storage : Option Files} (plain : PlainName task.associatedDag ∧ PlainName task.name)
    (persisted : TaskPersisted environment task metadata (some files) storage) :
    ∃ written, storage = some written ∧
      StoresKept root written
        (Function.update values (.task task.associatedDag task.name) (some ⟨task, rfl, rfl⟩)) := by
  obtain ⟨_, _, taskDisk, _, _, reliable, isStorage⟩ := served
  obtain ⟨prepared, blobId, preparation, persisted⟩ := persisted
  rw [isStorage] at preparation persisted
  have prepares : ∃ blobs, prepared = some blobs ∧ StoresKept root blobs values := by
    rcases preparation with rfl | ⟨store, content, blobs, outcome, same, called, rfl⟩
    · exact ⟨files, rfl, keeps⟩
    · cases same
      exact ⟨blobs, rfl, keeps.putBlob called⟩
  obtain ⟨blobs, rfl, blobsKeep⟩ := prepares
  obtain ⟨written, outcome, called, noFault, rfl⟩ := persisted
  exact ⟨written, rfl, blobsKeep.upsertTask reliable plain called noFault⟩

theorem HoldsKept.createTask (holds : HoldsKept root state history)
    (served : ServedBy root environment) {task : ShyguyTask}
    (plain : PlainName task.associatedDag ∧ PlainName task.name)
    (result : createTask environment state task = .ok (after, answer)) :
    HoldsKept root after (({ data := .task task, command := .create }, answer) :: history) := by
  obtain ⟨_, _, inserted, storage, _, _, rfl, failed, succeeded⟩ := createTask_cases result
  cases inserted with
  | error error =>
      obtain ⟨rfl, rfl⟩ := failed error rfl
      exact holds.unchanged rfl rfl
  | ok =>
      obtain ⟨rfl, metadata, persisted⟩ := succeeded rfl
      obtain ⟨files, attached, keeps⟩ := holds
      rw [attached] at persisted
      obtain ⟨written, rfl, writtenKeeps⟩ := StoresKept.persisted keeps served plain persisted
      refine ⟨written, rfl, ?_⟩
      rw [kept_of_change rfl]
      exact writtenKeeps

theorem HoldsKept.removeTask (holds : HoldsKept root state history)
    (served : ServedBy root environment) {task : ShyguyTask}
    (plain : PlainName task.associatedDag ∧ PlainName task.name)
    (result : removeTask environment state task = .ok (after, answer)) :
    HoldsKept root after (({ data := .task task, command := .remove }, answer) :: history) := by
  have erased : ∀ {storage : Option Files} {text : Str},
      Persisted (fun store =>
        environment.storage.eraseTask store task.associatedDag task.name none) state.storage
        storage →
      after.storage = storage →
      HoldsKept root after (({ data := .task task, command := .remove }, .ok text) :: history) := by
    intro storage text persisted isStored
    obtain ⟨files, attached, keeps⟩ := holds
    obtain ⟨_, _, taskDisk, _, _, reliable, isStorage⟩ := served
    rw [attached] at persisted
    obtain ⟨less, outcome, called, _, rfl⟩ := persisted
    rw [isStorage] at called
    refine ⟨less, isStored, ?_⟩
    rw [kept_of_change rfl]
    exact keeps.eraseTask reliable plain called
  obtain ⟨storage, _, rfl, persisted, rfl⟩ | ⟨_, _, _, _, rfl, rfl⟩ |
    ⟨_, storage, _, _, rfl, persisted, rfl⟩ := removeTask_cases result
  · exact erased persisted rfl
  · exact holds.unchanged rfl rfl
  · exact erased persisted rfl

theorem HoldsKept.process {request : ShyguyRequest} (holds : HoldsKept root state history)
    (served : ServedBy root environment) (plain : PlainRequest request)
    (result : process environment state request = .ok (after, answer)) :
    HoldsKept root after ((request, answer) :: history) := by
  obtain ⟨data, command⟩ := request
  cases data with
  | monostate =>
      cases result
      exact holds.unchanged rfl rfl
  | dag dag =>
      cases command with
      | create => exact holds.createDag served plain result
      | remove => exact holds.removeDag served plain result
      | execute =>
          obtain ⟨_, _, rfl⟩ := executeAt_eq result
          exact holds.unchanged rfl rfl
      | _ =>
          cases result
          exact holds.unchanged rfl rfl
  | task task =>
      cases command with
      | create => exact holds.createTask served plain result
      | remove => exact holds.removeTask served plain result
      | execute =>
          obtain rfl := executeTask_eq result
          exact holds.unchanged rfl rfl
      | _ =>
          cases result
          exact holds.unchanged rfl rfl

/-! ### Sessions -/

/-- The files that a session starts on, and the requests answered before it:
none in an empty directory, and all those of the session before otherwise. -/
inductive Sessions (root : StoreRoot) : Files → History → Prop where
  | start (disk : DiskBehavior) {files : Files} :
      disk.Reliable → EmptyRoot root files → Sessions root (FsStorage.construct root disk files) []
  | restart (disk : DiskBehavior) {files held : Files} {history session : History}
      {state : ConcurrentShyguy Files} :
      Sessions root files history → Run (some files) (RemovesListedOnce root) state session →
      state.storage = some held →
      Sessions root (FsStorage.construct root disk held) (session ++ history)

/-- The stores and the blobs at the start of a session. -/
structure Persists (root : StoreRoot) (files : Files) (history : History) : Prop where
  kept : StoresKept root files (kept history)
  contents : KeepsContents root files (putContents history)

/-- What every request keeps goes on from the start of a session to its end. -/
theorem Run.continues (Holds : ConcurrentShyguy Files → History → Prop)
    (starts : Holds (initial (some files)) history)
    (keeps : ∀ {environment state after earlier request answer}, Holds state earlier →
      RemovesListedOnce root earlier environment state request →
      process environment state request = .ok (after, answer) →
      Holds after ((request, answer) :: earlier))
    (run : Run (some files) (RemovesListedOnce root) state session) :
    Holds state (session ++ history) := by
  induction run with
  | start => exact starts
  | handle _ _ _ admitted result ih =>
      exact keeps ih ⟨admitted.served, admitted.plain, admitted.once⟩ result

theorem Persists.run (persists : Persists root files history)
    (run : Run (some files) (RemovesListedOnce root) state session) :
    ∃ held, state.storage = some held ∧ Persists root held (session ++ history) := by
  have holdsKept : HoldsKept root state (session ++ history) := by
    refine run.continues (HoldsKept root) ⟨files, rfl, persists.kept⟩ ?_
    exact fun holds admitted result => holds.process admitted.served admitted.plain result
  have holdsContents : HoldsContents root state (putContents (session ++ history)) := by
    refine run.continues (fun state history => HoldsContents root state (putContents history))
      ⟨files, rfl, persists.contents⟩ ?_
    exact fun holds admitted result => holds.process ⟨admitted.served, admitted.plain⟩ result
  obtain ⟨held, attached, keeps⟩ := holdsKept
  obtain ⟨_, same, contents⟩ := holdsContents
  cases attached.symm.trans same
  exact ⟨held, attached, keeps, contents⟩

theorem Sessions.persists (sessions : Sessions root files history) :
    Persists root files history := by
  induction sessions with
  | start _ reliable empty =>
      exact ⟨FsStorage.storesKept_construct reliable empty,
        FsStorage.keepsContents_construct reliable empty⟩
  | restart _ _ run attached ih =>
      obtain ⟨held, same, persists⟩ := ih.run run
      cases attached.symm.trans same
      obtain ⟨documents, stored, _⟩ := persists.kept
      rwa [FsStorage.construct_again persists.contents.blobs stored]

/-! ### What a session knows -/

/-- What an answered request has changed, and its effect on the tasks. -/
theorem change_cases (entry : ShyguyRequest × CommandResultType) :
    (change entry = none ∧ effect entry = .nothing) ∨
    ∃ text, (∃ dag, entry = ({ data := .dag dag, command := .create }, .ok text)) ∨
      (∃ dag, entry = ({ data := .dag dag, command := .remove }, .ok text)) ∨
      (∃ task, entry = ({ data := .task task, command := .create }, .ok text)) ∨
      ∃ task, entry = ({ data := .task task, command := .remove }, .ok text) := by
  obtain ⟨⟨data, command⟩, answer⟩ := entry
  cases answer with
  | error error => exact .inl ⟨change_failed _ error, effect_failed _ error⟩
  | ok text =>
      cases data with
      | monostate => exact .inl ⟨rfl, rfl⟩
      | dag dag =>
          cases command with
          | create => exact .inr ⟨text, .inl ⟨dag, rfl⟩⟩
          | remove => exact .inr ⟨text, .inr (.inl ⟨dag, rfl⟩)⟩
          | _ => exact .inl ⟨rfl, rfl⟩
      | task task =>
          cases command with
          | create => exact .inr ⟨text, .inr (.inr (.inl ⟨task, rfl⟩))⟩
          | remove => exact .inr ⟨text, .inr (.inr (.inr ⟨task, rfl⟩))⟩
          | _ => exact .inl ⟨rfl, rfl⟩

theorem keptTask_kept (history : History) (dag name : Str) :
    keptTask (kept history) dag name = lastStored history (dag, name) := by
  induction history with
  | nil => rfl
  | cons entry rest ih =>
      rcases change_cases entry with
          ⟨unchanged, nothing⟩ | ⟨text, ⟨dag, rfl⟩ | ⟨dag, rfl⟩ | ⟨task, rfl⟩ | ⟨task, rfl⟩⟩
      · rw [kept, unchanged, lastStored_nothing nothing]
        exact ih
      · rw [kept_of_change rfl, FsStorage.keptTask_update_dag]
        exact ih
      · rw [kept_of_change rfl, FsStorage.keptTask_update_dag]
        exact ih
      · rw [kept_of_change rfl, FsStorage.keptTask_update_task, ih]
        simp only [lastStored, effect, Function.update_apply, Prod.mk.injEq]
        rfl
      · rw [kept_of_change rfl, FsStorage.keptTask_update_task, ih]
        simp only [lastStored, effect, Function.update_apply, Prod.mk.injEq]
        rfl

theorem keptDag_cons_of_unasked {request : ShyguyRequest} {name : Str}
    (creates : ∀ dag, ¬ Asks .create dag request) (removes : ∀ dag, ¬ Asks .remove dag request) :
    keptDag (kept ((request, answer) :: history)) name = keptDag (kept history) name := by
  rcases change_cases (request, answer) with
      ⟨unchanged, _⟩ | ⟨text, ⟨dag, same⟩ | ⟨dag, same⟩ | ⟨task, same⟩ | ⟨task, same⟩⟩
  · rw [kept, unchanged]
  · cases same
    exact absurd ⟨rfl, rfl⟩ (creates dag)
  · cases same
    exact absurd ⟨rfl, rfl⟩ (removes dag)
  · rw [same, kept_of_change rfl, FsStorage.keptDag_update_task]
  · rw [same, kept_of_change rfl, FsStorage.keptDag_update_task]

/-- The DAGs in memory are those of the session. -/
theorem Run.mem_dags {storage : Option Files}
    {admits : History → Environment Files → ConcurrentShyguy Files → ShyguyRequest → Prop}
    (run : Run storage admits state session) (name : Str) :
    name ∈ state.dags ↔ (keptDag (kept session) name).isSome = true := by
  induction run with
  | start => simp [initial, kept, keptDag]
  | handle environment request _ _ result ih =>
      by_cases creates : ∃ dag, Asks .create dag request
      · obtain ⟨dag, isDag, isCreate⟩ := creates
        obtain ⟨data, command⟩ := request
        subst isDag isCreate
        rcases createDag_cases result with ⟨rfl, rfl, _⟩ | ⟨_, _, rfl, _, _, _, rfl⟩
        · exact ih
        · rw [kept_of_change rfl, FsStorage.keptDag_update_dag, AList.mem_insert, ih]
          split <;> simp [*]
      by_cases removes : ∃ dag, Asks .remove dag request
      · obtain ⟨dag, isDag, isRemove⟩ := removes
        obtain ⟨data, command⟩ := request
        subst isDag isRemove
        rcases removeDag_cases result with ⟨rfl, rfl, _⟩ | ⟨_, rfl, _, _, rfl⟩
        · exact ih
        · rw [kept_of_change rfl, FsStorage.keptDag_update_dag, AList.mem_erase, ih]
          split <;> simp [*]
      · rw [keptDag_cons_of_unasked (not_exists.mp creates) (not_exists.mp removes), ← ih]
        exact (process_keeps result (not_exists.mp creates) (not_exists.mp removes)).2 name

/-- A DAG that is kept was created. -/
theorem created_of_kept {dag : Str} (held : (keptDag (kept history) dag).isSome = true) :
    ∃ entry ∈ history, effect entry = .createdDag dag := by
  induction history with
  | nil => cases held
  | cons entry rest ih =>
      have earlier : (keptDag (kept rest) dag).isSome = true →
          ∃ other ∈ entry :: rest, effect other = .createdDag dag := by
        intro before
        obtain ⟨other, member, created⟩ := ih before
        exact ⟨other, List.mem_cons_of_mem _ member, created⟩
      rcases change_cases entry with
          ⟨unchanged, _⟩ | ⟨text, ⟨other, rfl⟩ | ⟨other, rfl⟩ | ⟨task, rfl⟩ | ⟨task, rfl⟩⟩
      · rw [kept, unchanged] at held
        exact earlier held
      · rw [kept_of_change rfl, FsStorage.keptDag_update_dag] at held
        split at held
        · subst dag
          exact ⟨_, List.mem_cons_self, rfl⟩
        · exact earlier held
      · rw [kept_of_change rfl, FsStorage.keptDag_update_dag] at held
        split at held
        · cases held
        · exact earlier held
      · rw [kept_of_change rfl, FsStorage.keptDag_update_task] at held
        exact earlier held
      · rw [kept_of_change rfl, FsStorage.keptDag_update_task] at held
        exact earlier held

/-- A schedule in memory is that of a DAG created in the session. -/
theorem Run.created_of_scheduled {storage : Option Files}
    {admits : History → Environment Files → ConcurrentShyguy Files → ShyguyRequest → Prop}
    (run : Run storage admits state session) {name : Str} (scheduled : name ∈ state.schedules) :
    ∃ entry ∈ session, effect entry = .createdDag name := by
  induction run with
  | start => cases AList.notMem_empty _ scheduled
  | @handle environment before _ rest request answer _ _ result ih =>
      have earlier : name ∈ before.schedules → ∃ entry ∈ (request, answer) :: rest,
          effect entry = .createdDag name := by
        intro known
        obtain ⟨entry, member, created⟩ := ih known
        exact ⟨entry, List.mem_cons_of_mem _ member, created⟩
      by_cases creates : ∃ dag, Asks .create dag request
      · obtain ⟨dag, isDag, isCreate⟩ := creates
        obtain ⟨data, command⟩ := request
        subst isDag isCreate
        rcases createDag_cases result with ⟨rfl, rfl, _⟩ | ⟨_, _, rfl, _, _, chosen, rfl⟩
        · exact earlier scheduled
        · by_cases same : name = dag.name
          · subst same
            exact ⟨_, List.mem_cons_self, rfl⟩
          · refine earlier ?_
            rwa [← AList.lookup_isSome, ← lookup_createdSchedules chosen same, AList.lookup_isSome]
      by_cases removes : ∃ dag, Asks .remove dag request
      · obtain ⟨dag, isDag, isRemove⟩ := removes
        obtain ⟨data, command⟩ := request
        subst isDag isRemove
        rcases removeDag_cases result with ⟨rfl, rfl, _⟩ | ⟨_, rfl, _, _, rfl⟩
        · exact earlier scheduled
        · refine earlier ?_
          dsimp only at scheduled
          split at scheduled
          · exact (AList.mem_erase.mp scheduled).2
          · exact scheduled
      · rw [(process_keeps result (not_exists.mp creates) (not_exists.mp removes)).1] at scheduled
        exact earlier scheduled

/-- Nothing from before the creation of a DAG counts for its tasks. -/
theorem current_append {dag : Str} (created : ∃ entry ∈ session, effect entry = .createdDag dag)
    (name : Str) :
    (Current dag name (session ++ history) ↔ Current dag name session) ∧
      (OwnNameRemoved dag (session ++ history) ↔ OwnNameRemoved dag session) := by
  induction session with
  | nil =>
      obtain ⟨_, impossible, _⟩ := created
      cases impossible
  | cons entry rest ih =>
      rw [List.cons_append, Current, Current, OwnNameRemoved, OwnNameRemoved]
      by_cases last : effect entry = .createdDag dag
      · rw [last]
        simp
      · have before : ∃ other ∈ rest, effect other = .createdDag dag := by
          obtain ⟨other, member, isCreation⟩ := created
          rcases List.mem_cons.mp member with rfl | member
          · exact absurd isCreation last
          · exact ⟨other, member, isCreation⟩
        obtain ⟨current, removed⟩ := ih before
        cases effect entry <;> simp only [current, removed, and_self]

/-! ### What a session does -/

theorem StoresKept.storesLast (keeps : StoresKept root files (kept history)) :
    StoresLast root files (lastStored history) := by
  obtain ⟨documents, stored, represents⟩ := keeps
  refine ⟨documents, stored, fun dag name => ?_⟩
  have represented := FsStorage.rel_keptTask represents dag name
  rw [keptTask_kept] at represented
  generalize documents (.task dag name) = held, lastStored history (dag, name) = last
    at represented ⊢
  cases represented with
  | none => rfl
  | some read =>
      obtain ⟨entry, decoded, rfl⟩ := read
      rw [Option.map_some, decoded]
      rfl

theorem Run.reflects_after (keeps : StoresKept root files (kept history))
    (run : Run (some files) (RemovesListedOnce root) state session) :
    Reflects root state (session ++ history) := by
  refine run.continues (Reflects root) ⟨⟨files, rfl, StoresKept.storesLast keeps⟩, ?_⟩
    Reflects.process
  intro dag graph found
  cases found

/-- The execution enqueues the tasks of this session alone, each with a runner
that carries what any session has stored for it. -/
def ExecutesSession (environment : Environment Files) (state : ConcurrentShyguy Files)
    (session history : History) (dag : ShyguyDag) (scheduledTime : Int) : Prop :=
  ∃ (graph : DirectedAcyclicGraph Str) (order : List Str),
    state.dags.lookup dag.name = some graph ∧ order.Nodup ∧
    (∀ name, name ∈ order ↔ Current dag.name name session ∨
      name = dag.name ∧ ¬ OwnNameRemoved dag.name session) ∧
    executeAt environment state dag scheduledTime =
      .ok ({ state with
              requestQueue := state.requestQueue ++ [{
                scheduledTime := scheduledTime
                sequence := state.taskRequestSequence
                payload := {
                  taskRunners := order.map fun name => {
                    name := name
                    contents := ((keptTask (kept (session ++ history)) dag.name name).bind
                      ShyguyTask.fileContent).getD [] }
                  dag := graph } }]
              taskRequestSequence := (state.taskRequestSequence + 1) % 2 ^ 64 },
            .error .notCurrentlySupported)

/-- A server after the requests of its session, on the files of all sessions
before. -/
structure ServesKept (root : StoreRoot) (reader : DiskBehavior) (print : Json → Str)
    (state : ConcurrentShyguy Files) (session history : History) : Prop where
  stores : ∃ held, state.storage = some held ∧
    ReadsKept root reader held (kept (session ++ history)) ∧
    ResolvesBlobs root reader print held (putContents (session ++ history))
  memory : ∀ name, name ∈ state.dags ↔ (keptDag (kept session) name).isSome = true
  schedules : ∀ name, name ∈ state.schedules → ∃ entry ∈ session, effect entry = .createdDag name
  unknown : ∀ environment dag scheduledTime, keptDag (kept session) dag.name = none →
    executeAt environment state dag scheduledTime = .ok (state, .error .dagNotFound) ∧
    ∀ task, task.associatedDag = dag.name →
      createTask environment state task = .error .outOfRange
  known : ∀ environment dag scheduledTime, ServedBy root environment →
    (keptDag (kept session) dag.name).isSome = true →
    ExecutesSession environment state session history dag scheduledTime

/-- Whatever the sessions before did, a server finds and shows what all of them
have left, but works with what was created in its own. -/
theorem sessions_serve_kept (sessions : Sessions root files history)
    (run : Run (some files) (RemovesListedOnce root) state session) {reader : DiskBehavior}
    (reliable : reader.Reliable) (print : Json → Str) :
    ServesKept root reader print state session history := by
  have persists := sessions.persists
  have memory := fun name => run.mem_dags name
  refine ⟨?_, memory, fun _ => run.created_of_scheduled, ?_, ?_⟩
  · obtain ⟨held, attached, kept, contents⟩ := persists.run run
    exact ⟨held, attached, kept.reads reliable, resolvesBlobs reliable print contents⟩
  · intro environment dag scheduledTime absent
    have missing : state.dags.lookup dag.name = none := by
      rw [AList.lookup_eq_none, memory, absent]
      exact Bool.false_ne_true
    refine ⟨by rw [executeAt, missing], fun task same => ?_⟩
    rw [createTask, same]
    simp only [missing]
  · intro environment dag scheduledTime served present
    obtain ⟨graph, order, found, nodup, members, executed⟩ := executeAt_of_reflects served
      (run.reflects_after persists.kept) ((memory dag.name).mpr present) scheduledTime
    refine ⟨graph, order, found, nodup, fun name => ?_, ?_⟩
    · obtain ⟨current, removed⟩ := current_append (created_of_kept present) name
      rw [members, current, removed]
    · simp only [keptTask_kept]
      exact executed

/-- A task of a DAG that is created again, without the task, after a restart. -/
theorem sessions_serve_kept_etl :
    ∃ files history state session, Sessions FsStorage.dataRoot files history ∧
      Run (some files) (RemovesListedOnce FsStorage.dataRoot) state session ∧
      (keptTask (kept (session ++ history)) (ascii "etl") (ascii "extract")).isSome = true ∧
      ¬ Current (ascii "etl") (ascii "extract") session ∧
      ServesKept FsStorage.dataRoot .reliable (fun _ => []) state session history := by
  have sessions : ∃ files history state session, Sessions FsStorage.dataRoot files history ∧
      Run (some files) (RemovesListedOnce FsStorage.dataRoot) state session ∧
      (keptTask (kept (session ++ history)) (ascii "etl") (ascii "extract")).isSome = true ∧
      ¬ Current (ascii "etl") (ascii "extract") session := by
    refine ⟨_, _, _, _, .restart .reliable (.start .reliable DiskBehavior.reliable_reliable
        (FsStorage.emptyRoot_empty _))
      (.handle fileEnvironment (taskRequest .create (ascii "etl") (ascii "extract"))
        (.handle fileEnvironment (etlRequest .create) .start
          ⟨servedBy_fileEnvironment, plainRequest_etl _, ?_⟩ rfl)
        ⟨servedBy_fileEnvironment, plainRequest_extract _, ?_⟩ rfl) rfl,
      .handle fileEnvironment (etlRequest .create) .start
        ⟨servedBy_fileEnvironment, plainRequest_etl _, ?_⟩ rfl, ?_, ?_⟩
    · intro task held
      obtain ⟨⟨⟩, _⟩ := held
    · intro task held
      obtain ⟨_, ⟨⟩⟩ := held
    · intro task held
      obtain ⟨⟨⟩, _⟩ := held
    · rfl
    · exact fun current => current.1 rfl
  obtain ⟨files, history, state, session, sessions, run, stored, notCurrent⟩ := sessions
  exact ⟨files, history, state, session, sessions, run, stored, notCurrent,
    sessions_serve_kept sessions run DiskBehavior.reliable_reliable _⟩

end ConcurrentShyguy

end BabyLuigi
