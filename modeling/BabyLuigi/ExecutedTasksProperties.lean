import BabyLuigi.FailedRequestProperties
import BabyLuigi.Storage.LastStoredProperties
import BabyLuigi.StorageAgreementProperties
import BabyLuigi.TopologicalSortProperties

/-! What the execution of a DAG enqueues, in terms of the requests that were
answered before: which tasks get a runner, and with what contents. -/

set_option autoImplicit false

namespace BabyLuigi.ConcurrentShyguy

open FsStorage (StoresLast EmptyRoot)

/-- What an answered request did to the tasks. -/
inductive Effect where
  | createdDag (name : Str)
  | createdTask (task : ShyguyTask)
  | removedTask (task : ShyguyTask)
  | nothing

def effect : ShyguyRequest × CommandResultType → Effect
  | ({ data := .dag dag, command := .create }, .ok _) => .createdDag dag.name
  | ({ data := .task task, command := .create }, .ok _) => .createdTask task
  | ({ data := .task task, command := .remove }, .ok _) => .removedTask task
  | _ => .nothing

/-- The task was created since the DAG was, and has not been removed since. -/
def Current (dag name : Str) : History → Prop
  | [] => False
  | entry :: rest =>
    match effect entry with
    | .createdDag other => other ≠ dag ∧ Current dag name rest
    | .createdTask task => task.associatedDag = dag ∧ task.name = name ∨ Current dag name rest
    | .removedTask task => ¬ (task.associatedDag = dag ∧ task.name = name) ∧ Current dag name rest
    | .nothing => Current dag name rest

/-- A removal has named the DAG itself as the task since the DAG was created. -/
def OwnNameRemoved (dag : Str) : History → Prop
  | [] => False
  | entry :: rest =>
    match effect entry with
    | .createdDag other => other ≠ dag ∧ OwnNameRemoved dag rest
    | .createdTask _ => OwnNameRemoved dag rest
    | .removedTask task => task.associatedDag = dag ∧ task.name = dag ∨ OwnNameRemoved dag rest
    | .nothing => OwnNameRemoved dag rest

/-- The task last stored under a DAG and a name, unless it was removed. -/
def lastStored : History → Str × Str → Option ShyguyTask
  | [] => fun _ => none
  | entry :: rest =>
    match effect entry with
    | .createdDag _ => lastStored rest
    | .createdTask task =>
      Function.update (lastStored rest) (task.associatedDag, task.name) (some task)
    | .removedTask task => Function.update (lastStored rest) (task.associatedDag, task.name) none
    | .nothing => lastStored rest

/-- The content last stored for a task, empty if it had none. -/
def lastContent (history : History) (dag name : Str) : Str :=
  ((lastStored history (dag, name)).bind ShyguyTask.fileContent).getD []

variable {root : StoreRoot} {environment : Environment Files}
  {state after : ConcurrentShyguy Files} {history : History} {answer : CommandResultType}

/-- The execution enqueues one request: a runner for each current task with the
content last stored for it, and the graph of the DAG. -/
def ExecutesCurrent (environment : Environment Files) (state : ConcurrentShyguy Files)
    (history : History) (dag : ShyguyDag) (scheduledTime : Int) : Prop :=
  ∃ graph runners, state.dags.lookup dag.name = some graph ∧
    executeAt environment state dag scheduledTime =
      .ok ({ state with
              requestQueue := state.requestQueue ++ [{
                scheduledTime := scheduledTime
                sequence := state.taskRequestSequence
                payload := { taskRunners := runners, dag := graph } }]
              taskRequestSequence := (state.taskRequestSequence + 1) % 2 ^ 64 },
            .error .notCurrentlySupported) ∧
    (runners.map TaskRunner.name).Nodup ∧
    (∀ name, name ∈ runners.map TaskRunner.name ↔ Current dag.name name history) ∧
    ∀ runner ∈ runners, runner.contents = lastContent history dag.name runner.name

/-- A request with plain names to a server on reliable disks; a task that it
removes is listed at most once by each other task. -/
structure RemovesListedOnce (root : StoreRoot) (_ : History) (environment : Environment Files)
    (state : ConcurrentShyguy Files) (request : ShyguyRequest) : Prop where
  served : ServedBy root environment
  plain : PlainRequest request
  once : ∀ task, AsksTask .remove task request → ∀ graph,
    state.dags.lookup task.associatedDag = some graph → graph.contains task.name = true →
    graph.MentionedOnce task.name

/-! ### One graph -/

/-- A graph of the server against the requests answered so far. -/
structure GraphReflects (dag : Str) (graph : DirectedAcyclicGraph Str) (history : History) :
    Prop where
  plain : PlainName dag
  reached : Relation.ReflTransGen DirectedAcyclicGraph.StepMentionedOnce
    (DirectedAcyclicGraph.ofName dag) graph
  keys : ∀ name, graph.contains name = true ↔
    Current dag name history ∨ name = dag ∧ ¬ OwnNameRemoved dag history
  own : Current dag dag history → OwnNameRemoved dag history
  plainTasks : ∀ name, Current dag name history → PlainName name

def Effect.Concerns (dag : Str) : Effect → Prop
  | .createdDag name => name = dag
  | .createdTask task => task.associatedDag = dag
  | .removedTask task => task.associatedDag = dag
  | .nothing => False

theorem current_aside {entry : ShyguyRequest × CommandResultType} {dag : Str}
    (aside : ¬ (effect entry).Concerns dag) (name : Str) :
    Current dag name (entry :: history) ↔ Current dag name history := by
  rw [Current]
  cases did : effect entry <;> simp_all [Effect.Concerns]

theorem ownNameRemoved_aside {entry : ShyguyRequest × CommandResultType} {dag : Str}
    (aside : ¬ (effect entry).Concerns dag) :
    OwnNameRemoved dag (entry :: history) ↔ OwnNameRemoved dag history := by
  rw [OwnNameRemoved]
  cases did : effect entry <;> simp_all [Effect.Concerns]

theorem GraphReflects.aside {dag : Str} {graph : DirectedAcyclicGraph Str}
    (reflects : GraphReflects dag graph history) {entry : ShyguyRequest × CommandResultType}
    (aside : ¬ (effect entry).Concerns dag) : GraphReflects dag graph (entry :: history) where
  plain := reflects.plain
  reached := reflects.reached
  keys name := by
    rw [current_aside aside, ownNameRemoved_aside aside]
    exact reflects.keys name
  own := by
    rw [current_aside aside, ownNameRemoved_aside aside]
    exact reflects.own
  plainTasks name := by
    rw [current_aside aside]
    exact reflects.plainTasks name

theorem GraphReflects.created {entry : ShyguyRequest × CommandResultType} {dag : Str}
    (did : effect entry = .createdDag dag) (plain : PlainName dag) :
    GraphReflects dag (DirectedAcyclicGraph.ofName dag) (entry :: history) where
  plain := plain
  reached := .refl
  keys name := by
    rw [DirectedAcyclicGraph.contains_iff_table, DirectedAcyclicGraph.table_ofName, Current,
      OwnNameRemoved, did]
    simp
  own := by
    rw [Current, did]
    exact fun created => absurd rfl created.1
  plainTasks name := by
    rw [Current, did]
    exact fun created => absurd rfl created.1

theorem GraphReflects.nothing {dag : Str} {graph : DirectedAcyclicGraph Str}
    (reflects : GraphReflects dag graph history) {entry : ShyguyRequest × CommandResultType}
    (did : effect entry = .nothing) : GraphReflects dag graph (entry :: history) :=
  reflects.aside (by rw [did]; exact id)

/-- A step of the graph that shows in no entry of the history. -/
theorem GraphReflects.replaced {dag : Str} {graph replacement : DirectedAcyclicGraph Str}
    (reflects : GraphReflects dag graph history)
    (step : DirectedAcyclicGraph.StepMentionedOnce graph replacement)
    (same : replacement.table = graph.table) : GraphReflects dag replacement history where
  plain := reflects.plain
  reached := reflects.reached.tail step
  keys name := by
    rw [DirectedAcyclicGraph.contains_iff_table, same, ← DirectedAcyclicGraph.contains_iff_table]
    exact reflects.keys name
  own := reflects.own
  plainTasks := reflects.plainTasks

theorem GraphReflects.inserted {graph extended : DirectedAcyclicGraph Str} {task : ShyguyTask}
    {entry : ShyguyRequest × CommandResultType}
    (reflects : GraphReflects task.associatedDag graph history)
    (did : effect entry = .createdTask task) (plain : PlainName task.name)
    (step : DirectedAcyclicGraph.StepMentionedOnce graph extended)
    (fresh : ¬ graph.contains task.name = true)
    (keys : ∀ name, extended.contains name = true ↔ name = task.name ∨ graph.contains name = true) :
    GraphReflects task.associatedDag extended (entry :: history) where
  plain := reflects.plain
  reached := reflects.reached.tail step
  keys name := by
    rw [keys, reflects.keys, Current, OwnNameRemoved, did]
    simp only [true_and, @eq_comm _ name task.name, or_assoc]
  own := by
    rw [Current, OwnNameRemoved, did]
    rintro (⟨_, ownName⟩ | current)
    · by_contra kept
      exact fresh ((reflects.keys _).mpr (.inr ⟨ownName, kept⟩))
    · exact reflects.own current
  plainTasks name := by
    rw [Current, did]
    rintro (⟨_, rfl⟩ | current)
    · exact plain
    · exact reflects.plainTasks name current

theorem GraphReflects.removed {graph reduced : DirectedAcyclicGraph Str} {task : ShyguyTask}
    {entry : ShyguyRequest × CommandResultType}
    (reflects : GraphReflects task.associatedDag graph history)
    (did : effect entry = .removedTask task)
    (step : DirectedAcyclicGraph.StepMentionedOnce graph reduced)
    (keys : ∀ name, reduced.contains name = true ↔ name ≠ task.name ∧ graph.contains name = true) :
    GraphReflects task.associatedDag reduced (entry :: history) where
  plain := reflects.plain
  reached := reflects.reached.tail step
  keys name := by
    rw [keys, reflects.keys, Current, OwnNameRemoved, did]
    simp only [true_and, @eq_comm _ task.name]
    constructor
    · rintro ⟨different, current | ⟨rfl, kept⟩⟩
      · exact .inl ⟨different, current⟩
      · exact .inr ⟨rfl, not_or.mpr ⟨different, kept⟩⟩
    · rintro (⟨different, current⟩ | ⟨rfl, kept⟩)
      · exact ⟨different, .inl current⟩
      · exact ⟨(not_or.mp kept).1, .inr ⟨rfl, (not_or.mp kept).2⟩⟩
  own := by
    rw [Current, OwnNameRemoved, did]
    exact fun current => .inr (reflects.own current.2)
  plainTasks name := by
    rw [Current, did]
    exact fun current => reflects.plainTasks name current.2

/-! ### One request -/

/-- The task store and the graphs of the server against the requests answered
so far. -/
structure Reflects (root : StoreRoot) (state : ConcurrentShyguy Files) (history : History) :
    Prop where
  stored : ∃ files, state.storage = some files ∧ StoresLast root files (lastStored history)
  graphs : ∀ dag graph, state.dags.lookup dag = some graph → GraphReflects dag graph history

theorem lastStored_nothing {entry : ShyguyRequest × CommandResultType}
    (did : effect entry = .nothing) : lastStored (entry :: history) = lastStored history := by
  rw [lastStored, did]

theorem Reflects.nothing {entry : ShyguyRequest × CommandResultType}
    (reflects : Reflects root state history) (storage : after.storage = state.storage)
    (dags : after.dags = state.dags) (did : effect entry = .nothing) :
    Reflects root after (entry :: history) where
  stored := by
    rw [storage, lastStored_nothing did]
    exact reflects.stored
  graphs dag graph found := (reflects.graphs dag graph (dags ▸ found)).nothing did

theorem effect_failed (request : ShyguyRequest) (error : CommandError) :
    effect (request, .error error) = .nothing := by
  obtain ⟨data, command⟩ := request
  cases data <;> cases command <;> rfl

/-- A change of one graph leaves the others to what they reflect. -/
theorem Reflects.replace {dag : Str} {graph : DirectedAcyclicGraph Str}
    {entry : ShyguyRequest × CommandResultType} (reflects : Reflects root state history)
    (replaced : GraphReflects dag graph (entry :: history))
    (aside : ∀ other, other ≠ dag → ¬ (effect entry).Concerns other)
    (other : Str) (otherGraph : DirectedAcyclicGraph Str)
    (found : (state.dags.insert dag graph).lookup other = some otherGraph) :
    GraphReflects other otherGraph (entry :: history) := by
  by_cases same : other = dag
  · subst other
    rw [AList.lookup_insert] at found
    exact Option.some.inj found ▸ replaced
  · rw [AList.lookup_insert_ne same] at found
    exact (reflects.graphs other otherGraph found).aside (aside other same)

theorem Reflects.createDag (served : ServedBy root environment)
    (reflects : Reflects root state history) {dag : ShyguyDag} (plain : PlainName dag.name)
    (result : createDag environment state dag = .ok (after, answer)) :
    Reflects root after (({ data := .dag dag, command := .create }, answer) :: history) := by
  rcases createDag_cases result with
      ⟨rfl, rfl, _⟩ | ⟨storage, schedules, rfl, _, persisted, _, rfl⟩
  · exact reflects.nothing rfl rfl rfl
  · obtain ⟨files, attached, lasts⟩ := reflects.stored
    obtain ⟨_, dagDisk, _, _, reliable, _, isStorage⟩ := served
    rw [attached] at persisted
    obtain ⟨stored, outcome, called, noFault, rfl⟩ := persisted
    rw [isStorage] at called
    refine ⟨⟨stored, rfl, lasts.upsertDag reliable plain called noFault⟩, ?_⟩
    exact reflects.replace (.created rfl plain) fun other different same => different same.symm

theorem Reflects.removeDag (served : ServedBy root environment)
    (reflects : Reflects root state history) {dag : ShyguyDag} (plain : PlainName dag.name)
    (result : removeDag environment state dag = .ok (after, answer)) :
    Reflects root after (({ data := .dag dag, command := .remove }, answer) :: history) := by
  have did : effect ({ data := .dag dag, command := .remove }, answer) = .nothing := by
    cases answer <;> rfl
  rcases removeDag_cases result with ⟨rfl, _, _⟩ | ⟨storage, _, _, persisted, rfl⟩
  · exact reflects.nothing rfl rfl did
  · obtain ⟨files, attached, lasts⟩ := reflects.stored
    obtain ⟨_, dagDisk, _, _, reliable, _, isStorage⟩ := served
    rw [attached] at persisted
    obtain ⟨stored, outcome, called, _, rfl⟩ := persisted
    rw [isStorage] at called
    refine ⟨⟨stored, rfl, ?_⟩, ?_⟩
    · rw [lastStored_nothing did]
      exact lasts.eraseDag reliable plain called
    · intro other graph found
      by_cases same : other = dag.name
      · subst other
        rw [AList.lookup_erase] at found
        cases found
      · rw [AList.lookup_erase_ne same] at found
        exact (reflects.graphs other graph found).nothing did

theorem StoresLast.persisted {files : Files} {last : Str × Str → Option ShyguyTask}
    (lasts : StoresLast root files last) (served : ServedBy root environment) {task : ShyguyTask}
    {metadata : Option TaskMetadata} {storage : Option Files}
    (plain : PlainName task.associatedDag ∧ PlainName task.name)
    (persisted : TaskPersisted environment task metadata (some files) storage) :
    ∃ result, storage = some result ∧
      StoresLast root result
        (Function.update last (task.associatedDag, task.name) (some task)) := by
  obtain ⟨blobDisk, _, taskDisk, _, _, reliable, isStorage⟩ := served
  obtain ⟨prepared, blobId, preparation, persisted⟩ := persisted
  rw [isStorage] at preparation persisted
  have prepares : ∃ blobs, prepared = some blobs ∧ StoresLast root blobs last := by
    rcases preparation with rfl | ⟨store, content, blobs, outcome, same, called, rfl⟩
    · exact ⟨files, rfl, lasts⟩
    · cases same
      exact ⟨blobs, rfl, lasts.putBlob called⟩
  obtain ⟨blobs, rfl, blobLasts⟩ := prepares
  obtain ⟨result, outcome, called, noFault, rfl⟩ := persisted
  exact ⟨result, rfl, blobLasts.upsertTask reliable plain called noFault⟩

theorem Reflects.createTask (served : ServedBy root environment)
    (reflects : Reflects root state history) {task : ShyguyTask}
    (plain : PlainName task.associatedDag ∧ PlainName task.name)
    (result : createTask environment state task = .ok (after, answer)) :
    Reflects root after (({ data := .task task, command := .create }, answer) :: history) := by
  obtain ⟨graph, extended, inserted, storage, found, pushed, rfl, failed, succeeded⟩ :=
    createTask_cases result
  have reflected := reflects.graphs task.associatedDag graph found
  have step : DirectedAcyclicGraph.StepMentionedOnce graph extended := by
    refine ⟨.pushTask environment.traversal task.name task.dependencyNames, ?_, ?_⟩
    · rw [DirectedAcyclicGraph.Call.apply, pushed]
      rfl
    · intro _ impossible
      cases impossible
  have refused : ∀ error, inserted = .error error → extended.table = graph.table →
      Reflects root { state with
        taskMap := state.taskMap.insert task.name task
        dags := state.dags.insert task.associatedDag extended
        storage := storage } (({ data := .task task, command := .create }, answer) :: history) := by
    intro error isError same
    obtain ⟨rfl, rfl⟩ := failed error isError
    refine ⟨?_, ?_⟩
    · rw [lastStored_nothing rfl]
      exact reflects.stored
    · exact reflects.replace ((reflected.replaced step same).nothing rfl) fun _ _ => id
  rcases DirectedAcyclicGraph.pushTask_cases pushed with
      ⟨_, rfl, isError⟩ | ⟨_, same, isError, _⟩ | ⟨fresh, isOk, isExtended, _⟩
  · exact refused _ isError rfl
  · exact refused _ isError same
  · obtain ⟨rfl, metadata, persisted⟩ := succeeded isOk
    obtain ⟨files, attached, lasts⟩ := reflects.stored
    rw [attached] at persisted
    obtain ⟨more, rfl, moreLasts⟩ := StoresLast.persisted lasts served plain persisted
    refine ⟨⟨more, rfl, moreLasts⟩, ?_⟩
    refine reflects.replace (reflected.inserted rfl plain.2 step fresh ?_) fun other different same =>
      different same.symm
    intro name
    subst isExtended
    rw [DirectedAcyclicGraph.contains_iff_mem_keys, ← AList.mem_keys, AList.mem_insert,
      DirectedAcyclicGraph.contains_iff_mem_keys, ← AList.mem_keys]

theorem removeTask_contains {graph : DirectedAcyclicGraph Str} {taskName : Str}
    (removed : (graph.removeTask taskName).2 = .ok ()) (name : Str) :
    graph.contains taskName = true ∧
      ((graph.removeTask taskName).1.contains name = true ↔
        name ≠ taskName ∧ graph.contains name = true) := by
  have present : graph.contains taskName = true := by
    by_contra absent
    rw [DirectedAcyclicGraph.removeTask, if_neg absent] at removed
    cases removed
  refine ⟨present, ?_⟩
  constructor
  · intro contained
    rw [DirectedAcyclicGraph.contains_iff_table, DirectedAcyclicGraph.removeTask_table,
      if_pos present] at contained
    by_cases same : name = taskName
    · simp [same] at contained
    · simp only [same, if_false] at contained
      obtain ⟨_, entry⟩ := contained
      obtain ⟨listed, listedEntry, _⟩ := Option.map_eq_some_iff.mp entry
      exact ⟨same, DirectedAcyclicGraph.contains_iff_table.mpr ⟨listed, listedEntry⟩⟩
  · intro kept
    exact DirectedAcyclicGraph.contains_removeTask kept.2 kept.1

theorem Reflects.removeTask (served : ServedBy root environment)
    (reflects : Reflects root state history) {task : ShyguyTask}
    (plain : PlainName task.associatedDag ∧ PlainName task.name)
    (once : ∀ graph, state.dags.lookup task.associatedDag = some graph →
      graph.contains task.name = true → graph.MentionedOnce task.name)
    (result : removeTask environment state task = .ok (after, answer)) :
    Reflects root after (({ data := .task task, command := .remove }, answer) :: history) := by
  obtain ⟨files, attached, lasts⟩ := reflects.stored
  have erased : ∀ storage,
      Persisted (fun store =>
        environment.storage.eraseTask store task.associatedDag task.name none) state.storage
        storage →
      ∃ less, storage = some less ∧ StoresLast root less
        (Function.update (lastStored history) (task.associatedDag, task.name) none) := by
    intro storage persisted
    obtain ⟨_, _, taskDisk, _, _, reliable, isStorage⟩ := served
    rw [attached] at persisted
    obtain ⟨less, outcome, called, _, rfl⟩ := persisted
    rw [isStorage] at called
    exact ⟨less, rfl, lasts.eraseTask reliable plain called⟩
  obtain ⟨storage, missing, rfl, persisted, rfl⟩ | ⟨_, error, _, _, rfl, rfl⟩ |
    ⟨graph, storage, found, removed, rfl, persisted, rfl⟩ := removeTask_cases result
  · obtain ⟨less, rfl, lessLasts⟩ := erased storage persisted
    refine ⟨⟨less, rfl, lessLasts⟩, ?_⟩
    intro dag graph found
    refine (reflects.graphs dag graph found).aside ?_
    intro (same : task.associatedDag = dag)
    subst same
    cases missing.symm.trans found
  · exact reflects.nothing rfl rfl (effect_failed _ _)
  · obtain ⟨less, rfl, lessLasts⟩ := erased storage persisted
    refine ⟨⟨less, rfl, lessLasts⟩, ?_⟩
    have reflected := reflects.graphs task.associatedDag graph found
    have step : DirectedAcyclicGraph.StepMentionedOnce graph (graph.removeTask task.name).1 := by
      refine ⟨.removeTask task.name, rfl, ?_⟩
      intro _ same
      cases same
      exact once graph found
    exact reflects.replace (reflected.removed rfl step fun name => (removeTask_contains removed name).2)
      fun other different same => different same.symm

theorem Reflects.process {request : ShyguyRequest} (reflects : Reflects root state history)
    (admitted : RemovesListedOnce root history environment state request)
    (result : process environment state request = .ok (after, answer)) :
    Reflects root after ((request, answer) :: history) := by
  obtain ⟨served, plain, once⟩ := admitted
  obtain ⟨data, command⟩ := request
  cases data with
  | monostate =>
      cases result
      exact reflects.nothing rfl rfl (effect_failed _ _)
  | dag dag =>
      cases command with
      | create => exact reflects.createDag served plain result
      | remove => exact reflects.removeDag served plain result
      | execute =>
          obtain ⟨_, _, rfl⟩ := executeAt_eq result
          exact reflects.nothing rfl rfl rfl
      | _ =>
          cases result
          exact reflects.nothing rfl rfl (effect_failed _ _)
  | task task =>
      cases command with
      | create => exact reflects.createTask served plain result
      | remove => exact reflects.removeTask served plain (once task ⟨rfl, rfl⟩) result
      | execute =>
          obtain rfl := executeTask_eq result
          exact reflects.nothing rfl rfl rfl
      | _ =>
          cases result
          exact reflects.nothing rfl rfl (effect_failed _ _)

theorem Run.reflects {disk : DiskBehavior} (reliable : disk.Reliable) {files : Files}
    (empty : EmptyRoot root files)
    (run : Run (some (FsStorage.construct root disk files)) (RemovesListedOnce root) state history) :
    Reflects root state history := by
  induction run with
  | start =>
      refine ⟨⟨_, rfl, ?_⟩, ?_⟩
      · exact ⟨_, FsStorage.storesDocuments_construct reliable empty, fun _ _ => rfl⟩
      · intro dag graph found
        cases found
  | handle _ _ _ admitted result ih => exact ih.process admitted result

/-! ### Executions -/

theorem makeRunner_of_reflects (served : ServedBy root environment)
    (reflects : Reflects root state history) {dag name : Str}
    (plain : PlainName dag ∧ PlainName name) :
    makeRunner environment state dag name =
      .ok { name := name, contents := lastContent history dag name } := by
  obtain ⟨files, attached, lasts⟩ := reflects.stored
  obtain ⟨_, _, taskDisk, _, _, reliable, isStorage⟩ := served
  have isRead : environment.storage.getTask = FsStorage.getTask root taskDisk := by
    rw [isStorage]
    rfl
  cases last : lastStored history (dag, name) with
  | none =>
      have read := lasts.getTask_absent reliable plain last
      simp only [makeRunner, attached, isRead, read, lastContent, last]
      rfl
  | some task =>
      obtain ⟨entry, read, rfl⟩ := lasts.getTask_stored reliable plain last
      simp only [makeRunner, attached, isRead, read, lastContent, last]
      rfl

/-- An execution enqueues one request: a runner for each key of the graph, the
DAG's own name among them until a removal has named it. -/
theorem executeAt_of_reflects (served : ServedBy root environment)
    (reflects : Reflects root state history) {dag : ShyguyDag} (present : dag.name ∈ state.dags)
    (scheduledTime : Int) :
    ∃ (graph : DirectedAcyclicGraph Str) (order : List Str),
      state.dags.lookup dag.name = some graph ∧ order.Nodup ∧
      (∀ name, name ∈ order ↔ Current dag.name name history ∨
        name = dag.name ∧ ¬ OwnNameRemoved dag.name history) ∧
      executeAt environment state dag scheduledTime =
        .ok ({ state with
                requestQueue := state.requestQueue ++ [{
                  scheduledTime := scheduledTime
                  sequence := state.taskRequestSequence
                  payload := {
                    taskRunners := order.map fun name =>
                      { name := name, contents := lastContent history dag.name name }
                    dag := graph } }]
                taskRequestSequence := (state.taskRequestSequence + 1) % 2 ^ 64 },
              .error .notCurrentlySupported) := by
  obtain ⟨graph, found⟩ := Option.isSome_iff_exists.mp (AList.lookup_isSome.mpr present)
  have reflected := reflects.graphs dag.name graph found
  have closed := DirectedAcyclicGraph.run_closed reflected.reached
  have acyclic := DirectedAcyclicGraph.run_acyclic (Relation.ReflTransGen.mono
    (fun _ _ step => step.imp fun _ => And.left) _ _ reflected.reached)
  have perm := environment.traversal.perm graph.adjacencyList
  obtain ⟨sorted, ordered, exact⟩ := DirectedAcyclicGraph.topologicalSort_exact closed perm
  cases sorted with
  | none => exact absurd acyclic (exact.mp rfl)
  | some order =>
      have keysPerm := (DirectedAcyclicGraph.topologicalSort_some perm ordered).1
      have members : ∀ name, name ∈ order ↔ Current dag.name name history ∨
          name = dag.name ∧ ¬ OwnNameRemoved dag.name history := by
        intro name
        rw [keysPerm.mem_iff, ← DirectedAcyclicGraph.contains_iff_mem_keys]
        exact reflected.keys name
      have collected : order.mapM (makeRunner environment state dag.name) =
          .ok (order.map fun name =>
            { name := name, contents := lastContent history dag.name name }) := by
        apply mapM_of_forall
        intro name listed
        apply makeRunner_of_reflects served reflects
        refine ⟨reflected.plain, ?_⟩
        rcases (members name).mp listed with current | ⟨rfl, _⟩
        · exact reflected.plainTasks name current
        · exact reflected.plain
      refine ⟨graph, order, found, keysPerm.nodup_iff.mpr graph.adjacencyList.nodupKeys, members, ?_⟩
      simp only [executeAt, found, DirectedAcyclicGraph.runOrder, ordered, collected]

/-- In every run, an execution has runners for the current tasks alone exactly
when a removal has named the DAG itself since it was created. -/
theorem run_executes_current {disk : DiskBehavior} (reliable : disk.Reliable) {files : Files}
    (empty : EmptyRoot root files)
    (run : Run (some (FsStorage.construct root disk files)) (RemovesListedOnce root) state history)
    (served : ServedBy root environment) {dag : ShyguyDag} (present : dag.name ∈ state.dags)
    (scheduledTime : Int) :
    ExecutesCurrent environment state history dag scheduledTime ↔
      OwnNameRemoved dag.name history := by
  have reflects := run.reflects reliable empty
  obtain ⟨graph, order, found, nodup, members, executed⟩ :=
    executeAt_of_reflects served reflects present scheduledTime
  have names : (order.map fun name : Str => ({
      name := name
      contents := lastContent history dag.name name } : TaskRunner Str)).map TaskRunner.name =
        order := by
    rw [List.map_map]
    exact List.map_id order
  constructor
  · intro executes
    obtain ⟨_, runners, _, same, _, current, _⟩ := executes
    have sameRunners := List.append_cancel_left (congrArg (fun handled =>
      ConcurrentShyguy.requestQueue (Prod.fst handled)) (Except.ok.inj (same.symm.trans executed)))
    obtain rfl := congrArg (fun request => request.payload.taskRunners)
      (List.singleton_inj.mp sameRunners)
    by_contra kept
    rw [names] at current
    have own := (current dag.name).mp ((members dag.name).mpr (.inr ⟨rfl, kept⟩))
    exact kept ((reflects.graphs dag.name graph found).own own)
  · intro ownRemoved
    refine ⟨graph, _, found, executed, names.symm ▸ nodup, ?_, ?_⟩
    · intro name
      rw [names, members]
      exact or_iff_left fun own => own.2 ownRemoved
    · intro runner member
      obtain ⟨name, _, rfl⟩ := List.mem_map.mp member
      rfl

/-- A DAG whose own name is removed before its one task is created. -/
theorem run_executes_current_etl :
    ∃ state history, Run (some FsStorage.freshFiles) (RemovesListedOnce FsStorage.dataRoot) state
        history ∧
      Current (ascii "etl") (ascii "extract") history ∧
      ExecutesCurrent fileEnvironment state history { name := ascii "etl", schedule := none } 7 := by
  have run : ∃ state history, Run (some FsStorage.freshFiles)
      (RemovesListedOnce FsStorage.dataRoot) state history ∧ ascii "etl" ∈ state.dags ∧
      Current (ascii "etl") (ascii "extract") history ∧
      OwnNameRemoved (ascii "etl") history := by
    refine ⟨_, _, .handle fileEnvironment (taskRequest .create (ascii "etl") (ascii "extract"))
      (.handle fileEnvironment (taskRequest .remove (ascii "etl") (ascii "etl"))
        (.handle fileEnvironment (etlRequest .create) .start
          ⟨servedBy_fileEnvironment, plainRequest_etl _, ?_⟩ rfl)
        ⟨servedBy_fileEnvironment, ?_, ?_⟩ rfl)
      ⟨servedBy_fileEnvironment, plainRequest_extract _, ?_⟩ rfl, ?_, ?_, ?_⟩
    · intro task held
      obtain ⟨⟨⟩, _⟩ := held
    · constructor <;> constructor <;> decide
    · intro task held graph found _
      obtain ⟨⟨⟩, _⟩ := held
      obtain rfl := Option.some.inj found
      exact DirectedAcyclicGraph.mentionedOnce_of_entries (by decide)
    · intro task held
      obtain ⟨_, ⟨⟩⟩ := held
    · decide +kernel
    · exact .inl ⟨rfl, rfl⟩
    · exact .inl ⟨rfl, rfl⟩
  obtain ⟨state, history, run, present, current, ownRemoved⟩ := run
  refine ⟨state, history, run, current, ?_⟩
  exact (run_executes_current DiskBehavior.reliable_reliable (FsStorage.emptyRoot_empty _) run
    servedBy_fileEnvironment present 7).mpr ownRemoved

/-- A DAG with one task: a runner of the DAG's own name is enqueued too. -/
theorem own_name_gets_runner :
    ∃ state history, Run (some FsStorage.freshFiles) (RemovesListedOnce FsStorage.dataRoot) state
        history ∧
      ascii "etl" ∈ state.dags ∧ ¬ Current (ascii "etl") (ascii "etl") history ∧
      ¬ ExecutesCurrent fileEnvironment state history
        { name := ascii "etl", schedule := none } 7 := by
  have run : ∃ state history, Run (some FsStorage.freshFiles)
      (RemovesListedOnce FsStorage.dataRoot) state history ∧ ascii "etl" ∈ state.dags ∧
      ¬ Current (ascii "etl") (ascii "etl") history ∧
      (executeAt fileEnvironment state { name := ascii "etl", schedule := none } 7).map
          (fun handled => handled.1.requestQueue.map fun request =>
            request.payload.taskRunners.map TaskRunner.name) =
        .ok [[ascii "etl", ascii "extract"]] ∧ state.requestQueue = [] := by
    refine ⟨_, _, .handle fileEnvironment (taskRequest .create (ascii "etl") (ascii "extract"))
      (.handle fileEnvironment (etlRequest .create) .start
        ⟨servedBy_fileEnvironment, plainRequest_etl _, ?_⟩ rfl)
      ⟨servedBy_fileEnvironment, plainRequest_extract _, ?_⟩ rfl, ?_, ?_, rfl, rfl⟩
    · intro task held
      obtain ⟨⟨⟩, _⟩ := held
    · intro task held
      obtain ⟨_, ⟨⟩⟩ := held
    · decide +kernel
    · rintro (⟨_, impossible⟩ | ⟨impossible, _⟩)
      · exact absurd impossible (by decide)
      · exact impossible rfl
  obtain ⟨state, history, run, present, noTask, executed, noneQueued⟩ := run
  refine ⟨state, history, run, present, noTask, ?_⟩
  rintro ⟨graph, runners, _, same, _, current, _⟩
  rw [same, noneQueued] at executed
  have names : runners.map TaskRunner.name = [ascii "etl", ascii "extract"] :=
    (List.singleton_inj.mp (Except.ok.inj executed))
  exact noTask ((current _).mp (by simp [names]))

end BabyLuigi.ConcurrentShyguy
