import BabyLuigi.ExecutedTasksProperties
import BabyLuigi.ExecutionerTerminationProperties

/-! From the requests that were answered to the tasks that an execution runs,
in which order and with which contents. -/

set_option autoImplicit false

namespace BabyLuigi

/-- A removal of a name that no list repeats leaves the other dependencies. -/
theorem DirectedAcyclicGraph.depends_removeTask {Name : Type} [DecidableEq Name]
    {graph : DirectedAcyclicGraph Name} {taskName name dependency : Name}
    (once : graph.MentionedOnce taskName) (present : graph.contains taskName = true) :
    (graph.removeTask taskName).1.table.Depends name dependency ↔
      name ≠ taskName ∧ dependency ≠ taskName ∧ graph.table.Depends name dependency := by
  constructor
  · intro edge
    obtain ⟨listed, lists, member⟩ := edge
    rw [removeTask_table, if_pos present] at lists
    by_cases same : name = taskName
    · simp [same] at lists
    · rw [if_neg same] at lists
      obtain ⟨dependencies, earlier, rfl⟩ := Option.map_eq_some_iff.mp lists
      refine ⟨same, ?_, dependencies, earlier, List.mem_of_mem_erase member⟩
      rintro rfl
      have remaining := List.count_pos_iff.mpr member
      rw [List.count_erase_self] at remaining
      have counted := once name dependencies same earlier
      omega
  · rintro ⟨different, kept, dependencies, earlier, member⟩
    refine ⟨dependencies.erase taskName, ?_, (List.mem_erase_of_ne kept).mpr member⟩
    rw [removeTask_table, if_pos present, if_neg different, earlier]
    rfl

namespace ConcurrentShyguy

/-- The task was last created with the dependency, and neither of the two has
been removed since. -/
def DependsOn (dag name dependency : Str) : History → Prop
  | [] => False
  | entry :: rest =>
    match effect entry with
    | .createdDag other => other ≠ dag ∧ DependsOn dag name dependency rest
    | .createdTask task =>
      if task.associatedDag = dag ∧ task.name = name then
        dependency ∈ task.dependencyNames.getD []
      else DependsOn dag name dependency rest
    | .removedTask task =>
      ¬ (task.associatedDag = dag ∧ (task.name = name ∨ task.name = dependency)) ∧
        DependsOn dag name dependency rest
    | .nothing => DependsOn dag name dependency rest

theorem dependsOn_aside {entry : ShyguyRequest × CommandResultType} {dag : Str} {history : History}
    (aside : ¬ (effect entry).Concerns dag) (name dependency : Str) :
    DependsOn dag name dependency (entry :: history) ↔ DependsOn dag name dependency history := by
  rw [DependsOn]
  cases did : effect entry <;> simp_all [Effect.Concerns]

/-! ### The graphs after one request -/

section Graphs

variable {Store : Type} {environment : Environment Store} {state after : ConcurrentShyguy Store}
  {answer : CommandResultType} {dag : Str} {graph : DirectedAcyclicGraph Str}

/-- Where the graph of a DAG comes from after an answered request. -/
inductive GraphChange (state : ConcurrentShyguy Store) (entry : ShyguyRequest × CommandResultType)
    (dag : Str) (graph : DirectedAcyclicGraph Str) : Prop where
  | kept {before : DirectedAcyclicGraph Str} :
      state.dags.lookup dag = some before → graph.table = before.table →
      ¬ (effect entry).Concerns dag → GraphChange state entry dag graph
  | created :
      effect entry = .createdDag dag → graph = .ofName dag → GraphChange state entry dag graph
  | inserted {before : DirectedAcyclicGraph Str} {task : ShyguyTask} :
      state.dags.lookup dag = some before → effect entry = .createdTask task →
      task.associatedDag = dag → ¬ before.contains task.name = true →
      (∀ name, graph.table name =
        if name = task.name then some (task.dependencyNames.getD []) else before.table name) →
      GraphChange state entry dag graph
  | removed {before : DirectedAcyclicGraph Str} {task : ShyguyTask} :
      state.dags.lookup dag = some before → effect entry = .removedTask task →
      task.associatedDag = dag → before.contains task.name = true →
      graph = (before.removeTask task.name).1 → GraphChange state entry dag graph

theorem GraphChange.of_nothing {entry : ShyguyRequest × CommandResultType}
    (same : after.dags = state.dags) (did : effect entry = .nothing)
    (found : after.dags.lookup dag = some graph) : GraphChange state entry dag graph :=
  .kept (same ▸ found) rfl (by simp [did, Effect.Concerns])

theorem createDag_graph {created : ShyguyDag}
    (result : createDag environment state created = .ok (after, answer))
    (found : after.dags.lookup dag = some graph) :
    GraphChange state ({ data := .dag created, command := .create }, answer) dag graph := by
  rcases createDag_cases result with ⟨rfl, rfl, _⟩ | ⟨_, _, rfl, _, _, _, rfl⟩
  · exact .of_nothing rfl (effect_failed _ _) found
  · by_cases same : dag = created.name
    · subst dag
      rw [AList.lookup_insert] at found
      exact .created rfl (Option.some.inj found).symm
    · rw [AList.lookup_insert_ne same] at found
      exact .kept found rfl fun concerned => same concerned.symm

theorem removeDag_graph {removed : ShyguyDag}
    (result : removeDag environment state removed = .ok (after, answer))
    (found : after.dags.lookup dag = some graph) :
    GraphChange state ({ data := .dag removed, command := .remove }, answer) dag graph := by
  have did : effect ({ data := .dag removed, command := .remove }, answer) = .nothing := by
    cases answer <;> rfl
  rcases removeDag_cases result with ⟨rfl, _, _⟩ | ⟨_, _, _, _, rfl⟩
  · exact .of_nothing rfl did found
  · by_cases same : dag = removed.name
    · subst dag
      rw [AList.lookup_erase] at found
      cases found
    · rw [AList.lookup_erase_ne same] at found
      exact .kept found rfl (by simp [did, Effect.Concerns])

theorem createTask_graph {task : ShyguyTask}
    (result : createTask environment state task = .ok (after, answer))
    (found : after.dags.lookup dag = some graph) :
    GraphChange state ({ data := .task task, command := .create }, answer) dag graph := by
  obtain ⟨before, extended, inserted, _, held, pushed, rfl, failed, succeeded⟩ :=
    createTask_cases result
  dsimp only at found
  by_cases same : dag = task.associatedDag
  · subst dag
    rw [AList.lookup_insert] at found
    obtain rfl := Option.some.inj found
    have refused : ∀ error, inserted = .error error → extended.table = before.table →
        GraphChange state ({ data := .task task, command := .create }, answer)
          task.associatedDag extended := by
      intro error isError sameTable
      obtain ⟨_, rfl⟩ := failed error isError
      exact .kept held sameTable (by simp [effect_failed, Effect.Concerns])
    rcases DirectedAcyclicGraph.pushTask_cases pushed with
        ⟨_, rfl, isError⟩ | ⟨_, sameTable, isError, _⟩ | ⟨fresh, isOk, isExtended, _⟩
    · exact refused _ isError rfl
    · exact refused _ isError sameTable
    · obtain ⟨rfl, _⟩ := succeeded isOk
      refine .inserted held rfl rfl fresh ?_
      intro name
      subst isExtended
      split
      · subst name
        exact AList.lookup_insert _
      · exact AList.lookup_insert_ne ‹_›
  · rw [AList.lookup_insert_ne same] at found
    refine .kept found rfl ?_
    cases answer with
    | error error => simp [effect_failed, Effect.Concerns]
    | ok text => exact fun concerned => same concerned.symm

theorem removeTask_graph {task : ShyguyTask}
    (result : removeTask environment state task = .ok (after, answer))
    (found : after.dags.lookup dag = some graph) :
    GraphChange state ({ data := .task task, command := .remove }, answer) dag graph := by
  obtain ⟨_, missing, rfl, _, rfl⟩ | ⟨_, _, _, _, rfl, rfl⟩ |
    ⟨before, _, held, removed, rfl, _, rfl⟩ := removeTask_cases result
  · refine .kept found rfl ?_
    intro (same : task.associatedDag = dag)
    subst same
    cases missing.symm.trans found
  · exact .of_nothing rfl (effect_failed _ _) found
  · dsimp only at found
    by_cases same : dag = task.associatedDag
    · subst dag
      rw [AList.lookup_insert] at found
      exact .removed held rfl rfl (removeTask_contains removed task.name).1
        (Option.some.inj found).symm
    · rw [AList.lookup_insert_ne same] at found
      exact .kept found rfl fun concerned => same concerned.symm

theorem process_graph {request : ShyguyRequest}
    (result : process environment state request = .ok (after, answer))
    (found : after.dags.lookup dag = some graph) :
    GraphChange state (request, answer) dag graph := by
  obtain ⟨data, command⟩ := request
  cases data with
  | monostate =>
      cases result
      exact .of_nothing rfl (effect_failed _ _) found
  | dag other =>
      cases command with
      | create => exact createDag_graph result found
      | remove => exact removeDag_graph result found
      | execute =>
          obtain ⟨_, _, rfl⟩ := executeAt_eq result
          exact .of_nothing rfl rfl found
      | _ =>
          cases result
          exact .of_nothing rfl (effect_failed _ _) found
  | task task =>
      cases command with
      | create => exact createTask_graph result found
      | remove => exact removeTask_graph result found
      | execute =>
          obtain rfl := executeTask_eq result
          exact .of_nothing rfl rfl found
      | _ =>
          cases result
          exact .of_nothing rfl (effect_failed _ _) found

end Graphs

/-! ### Dependencies -/

/-- The dependencies in the graph are those of the requests answered so far. -/
def GraphDepends (dag : Str) (graph : DirectedAcyclicGraph Str) (history : History) : Prop :=
  ∀ name dependency, graph.table.Depends name dependency ↔ DependsOn dag name dependency history

section Dependencies

variable {graph : DirectedAcyclicGraph Str} {history : History} {dag : Str}
  {entry : ShyguyRequest × CommandResultType} {task : ShyguyTask}

theorem GraphDepends.created (did : effect entry = .createdDag dag) :
    GraphDepends dag (.ofName dag) (entry :: history) := by
  intro name dependency
  rw [DependsOn, did]
  constructor
  · rintro ⟨listed, lists, member⟩
    rw [DirectedAcyclicGraph.table_ofName] at lists
    split at lists
    · cases lists
      cases member
    · cases lists
  · exact fun created => absurd rfl created.1

theorem GraphDepends.inserted (depends : GraphDepends dag graph history)
    (did : effect entry = .createdTask task) (own : task.associatedDag = dag)
    {extended : DirectedAcyclicGraph Str}
    (table : ∀ name, extended.table name =
      if name = task.name then some (task.dependencyNames.getD []) else graph.table name) :
    GraphDepends dag extended (entry :: history) := by
  intro name dependency
  rw [DependsOn, did]
  by_cases same : name = task.name
  · subst name
    simp [DependencyTable.Depends, table, own]
  · have later : ¬ (task.associatedDag = dag ∧ task.name = name) := fun both => same both.2.symm
    simp only [if_neg later, ← depends name dependency, DependencyTable.Depends, table, if_neg same]

theorem GraphDepends.removed (depends : GraphDepends dag graph history)
    (did : effect entry = .removedTask task) (own : task.associatedDag = dag)
    (once : graph.MentionedOnce task.name) (present : graph.contains task.name = true) :
    GraphDepends dag (graph.removeTask task.name).1 (entry :: history) := by
  intro name dependency
  rw [DependsOn, did, DirectedAcyclicGraph.depends_removeTask once present, depends name dependency]
  simp only [own, true_and, not_or, @eq_comm _ task.name, and_assoc, ne_eq]

theorem GraphDepends.aside (depends : GraphDepends dag graph history)
    (aside : ¬ (effect entry).Concerns dag) {same : DirectedAcyclicGraph Str}
    (table : same.table = graph.table) : GraphDepends dag same (entry :: history) := by
  intro name dependency
  rw [dependsOn_aside aside, table]
  exact depends name dependency

end Dependencies

variable {root : StoreRoot} {environment : Environment Files}
  {state after : ConcurrentShyguy Files} {history : History}

theorem effect_removedTask {request : ShyguyRequest} {answer : CommandResultType}
    {task : ShyguyTask} (did : effect (request, answer) = .removedTask task) :
    AsksTask .remove task request := by
  obtain ⟨data, command⟩ := request
  cases answer with
  | error error =>
      rw [effect_failed] at did
      cases did
  | ok text =>
      cases data with
      | monostate => cases command <;> cases did
      | dag dag => cases command <;> cases did
      | task other =>
          cases command with
          | remove =>
              cases did
              exact ⟨rfl, rfl⟩
          | _ => cases did

theorem Run.graphDepends {storage : Option Files}
    (run : Run storage (RemovesListedOnce root) state history) :
    ∀ dag graph, state.dags.lookup dag = some graph → GraphDepends dag graph history := by
  induction run with
  | start =>
      intro dag graph found
      cases found
  | handle environment request _ admitted result ih =>
      intro dag graph found
      cases process_graph result found with
      | kept held table aside => exact (ih dag _ held).aside aside table
      | created did isNew =>
          subst isNew
          exact .created did
      | inserted held did own _ table => exact (ih dag _ held).inserted did own table
      | removed held did own present isReduced =>
          subst isReduced
          subst own
          exact (ih _ _ held).removed did rfl
            (admitted.once _ (effect_removedTask did) _ held present) present

/-! ### Executions -/

open ShyExecutioner (Execution Event Reachable ReachableRunning startedNames finishedNames)

/-- The names that an execution of the DAG runs: its tasks, and the name of the
DAG itself until a removal has named it. -/
def Runs (history : History) (dag name : Str) : Prop :=
  Current dag name history ∨ name = dag ∧ ¬ OwnNameRemoved dag history

/-- What the waves of a payload run, for every limit, every iteration and
completion order and every reading of the flag, in terms of the requests. -/
structure FollowsHistory (history : History) (dag : Str) (payload : TaskRequestPayload Str) :
    Prop where
  once : ∀ limit execution, Reachable payload limit execution →
    (startedNames execution.log).Nodup
  contents : ∀ limit execution, Reachable payload limit execution →
    ∀ name runner, Event.started name runner ∈ execution.log → Runs history dag name ∧
      payload.taskRunners[runner]? = some
        { name := name, contents := lastContent history dag name }
  order : ∀ limit execution, Reachable payload limit execution →
    ∀ later name runner past, execution.log = later ++ .started name runner :: past →
      ∀ dependency, DependsOn dag name dependency history → dependency ∈ finishedNames past
  ends : ∀ limit running, Acc (fun after before =>
    ShyExecutioner.Step payload limit running before after) (Execution.initial payload)
  proceeds : ∀ limit running execution, Reachable payload limit execution →
    execution.phase.isOver = false →
    ∃ after, ShyExecutioner.Step payload limit running execution after ∧
      (limit ≤ ShyExecutioner.maxSize → after.phase ≠ .threw)
  complete : ∀ limit execution, ReachableRunning payload limit execution →
    execution.phase = .stopped →
    ∀ name, name ∈ finishedNames execution.log ↔ Runs history dag name

theorem acyclic_of_stepMentionedOnce {dag : Str} {graph : DirectedAcyclicGraph Str}
    (run : Relation.ReflTransGen DirectedAcyclicGraph.StepMentionedOnce
      (DirectedAcyclicGraph.ofName dag) graph) : graph.table.Acyclic := by
  induction run with
  | refl => exact DirectedAcyclicGraph.acyclic_ofName dag
  | tail _ step ih =>
      obtain ⟨call, applied, _⟩ := step
      exact DirectedAcyclicGraph.Step.acyclic ⟨call, applied⟩ ih

theorem followsHistory {dag : Str} {graph : DirectedAcyclicGraph Str} {order : List Str}
    (reflects : GraphReflects dag graph history) (depends : GraphDepends dag graph history)
    (members : ∀ name, name ∈ order ↔ Runs history dag name) :
    FollowsHistory history dag {
      taskRunners := order.map fun name =>
        { name := name, contents := lastContent history dag name }
      dag := graph } := by
  have named : ∀ name, name ∈ ShyExecutioner.runnerNames {
      taskRunners := order.map fun name =>
        { name := name, contents := lastContent history dag name }
      dag := graph } ↔ Runs history dag name := by
    intro name
    rw [← members, ShyExecutioner.runnerNames, List.mem_toFinset, List.map_map]
    exact iff_of_eq (congrArg (name ∈ ·) (List.map_id order))
  refine ⟨?_, ?_, ?_, fun limit => ShyExecutioner.acc_initial _ limit,
    fun _ running _ reachable => reachable.invariant.exists_step_flag running, ?_⟩
  · intro limit execution reachable
    exact reachable.invariant.startedNodup
  · intro limit execution reachable name runner started
    have indexed := ShyExecutioner.name_of_lookup_byName
      (reachable.invariant.runners name runner started)
    obtain ⟨_, found, rfl⟩ := Option.map_eq_some_iff.mp indexed
    obtain ⟨listed, isListed, rfl⟩ := List.mem_map.mp (List.mem_of_getElem? found)
    exact ⟨(members listed).mp isListed, found⟩
  · intro limit execution reachable later name runner past log dependency dependsOn
    have ordered : ShyExecutioner.DependenciesFirst graph.table (.started name runner :: past) :=
      .of_append (log ▸ reachable.invariant.ordered)
    exact ordered.1 dependency ((depends name dependency).mpr dependsOn)
  · intro limit execution reachable stopped name
    have wellFormed : ShyExecutioner.WellFormed {
        taskRunners := order.map fun name =>
          { name := name, contents := lastContent history dag name }
        dag := graph } := by
      refine ⟨acyclic_of_stepMentionedOnce reflects.reached,
        DirectedAcyclicGraph.run_closed reflects.reached, ?_⟩
      ext other
      rw [named, List.mem_toFinset, ← DirectedAcyclicGraph.contains_iff_mem_keys]
      exact reflects.keys other
    rw [reachable.finished_iff_runnerNames stopped wellFormed, named]

/-- In every run of requests on reliable disks, executing a DAG enqueues a
payload whose waves run its tasks: each once, with a runner that carries the
content stored last, after the dependencies it was created with and that are
still there. They end, and have then run all of them unless the flag was cleared
or a `reserve` has thrown. -/
theorem execution_follows_history {disk : DiskBehavior} (reliable : disk.Reliable) {files : Files}
    (empty : FsStorage.EmptyRoot root files)
    (run : Run (some (FsStorage.construct root disk files)) (RemovesListedOnce root) state history)
    (served : ServedBy root environment) {dag : ShyguyDag} (present : dag.name ∈ state.dags)
    (scheduledTime : Int) :
    ∃ payload, FollowsHistory history dag.name payload ∧
      executeAt environment state dag scheduledTime =
        .ok ({ state with
                requestQueue := state.requestQueue ++ [{
                  scheduledTime := scheduledTime
                  sequence := state.taskRequestSequence
                  payload := payload }]
                taskRequestSequence := (state.taskRequestSequence + 1) % 2 ^ 64 },
              .error .notCurrentlySupported) := by
  have reflects := run.reflects reliable empty
  obtain ⟨graph, order, found, _, members, executed⟩ :=
    executeAt_of_reflects served reflects present scheduledTime
  exact ⟨_, followsHistory (reflects.graphs dag.name graph found)
    (run.graphDepends dag.name graph found) members, executed⟩

def loadRequest : ShyguyRequest where
  data := .task { FsStorage.bareTask (ascii "etl") (ascii "load") with
    dependencyNames := some [ascii "extract"] }
  command := .create

/-- A DAG of two tasks, of which one depends on the other. -/
theorem execution_follows_history_etl :
    ∃ state history payload, Run (some FsStorage.freshFiles) (RemovesListedOnce FsStorage.dataRoot)
        state history ∧
      DependsOn (ascii "etl") (ascii "load") (ascii "extract") history ∧
      FollowsHistory history (ascii "etl") payload := by
  have run : ∃ state history, Run (some FsStorage.freshFiles)
      (RemovesListedOnce FsStorage.dataRoot) state history ∧ ascii "etl" ∈ state.dags ∧
      DependsOn (ascii "etl") (ascii "load") (ascii "extract") history := by
    refine ⟨_, _, .handle fileEnvironment loadRequest
      (.handle fileEnvironment (taskRequest .create (ascii "etl") (ascii "extract"))
        (.handle fileEnvironment (etlRequest .create) .start
          ⟨servedBy_fileEnvironment, plainRequest_etl _, ?_⟩ rfl)
        ⟨servedBy_fileEnvironment, plainRequest_extract _, ?_⟩ rfl)
      ⟨servedBy_fileEnvironment, ?_, ?_⟩ rfl, ?_, ?_⟩
    · intro task held
      obtain ⟨⟨⟩, _⟩ := held
    · intro task held
      obtain ⟨_, ⟨⟩⟩ := held
    · constructor <;> constructor <;> decide
    · intro task held
      obtain ⟨_, ⟨⟩⟩ := held
    · decide +kernel
    · exact List.mem_singleton_self _
  obtain ⟨state, history, run, present, dependsOn⟩ := run
  have named : ({ name := ascii "etl", schedule := none } : ShyguyDag).name ∈ state.dags := present
  obtain ⟨payload, follows, _⟩ := execution_follows_history DiskBehavior.reliable_reliable
    (FsStorage.emptyRoot_empty _) run servedBy_fileEnvironment named 7
  exact ⟨state, history, payload, run, dependsOn, follows⟩

end ConcurrentShyguy

end BabyLuigi
