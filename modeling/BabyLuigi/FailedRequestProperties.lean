import BabyLuigi.ScheduleHistoryProperties
import BabyLuigi.Support.Except

/-! Requests that are answered by an error, and what they leave of the state.
Most handlers check before they write; two write first. -/

set_option autoImplicit false

namespace BabyLuigi.ConcurrentShyguy

variable {Store : Type} {environment : Environment Store} {state after : ConcurrentShyguy Store}

/-- A graph as its clients see it: the iteration order of its keys is left out. -/
def observed (graph : DirectedAcyclicGraph Str) : Str × DependencyTable Str :=
  (graph.rootName, graph.table)

/-- Two states that no later call tells apart. -/
structure Unchanged (before after : ConcurrentShyguy Store) : Prop where
  dags : ∀ name, (after.dags.lookup name).map observed = (before.dags.lookup name).map observed
  schedules : ∀ name, after.schedules.lookup name = before.schedules.lookup name
  taskMap : ∀ name, after.taskMap.lookup name = before.taskMap.lookup name
  storage : after.storage = before.storage
  requestQueue : after.requestQueue = before.requestQueue

theorem Unchanged.refl (state : ConcurrentShyguy Store) : Unchanged state state where
  dags _ := rfl
  schedules _ := rfl
  taskMap _ := rfl
  storage := rfl
  requestQueue := rfl

def AsksTask (command : CommandEnum) (task : ShyguyTask) (request : ShyguyRequest) : Prop :=
  request.data = .task task ∧ request.command = command

/-- The DAG exists, its tasks have an order, and each of them can be read. -/
def QueuesRun (environment : Environment Store) (state : ConcurrentShyguy Store)
    (dag : ShyguyDag) : Prop :=
  ∃ graph order, state.dags.lookup dag.name = some graph ∧
    graph.runOrder (environment.traversal.order graph.adjacencyList) = .ok (some order) ∧
    ∀ taskName ∈ order, ∃ runner, makeRunner environment state dag.name taskName = .ok runner

theorem executeAt_of_queuesRun {dag : ShyguyDag} (queues : QueuesRun environment state dag)
    (scheduledTime : Int) :
    ∃ request sequence, executeAt environment state dag scheduledTime =
      .ok ({ state with
              requestQueue := state.requestQueue ++ [request]
              taskRequestSequence := sequence }, .error .notCurrentlySupported) := by
  obtain ⟨graph, order, found, ordered, readable⟩ := queues
  obtain ⟨runners, collected⟩ := mapM_returns_iff.mpr readable
  simp only [executeAt, found, ordered, collected]
  exact ⟨_, _, rfl⟩

theorem executeAt_of_not_queuesRun {dag : ShyguyDag} {scheduledTime : Int}
    {answer : CommandResultType} (refuses : ¬ QueuesRun environment state dag)
    (result : executeAt environment state dag scheduledTime = .ok (after, answer)) :
    after = state := by
  unfold executeAt at result
  split at result
  · cases result
    rfl
  · rename_i graph found
    split at result
    · cases result
    · cases result
      rfl
    · rename_i order ordered
      split at result
      · cases result
      · rename_i runners collected
        exact absurd ⟨graph, order, found, ordered, mapM_returns_iff.mp ⟨runners, collected⟩⟩ refuses

theorem createTask_of_rejects {task : ShyguyTask} {graph : DirectedAcyclicGraph Str}
    (found : state.dags.lookup task.associatedDag = some graph)
    (rejects : graph.Rejects environment.traversal task.name task.dependencyNames) :
    ∃ extended error, createTask environment state task =
      .ok ({ state with
              taskMap := state.taskMap.insert task.name task
              dags := state.dags.insert task.associatedDag extended }, .error error) := by
  obtain ⟨extended, error, pushed⟩ := DirectedAcyclicGraph.rejects_iff_pushTask.mp rejects
  simp only [createTask, found, pushed]
  exact ⟨extended, _, rfl⟩

/-- A failed insertion puts back a graph that looks like the old one. -/
theorem createTask_unchanged {task : ShyguyTask} {error : CommandError}
    (result : createTask environment state task = .ok (after, .error error))
    (held : ∀ graph, state.dags.lookup task.associatedDag = some graph →
      graph.Rejects environment.traversal task.name task.dependencyNames →
      state.taskMap.lookup task.name = some task) : Unchanged state after := by
  obtain ⟨graph, extended, inserted, storage, found, pushed, rfl, failed, succeeded⟩ :=
    createTask_cases result
  cases inserted with
  | ok _ => cases (succeeded rfl).1
  | error rejection =>
      obtain ⟨rfl, _⟩ := failed rejection rfl
      have rejects := DirectedAcyclicGraph.rejects_iff_pushTask.mpr ⟨extended, rejection, pushed⟩
      have same : observed extended = observed graph := by
        rcases DirectedAcyclicGraph.pushTask_cases pushed with
            ⟨_, rfl, _⟩ | ⟨_, sameTable, _, sameRoot, _⟩ | ⟨_, impossible, _⟩
        · rfl
        · exact Prod.ext sameRoot sameTable
        · cases impossible
      refine ⟨?_, fun _ => rfl, ?_, rfl, rfl⟩
      · intro name
        by_cases named : name = task.associatedDag
        · subst name
          rw [AList.lookup_insert, found]
          exact congrArg some same
        · rw [AList.lookup_insert_ne named]
      · intro name
        by_cases named : name = task.name
        · subst name
          rw [AList.lookup_insert, held graph found rejects]
        · rw [AList.lookup_insert_ne named]

/-- The requests that an error leaves without a trace: no execution that
queues a run, and no creation that the graph rejects after the task has
replaced another one in `task_map`. -/
structure FailsCleanly (environment : Environment Store) (state : ConcurrentShyguy Store)
    (request : ShyguyRequest) : Prop where
  execution : ∀ dag, Asks .execute dag request → ¬ QueuesRun environment state dag
  creation : ∀ task, AsksTask .create task request → ∀ graph,
    state.dags.lookup task.associatedDag = some graph →
    graph.Rejects environment.traversal task.name task.dependencyNames →
    state.taskMap.lookup task.name = some task

def KeepsStateOnError (environment : Environment Store) (state : ConcurrentShyguy Store)
    (request : ShyguyRequest) : Prop :=
  ∀ after error, process environment state request = .ok (after, .error error) →
    Unchanged state after

theorem FailsCleanly.keepsStateOnError {request : ShyguyRequest}
    (clean : FailsCleanly environment state request) :
    KeepsStateOnError environment state request := by
  intro after error result
  unfold process at result
  split at result
  · cases result
    exact .refl state
  · rename_i dag isDag
    split at result
    · rcases createDag_cases result with ⟨rfl, _⟩ | ⟨_, _, impossible, _⟩
      · exact .refl _
      · cases impossible
    · rcases removeDag_cases result with ⟨rfl, _⟩ | ⟨_, impossible, _⟩
      · exact .refl _
      · cases impossible
    · obtain rfl := executeAt_of_not_queuesRun (clean.execution dag ⟨isDag, ‹_›⟩) result
      exact .refl _
    all_goals
      cases result
      exact .refl _
  · rename_i task isTask
    split at result
    · exact createTask_unchanged result (clean.creation task ⟨isTask, ‹_›⟩)
    · rcases removeTask_cases result with
          ⟨_, _, impossible, _⟩ | ⟨_, _, _, _, _, rfl⟩ | ⟨_, _, _, _, impossible, _⟩
      · cases impossible
      · exact .refl _
      · cases impossible
    · obtain rfl := executeTask_eq result
      exact .refl _
    all_goals
      cases result
      exact .refl _

theorem KeepsStateOnError.failsCleanly {request : ShyguyRequest}
    (keeps : KeepsStateOnError environment state request) :
    FailsCleanly environment state request where
  execution dag asked queues := by
    obtain ⟨isDag, isExecute⟩ := asked
    obtain ⟨queued, sequence, executed⟩ :=
      executeAt_of_queuesRun queues environment.steadyNow
    have returned : process environment state request = executeDag environment state dag := by
      simp only [process, isDag, isExecute]
    have grown := (keeps _ _ (returned.trans executed)).requestQueue
    simp at grown
  creation task asked graph found rejects := by
    obtain ⟨isTask, isCreate⟩ := asked
    obtain ⟨extended, error, created⟩ := createTask_of_rejects found rejects
    have returned : process environment state request = createTask environment state task := by
      simp only [process, isTask, isCreate]
    have replaced := (keeps _ _ (returned.trans created)).taskMap task.name
    rw [AList.lookup_insert] at replaced
    exact replaced.symm

/-- Exactly these requests leave the state as it was whenever they are answered
by an error. -/
theorem keepsStateOnError_iff {request : ShyguyRequest} :
    KeepsStateOnError environment state request ↔ FailsCleanly environment state request :=
  ⟨KeepsStateOnError.failsCleanly, FailsCleanly.keepsStateOnError⟩

def createTaskRequest (dagName taskName : Str) (content : Option Str) : ShyguyRequest where
  data := .task {
    name := taskName
    associatedDag := dagName
    type := none
    filename := none
    fileContent := content
    dependencyNames := none }
  command := .create

/-- The execution of an existing DAG queues its run and reports an error, and a
task that the graph refuses replaces the one of the same name. -/
theorem failed_requests_change_state :
    (∃ (state after : ConcurrentShyguy Unit) (history : History),
      Run none (fun _ _ _ _ => True) state history ∧
      process detachedEnvironment state (dagRequest .execute (ascii "etl") none) =
        .ok (after, .error .notCurrentlySupported) ∧
      state.requestQueue.length = 0 ∧ after.requestQueue.length = 1) ∧
    ∃ (state after : ConcurrentShyguy Unit) (history : History),
      Run none (fun _ _ _ _ => True) state history ∧
      process detachedEnvironment state
          (createTaskRequest (ascii "etl") (ascii "load") (some (ascii "new"))) =
        .ok (after, .error .containsDuplicates) ∧
      (state.taskMap.lookup (ascii "load")).bind ShyguyTask.fileContent = some (ascii "old") ∧
      (after.taskMap.lookup (ascii "load")).bind ShyguyTask.fileContent = some (ascii "new") := by
  refine ⟨⟨_, _, _, .handle detachedEnvironment (dagRequest .create (ascii "etl") none)
      .start trivial rfl, rfl, rfl, rfl⟩,
    ⟨_, _, _, .handle detachedEnvironment
        (createTaskRequest (ascii "etl") (ascii "load") (some (ascii "old")))
        (.handle detachedEnvironment (dagRequest .create (ascii "etl") none) .start trivial rfl)
        trivial rfl, rfl, ?_, ?_⟩⟩
  · decide
  · decide

end BabyLuigi.ConcurrentShyguy
