import BabyLuigi.ConcurrentShyguy
import BabyLuigi.GraphHistoryProperties

/-! What one request can do to the DAGs and schedules of the server, whatever
its storage does, and the runs of requests from the empty state. -/

set_option autoImplicit false

namespace BabyLuigi.ConcurrentShyguy

variable {Store : Type}

def Persisted {Value : Type} (call : Store → Store × Outcome Value) (before after : Option Store) :
    Prop :=
  match before with
  | none => after = none
  | some store => ∃ stored outcome, call store = (stored, outcome) ∧
      (∀ fault, outcome ≠ .exception fault) ∧ after = some stored

theorem persist_eq {Value : Type} {state after : ConcurrentShyguy Store}
    {call : Store → Store × Outcome Value} (result : state.persist call = .ok after) :
    ∃ storage, Persisted call state.storage storage ∧
      after = { state with storage := storage } := by
  unfold persist at result
  split at result
  · rename_i detached
    cases result
    exact ⟨state.storage, by rw [detached]; rfl, rfl⟩
  · rename_i store attached
    rw [attached]
    split at result
    · cases result
    · rename_i stored outcome noFault called
      cases result
      exact ⟨some stored, ⟨stored, outcome, called, noFault, rfl⟩, rfl⟩

theorem createDag_cases {environment : Environment Store} {state after : ConcurrentShyguy Store}
    {dag : ShyguyDag} {answer : CommandResultType}
    (result : createDag environment state dag = .ok (after, answer)) :
    (after = state ∧ answer = .error .dagDuplicate ∧ dag.name ∈ state.dags) ∨
    ∃ storage schedules,
      answer = .ok (ascii "created dag " ++ dag.name) ∧ dag.name ∉ state.dags ∧
      Persisted (fun store => environment.storage.upsertDag store dag none) state.storage
        storage ∧
      schedules = (match dag.schedule with
        | some schedule =>
          if hasSchedule dag then (UnorderedMap.emplace dag.name schedule state.schedules).1
          else state.schedules
        | none => state.schedules) ∧
      after = { state with
        dags := state.dags.insert dag.name (DirectedAcyclicGraph.ofName dag.name)
        schedules := schedules
        storage := storage } := by
  unfold createDag at result
  split at result
  · obtain ⟨rfl, rfl⟩ := Prod.mk.inj (Except.ok.inj result)
    exact .inl ⟨rfl, rfl, ‹_›⟩
  · rename_i absent
    rw [UnorderedMap.emplace_of_notMem absent] at result
    dsimp only at result
    split at result
    · cases result
    · rename_i persisted
      obtain ⟨rfl, rfl⟩ := Prod.mk.inj (Except.ok.inj result)
      obtain ⟨storage, stored, rfl⟩ := persist_eq persisted
      exact .inr ⟨storage, _, rfl, absent, stored, rfl, rfl⟩

theorem removeDag_cases {environment : Environment Store} {state after : ConcurrentShyguy Store}
    {dag : ShyguyDag} {answer : CommandResultType}
    (result : removeDag environment state dag = .ok (after, answer)) :
    (after = state ∧ answer = .error .dagDeletionFailed ∧ dag.name ∉ state.dags) ∨
    ∃ storage,
      answer = .ok (ascii "removed dag " ++ dag.name) ∧ dag.name ∈ state.dags ∧
      Persisted (fun store => environment.storage.eraseDag store dag.name none) state.storage
        storage ∧
      after = { state with
        dags := state.dags.erase dag.name
        schedules :=
          if hasSchedule dag then state.schedules.erase dag.name else state.schedules
        storage := storage } := by
  unfold removeDag at result
  split at result
  · dsimp only at result
    split at result
    · cases result
    · rename_i persisted
      obtain ⟨rfl, rfl⟩ := Prod.mk.inj (Except.ok.inj result)
      obtain ⟨storage, stored, rfl⟩ := persist_eq persisted
      exact .inr ⟨storage, rfl, ‹_›, stored, rfl⟩
  · obtain ⟨rfl, rfl⟩ := Prod.mk.inj (Except.ok.inj result)
    exact .inl ⟨rfl, rfl, ‹_›⟩

theorem executeAt_eq {environment : Environment Store} {state after : ConcurrentShyguy Store}
    {dag : ShyguyDag} {scheduledTime : Int} {answer : CommandResultType}
    (result : executeAt environment state dag scheduledTime = .ok (after, answer)) :
    ∃ queue sequence,
      after = { state with requestQueue := queue, taskRequestSequence := sequence } := by
  unfold executeAt at result
  split at result
  · cases result
    exact ⟨_, _, rfl⟩
  · split at result
    · cases result
    · cases result
      exact ⟨_, _, rfl⟩
    · split at result
      · cases result
      · cases result
        exact ⟨_, _, rfl⟩

/-- What storing a task leaves: at most a blob goes before it. -/
def TaskPersisted (environment : Environment Store) (task : ShyguyTask)
    (metadata : Option TaskMetadata) (before after : Option Store) : Prop :=
  ∃ (prepared : Option Store) (blobId : Option Str),
    (prepared = before ∨ ∃ store content stored outcome, before = some store ∧
      environment.storage.putBlob store content = (stored, outcome) ∧ prepared = some stored) ∧
    Persisted (fun store => environment.storage.upsertTask store task blobId none metadata)
      prepared after

theorem persistTask_eq {environment : Environment Store} {state after : ConcurrentShyguy Store}
    {task : ShyguyTask} {metadata : Option TaskMetadata}
    (result : persistTask environment state task metadata = .ok after) :
    ∃ storage, TaskPersisted environment task metadata state.storage storage ∧
      after = { state with storage := storage } := by
  unfold persistTask at result
  split at result
  · rename_i store content _ attached _ _
    split at result
    · cases result
    · rename_i called
      obtain ⟨storage, stored, rfl⟩ := persist_eq result
      exact ⟨storage, ⟨_, _, .inr ⟨store, content, _, _, attached, called, rfl⟩, stored⟩, rfl⟩
    · rename_i called
      obtain ⟨storage, stored, rfl⟩ := persist_eq result
      exact ⟨storage, ⟨_, _, .inr ⟨store, content, _, _, attached, called, rfl⟩, stored⟩, rfl⟩
  · obtain ⟨storage, stored, rfl⟩ := persist_eq result
    exact ⟨storage, ⟨_, _, .inl rfl, stored⟩, rfl⟩

theorem createTask_cases {environment : Environment Store} {state after : ConcurrentShyguy Store}
    {task : ShyguyTask} {answer : CommandResultType}
    (result : createTask environment state task = .ok (after, answer)) :
    ∃ dag extended inserted storage,
      state.dags.lookup task.associatedDag = some dag ∧
      dag.pushTask environment.traversal task.name task.dependencyNames = .ok (extended, inserted) ∧
      after = { state with
        taskMap := state.taskMap.insert task.name task
        dags := state.dags.insert task.associatedDag extended
        storage := storage } ∧
      (∀ error, inserted = .error error →
        storage = state.storage ∧ answer = .error error.toCommandError) ∧
      (inserted = .ok () → answer = .ok (ascii "Created New Task " ++ task.name) ∧
        ∃ metadata, TaskPersisted environment task metadata state.storage storage) := by
  unfold createTask at result
  dsimp only at result
  split at result
  · cases result
  · rename_i dag found
    split at result
    · cases result
    · rename_i extended inserted pushed
      split at result
      · cases result
        exact ⟨dag, extended, _, state.storage, found, pushed, rfl,
          fun _ same => by cases same; exact ⟨rfl, rfl⟩, fun impossible => by cases impossible⟩
      · split at result
        · cases result
        · split at result
          · cases result
          · rename_i persisted
            cases result
            obtain ⟨storage, stored, rfl⟩ := persistTask_eq persisted
            exact ⟨dag, extended, _, storage, found, pushed, rfl,
              fun _ impossible => (by cases impossible), fun _ => ⟨rfl, _, stored⟩⟩

theorem eraseStoredTask_eq {environment : Environment Store} {state after : ConcurrentShyguy Store}
    {task : ShyguyTask} {answer : CommandResultType}
    (result : eraseStoredTask environment state task = .ok (after, answer)) :
    ∃ storage,
      answer = .ok (ascii "Removed Task " ++ task.name) ∧
      Persisted (fun store =>
        environment.storage.eraseTask store task.associatedDag task.name none) state.storage
        storage ∧
      after = { state with storage := storage } := by
  unfold eraseStoredTask at result
  split at result
  · cases result
  · rename_i persisted
    cases result
    obtain ⟨storage, stored, rfl⟩ := persist_eq persisted
    exact ⟨storage, rfl, stored, rfl⟩

theorem removeTask_cases {environment : Environment Store} {state after : ConcurrentShyguy Store}
    {task : ShyguyTask} {answer : CommandResultType}
    (result : removeTask environment state task = .ok (after, answer)) :
    (∃ storage, state.dags.lookup task.associatedDag = none ∧
      answer = .ok (ascii "Removed Task " ++ task.name) ∧
      Persisted (fun store =>
        environment.storage.eraseTask store task.associatedDag task.name none) state.storage
        storage ∧
      after = { state with storage := storage }) ∨
    (∃ dag error, state.dags.lookup task.associatedDag = some dag ∧
      (dag.removeTask task.name).2 = .error error ∧ answer = .error error.toCommandError ∧
      after = state) ∨
    (∃ dag storage, state.dags.lookup task.associatedDag = some dag ∧
      (dag.removeTask task.name).2 = .ok () ∧
      answer = .ok (ascii "Removed Task " ++ task.name) ∧
      Persisted (fun store =>
        environment.storage.eraseTask store task.associatedDag task.name none) state.storage
        storage ∧
      after = { state with
        dags := state.dags.insert task.associatedDag (dag.removeTask task.name).1
        storage := storage }) := by
  unfold removeTask at result
  split at result
  · obtain ⟨storage, answered, stored, rfl⟩ := eraseStoredTask_eq result
    exact .inl ⟨storage, ‹_›, answered, stored, rfl⟩
  · rename_i dag found
    split at result
    · rename_i removed
      cases result
      exact .inr (.inl ⟨dag, _, found, congrArg Prod.snd removed, rfl, rfl⟩)
    · rename_i reduced removed
      obtain ⟨storage, answered, stored, rfl⟩ := eraseStoredTask_eq result
      exact .inr (.inr ⟨dag, storage, found, congrArg Prod.snd removed, answered, stored,
        by rw [removed]⟩)

theorem executeTask_eq {environment : Environment Store} {state after : ConcurrentShyguy Store}
    {task : ShyguyTask} {answer : CommandResultType}
    (result : executeTask environment state task = .ok (after, answer)) : after = state := by
  unfold executeTask at result
  split at result
  · cases result
    rfl
  · split at result <;> cases result <;> rfl

def Asks (command : CommandEnum) (dag : ShyguyDag) (request : ShyguyRequest) : Prop :=
  request.data = .dag dag ∧ request.command = command

/-- A request other than a DAG creation or removal keeps the set of DAGs and
the schedules. -/
theorem process_keeps {environment : Environment Store} {state after : ConcurrentShyguy Store}
    {request : ShyguyRequest} {answer : CommandResultType}
    (result : process environment state request = .ok (after, answer))
    (creates : ∀ dag, ¬ Asks .create dag request) (removes : ∀ dag, ¬ Asks .remove dag request) :
    after.schedules = state.schedules ∧ ∀ name, name ∈ after.dags ↔ name ∈ state.dags := by
  unfold process at result
  split at result
  · cases result
    exact ⟨rfl, fun _ => .rfl⟩
  · rename_i dag isDag
    split at result
    · exact absurd ⟨isDag, ‹_›⟩ (creates dag)
    · exact absurd ⟨isDag, ‹_›⟩ (removes dag)
    · obtain ⟨_, _, rfl⟩ := executeAt_eq result
      exact ⟨rfl, fun _ => .rfl⟩
    all_goals
      cases result
      exact ⟨rfl, fun _ => .rfl⟩
  · split at result
    · obtain ⟨dag, extended, inserted, storage, found, _, rfl, _⟩ := createTask_cases result
      exact ⟨rfl, UnorderedMap.mem_insert_of_lookup found _⟩
    · rcases removeTask_cases result with
          ⟨_, _, _, _, rfl⟩ | ⟨_, _, _, _, _, rfl⟩ | ⟨dag, storage, found, _, _, _, rfl⟩
      · exact ⟨rfl, fun _ => .rfl⟩
      · exact ⟨rfl, fun _ => .rfl⟩
      · exact ⟨rfl, UnorderedMap.mem_insert_of_lookup found _⟩
    · obtain rfl := executeTask_eq result
      exact ⟨rfl, fun _ => .rfl⟩
    all_goals
      cases result
      exact ⟨rfl, fun _ => .rfl⟩

/-- The requests handled so far with their answers, newest first. -/
abbrev History := List (ShyguyRequest × CommandResultType)

/-- Runs of requests from the empty state, each request met by an environment
of its own and admitted by the condition. -/
inductive Run (storage : Option Store)
    (admits : History → Environment Store → ConcurrentShyguy Store → ShyguyRequest → Prop) :
    ConcurrentShyguy Store → History → Prop where
  | start : Run storage admits (initial storage) []
  | handle (environment : Environment Store) {state after : ConcurrentShyguy Store}
      {history : History} (request : ShyguyRequest) {answer : CommandResultType} :
      Run storage admits state history → admits history environment state request →
      process environment state request = .ok (after, answer) →
      Run storage admits after ((request, answer) :: history)

end BabyLuigi.ConcurrentShyguy
