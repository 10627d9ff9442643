import BabyLuigi.FailedRequestProperties
import BabyLuigi.StorageAgreementProperties
import BabyLuigi.Storage.StoreFaultProperties

/-! Requests that are answered. An exception from a handler ends the process:
one comes from a missing DAG or dependency, one from text that cannot be
printed, one from a path or a document that the stores cannot make sense of. -/

set_option autoImplicit false

namespace BabyLuigi.ConcurrentShyguy

open FsStorage (IntactAt decodeDag decodeTask dagFile taskFile blobFile fnv1aHex)
open Json (ValidDag ValidTask ValidText)

variable {root : StoreRoot} {environment : Environment Files} {state after : ConcurrentShyguy Files}
  {answer : CommandResultType} {history : History}

/-! ### The condition -/

/-- The stores below the root. Existence checks are the file operations that
throw when they fail. -/
def ExaminedBy (root : StoreRoot) (environment : Environment Files) : Prop :=
  ∃ blobDisk dagDisk taskDisk : DiskBehavior,
    dagDisk.examines = true ∧ taskDisk.examines = true ∧
    environment.storage = FsStorage.storage root blobDisk dagDisk taskDisk

structure StorableDag (root : StoreRoot) (files : Files) (dag : ShyguyDag) : Prop where
  valid : ValidDag dag
  intact : IntactAt root files (dagFile root dag.name).resolve Json.version

/-- The name of a task may end its path early, so that its document would be
the blob stored before. -/
structure StorableTask (root : StoreRoot) (schedules : UnorderedMap Str Str) (files : Files)
    (task : ShyguyTask) : Prop where
  valid : ValidTask task
  intact : IntactAt root files (taskFile root task.associatedDag task.name).resolve Json.version
  dag : schedules.lookup task.associatedDag = none →
    IntactAt root files (dagFile root task.associatedDag).resolve decodeDag
  blob : ∀ content, task.fileContent = some content → task.filename.isSome = true →
    (taskFile root task.associatedDag task.name).resolve ≠
      (blobFile root (fnv1aHex content)).resolve

/-- A task that is inserted into a graph is stored as well, a task that is
turned down is not. -/
structure InsertableTask (root : StoreRoot) (state : ConcurrentShyguy Files)
    (graph : DirectedAcyclicGraph Str) (task : ShyguyTask) : Prop where
  closed : (graph.withTask task.name task.dependencyNames).table.ClosedToSelf
  storable : (graph.withTask task.name task.dependencyNames).table.Acyclic →
    ∀ files, state.storage = some files → StorableTask root state.schedules files task

structure Answerable (root : StoreRoot) (environment : Environment Files)
    (state : ConcurrentShyguy Files) (request : ShyguyRequest) : Prop where
  examined : state.storage.isSome = true → ExaminedBy root environment
  createDag : ∀ dag, Asks .create dag request → dag.name ∉ state.dags →
    ∀ files, state.storage = some files → StorableDag root files dag
  executeDag : ∀ dag, Asks .execute dag request → ∀ graph,
    state.dags.lookup dag.name = some graph → graph.table.Closed ∧
      ∀ files, state.storage = some files → ∀ name ∈ graph.adjacencyList.keys,
        IntactAt root files (taskFile root dag.name name).resolve decodeTask
  createTask : ∀ task, AsksTask .create task request → ∃ graph,
    state.dags.lookup task.associatedDag = some graph ∧
      (¬ graph.contains task.name = true → InsertableTask root state graph task)
  executeTask : ∀ task, AsksTask .execute task request → ∀ graph,
    state.dags.lookup task.associatedDag = some graph → graph.table.Closed

/-! ### Handlers -/

theorem persist_ne_error {Value : Type} {call : Files → Files × Outcome Value} {fault : Fault}
    (noFault : ∀ files, state.storage = some files → ∀ fault, (call files).2 ≠ .exception fault) :
    state.persist call ≠ .error fault := by
  unfold persist
  split
  · nofun
  · rename_i files attached
    split
    · rename_i thrown called
      exact absurd (congrArg Prod.snd called) (noFault files attached thrown)
    · nofun

theorem createDag_returns (examined : state.storage.isSome = true → ExaminedBy root environment)
    {dag : ShyguyDag} (storable : dag.name ∉ state.dags → ∀ files, state.storage = some files →
      StorableDag root files dag) :
    ∃ after answer, createDag environment state dag = .ok (after, answer) := by
  unfold createDag
  split
  · exact ⟨_, _, rfl⟩
  · rename_i absent
    rw [UnorderedMap.emplace_of_notMem absent]
    dsimp only
    split
    · rename_i persisted
      refine absurd persisted (persist_ne_error ?_)
      intro files attached
      obtain ⟨_, _, _, examines, _, isStorage⟩ :=
        examined (Option.isSome_iff_exists.mpr ⟨files, attached⟩)
      obtain ⟨valid, intact⟩ := storable absent files attached
      rw [isStorage]
      exact FsStorage.upsertDag_noFault examines valid intact none
    · exact ⟨_, _, rfl⟩

theorem removeDag_returns (examined : state.storage.isSome = true → ExaminedBy root environment)
    (dag : ShyguyDag) : ∃ after answer, removeDag environment state dag = .ok (after, answer) := by
  unfold removeDag
  split
  · dsimp only
    split
    · rename_i persisted
      refine absurd persisted (persist_ne_error ?_)
      intro files attached
      obtain ⟨_, _, _, examines, _, isStorage⟩ :=
        examined (Option.isSome_iff_exists.mpr ⟨files, attached⟩)
      rw [isStorage]
      exact FsStorage.eraseDag_noFault examines files dag.name
    · exact ⟨_, _, rfl⟩
  · exact ⟨_, _, rfl⟩

theorem makeRunner_returns (examined : state.storage.isSome = true → ExaminedBy root environment)
    {dagName taskName : Str} (intact : ∀ files, state.storage = some files →
      IntactAt root files (taskFile root dagName taskName).resolve decodeTask) :
    ∃ runner, makeRunner environment state dagName taskName = .ok runner := by
  unfold makeRunner
  split
  · exact ⟨_, rfl⟩
  · rename_i files attached
    obtain ⟨_, _, _, _, _, isStorage⟩ :=
      examined (Option.isSome_iff_exists.mpr ⟨files, attached⟩)
    split
    · rename_i fault got
      rw [isStorage] at got
      exact absurd got (FsStorage.getTask_noFault (intact files attached) fault)
    · exact ⟨_, rfl⟩
    · exact ⟨_, rfl⟩

theorem executeAt_returns (examined : state.storage.isSome = true → ExaminedBy root environment)
    {dag : ShyguyDag} (readable : ∀ graph, state.dags.lookup dag.name = some graph →
      graph.table.Closed ∧ ∀ files, state.storage = some files →
        ∀ name ∈ graph.adjacencyList.keys,
          IntactAt root files (taskFile root dag.name name).resolve decodeTask)
    (scheduledTime : Int) :
    ∃ after answer, executeAt environment state dag scheduledTime = .ok (after, answer) := by
  unfold executeAt
  split
  · exact ⟨_, _, rfl⟩
  · rename_i graph found
    obtain ⟨closed, intact⟩ := readable graph found
    obtain ⟨sorted, ordered⟩ : ∃ sorted,
        graph.topologicalSort (environment.traversal.order graph.adjacencyList) = .ok sorted :=
      DirectedAcyclicGraph.topologicalSort_total closed
        fun _ member => UnorderedMap.Traversal.mem_order.mp member
    cases sorted with
    | none =>
        simp only [DirectedAcyclicGraph.runOrder, ordered]
        exact ⟨_, _, rfl⟩
    | some order =>
        obtain ⟨runners, collected⟩ := mapM_returns_iff.mpr fun name listed =>
          makeRunner_returns examined fun files attached => intact files attached name
            (DirectedAcyclicGraph.mem_keys_of_topologicalSort ordered name listed)
        simp only [DirectedAcyclicGraph.runOrder, ordered, collected]
        exact ⟨_, _, rfl⟩

theorem executeTask_returns {task : ShyguyTask} (closed : ∀ graph,
      state.dags.lookup task.associatedDag = some graph → graph.table.Closed) :
    ∃ after answer, executeTask environment state task = .ok (after, answer) := by
  unfold executeTask
  split
  · exact ⟨_, _, rfl⟩
  · rename_i graph found
    split
    · rename_i fault failed
      obtain ⟨sorted, ordered⟩ := DirectedAcyclicGraph.topologicalSort_total (closed graph found)
        fun _ member => UnorderedMap.Traversal.mem_order.mp member
      cases failed.symm.trans ordered
    · exact ⟨_, _, rfl⟩
    · exact ⟨_, _, rfl⟩

theorem eraseStoredTask_returns
    (examined : state.storage.isSome = true → ExaminedBy root environment) (task : ShyguyTask) :
    ∃ after answer, eraseStoredTask environment state task = .ok (after, answer) := by
  unfold eraseStoredTask
  split
  · rename_i persisted
    refine absurd persisted (persist_ne_error ?_)
    intro files attached
    obtain ⟨_, _, _, _, examines, isStorage⟩ :=
      examined (Option.isSome_iff_exists.mpr ⟨files, attached⟩)
    rw [isStorage]
    exact FsStorage.eraseTask_noFault examines files task.associatedDag task.name
  · exact ⟨_, _, rfl⟩

theorem removeTask_returns (examined : state.storage.isSome = true → ExaminedBy root environment)
    (task : ShyguyTask) : ∃ after answer, removeTask environment state task = .ok (after, answer) := by
  unfold removeTask
  split
  · exact eraseStoredTask_returns examined task
  · split
    · exact ⟨_, _, rfl⟩
    · apply eraseStoredTask_returns
      exact examined

/-! ### Creating tasks -/

/-- The schedules in memory can be printed wherever one may be stored. -/
def ValidSchedules (state : ConcurrentShyguy Files) : Prop :=
  state.storage.isSome = true → ∀ name schedule,
    state.schedules.lookup name = some schedule → Json.validUtf8 schedule = true

/-- The metadata of a task is made of a schedule that can be printed. -/
theorem makeTaskMetadata_returns
    (examined : state.storage.isSome = true → ExaminedBy root environment)
    (schedules : ValidSchedules state) {task : ShyguyTask} {files : Files}
    (attached : state.storage = some files)
    (intact : state.schedules.lookup task.associatedDag = none →
      IntactAt root files (dagFile root task.associatedDag).resolve decodeDag) :
    ∃ metadata, makeTaskMetadata environment state task = .ok metadata ∧
      ∀ given, metadata = some given →
        Json.validUtf8 given.schedule.cronExpression = true := by
  have isAttached : state.storage.isSome = true := Option.isSome_iff_exists.mpr ⟨files, attached⟩
  obtain ⟨_, _, _, _, _, isStorage⟩ := examined isAttached
  have described : ∀ cron : Str, Json.validUtf8 cron = true → ∀ given : TaskMetadata,
      (if cron.isEmpty then none
        else some {
          schedule := { cronExpression := cron, frequency := classifySchedule cron }
          statuses := { previous := .none, current := .none } }) = some given →
        Json.validUtf8 given.schedule.cronExpression = true := by
    intro cron valid given made
    split at made
    · cases made
    · cases made
      exact valid
  unfold makeTaskMetadata
  dsimp only
  split
  · rename_i cron found
    exact ⟨_, rfl, described cron (schedules isAttached task.associatedDag cron found)⟩
  · rename_i unscheduled
    rw [attached]
    dsimp only
    cases got : environment.storage.getDag files task.associatedDag with
    | error _ => exact ⟨none, rfl, by intro _ impossible; cases impossible⟩
    | exception fault =>
        rw [isStorage] at got
        exact absurd got (FsStorage.getDag_noFault (intact unscheduled) fault)
    | value entry =>
        rw [isStorage] at got
        refine ⟨_, rfl, ?_⟩
        have valid := FsStorage.validText_of_getDag (intact unscheduled) got
        cases scheduled : entry.value.schedule with
        | none =>
            intro _ impossible
            cases impossible
        | some cron => exact described cron (valid cron scheduled)

theorem taskMetadata_returns
    (examined : state.storage.isSome = true → ExaminedBy root environment)
    (schedules : ValidSchedules state) {task : ShyguyTask}
    (storable : ∀ files, state.storage = some files →
      StorableTask root state.schedules files task)
    {result : Except Fault (Option TaskMetadata)}
    (made : (if state.storage.isSome = true then makeTaskMetadata environment state task
      else .ok none) = result) :
    ∃ metadata, result = .ok metadata ∧ ∀ given, metadata = some given →
      Json.validUtf8 given.schedule.cronExpression = true := by
  split at made
  · rename_i isAttached
    obtain ⟨files, attached⟩ := Option.isSome_iff_exists.mp isAttached
    obtain ⟨metadata, returned, printable⟩ :=
      makeTaskMetadata_returns examined schedules attached (storable files attached).dag
    exact ⟨metadata, made.symm.trans returned, printable⟩
  · exact ⟨none, made.symm, by intro _ impossible; cases impossible⟩

theorem persistTask_ne_error
    (examined : state.storage.isSome = true → ExaminedBy root environment) {task : ShyguyTask}
    {metadata : Option TaskMetadata}
    (storable : ∀ files, state.storage = some files → StorableTask root state.schedules files task)
    (printable : ∀ given, metadata = some given →
      Json.validUtf8 given.schedule.cronExpression = true) (fault : Fault) :
    persistTask environment state task metadata ≠ .error fault := by
  have stores : ∀ (files prepared : Files) (blobId : Option Str), state.storage = some files →
      prepared.node (taskFile root task.associatedDag task.name).resolve =
        files.node (taskFile root task.associatedDag task.name).resolve →
      ValidText blobId → ∀ fault,
        (environment.storage.upsertTask prepared task blobId none metadata).2 ≠
          .exception fault := by
    intro files prepared blobId attached same validBlob
    have isAttached : state.storage.isSome = true := Option.isSome_iff_exists.mpr ⟨files, attached⟩
    obtain ⟨_, _, _, _, examines, isStorage⟩ := examined isAttached
    have intact := (storable files attached).intact
    rw [isStorage]
    apply FsStorage.upsertTask_noFault examines (storable files attached).valid validBlob printable
    intro document found
    rw [FsStorage.readJson_congr same] at found
    exact intact document found
  unfold persistTask
  split
  · rename_i files content filename attached isContent isFilename
    have isAttached : state.storage.isSome = true := Option.isSome_iff_exists.mpr ⟨files, attached⟩
    obtain ⟨blobDisk, dagDisk, taskDisk, _, _, isStorage⟩ := examined isAttached
    have aside : ∀ {prepared outcome}, environment.storage.putBlob files content =
        (prepared, outcome) →
        prepared.node (taskFile root task.associatedDag task.name).resolve =
          files.node (taskFile root task.associatedDag task.name).resolve := by
      intro prepared outcome called
      rw [isStorage] at called
      exact FsStorage.putBlob_frame called ((storable files attached).blob content isContent
        (Option.isSome_iff_exists.mpr ⟨filename, isFilename⟩))
    split
    · rename_i thrown called
      rw [isStorage] at called
      exact absurd (congrArg Prod.snd called) (FsStorage.putBlob_noFault files content thrown)
    · rename_i prepared id called
      have isId : id = fnv1aHex content := by
        rw [isStorage] at called
        exact FsStorage.putBlob_value called
      apply persist_ne_error
      intro store same
      cases same
      apply stores files prepared (some id) attached (aside called)
      intro value isValue
      cases isValue
      exact isId ▸ FsStorage.validUtf8_fnv1aHex content
    · rename_i prepared _ called
      apply persist_ne_error
      intro store same
      cases same
      exact stores files prepared none attached (aside called) (by intro _ impossible; cases impossible)
  · apply persist_ne_error
    intro files attached
    exact stores files files none attached rfl (by intro _ impossible; cases impossible)

theorem createTask_returns (examined : state.storage.isSome = true → ExaminedBy root environment)
    (schedules : ValidSchedules state) {task : ShyguyTask} {graph : DirectedAcyclicGraph Str}
    (found : state.dags.lookup task.associatedDag = some graph)
    (insertable : ¬ graph.contains task.name = true → InsertableTask root state graph task) :
    ∃ after answer, createTask environment state task = .ok (after, answer) := by
  obtain ⟨extended, inserted, pushed⟩ := DirectedAcyclicGraph.pushTask_total
    (fun absent => (insertable absent).closed) environment.traversal
  cases inserted with
  | error error =>
      simp only [createTask, found, pushed]
      exact ⟨_, _, rfl⟩
  | ok _ =>
      rcases DirectedAcyclicGraph.pushTask_cases pushed with
          ⟨_, _, impossible⟩ | ⟨_, _, impossible, _⟩ | ⟨absent, _, rfl, searched⟩
      · cases impossible
      · cases impossible
      have acyclic : (graph.withTask task.name task.dependencyNames).table.Acyclic :=
        DependencyTable.acyclic_of_settled
          (DirectedAcyclicGraph.table_settled_of_hasCycle_eq_false
            (fun _ member => UnorderedMap.Traversal.mem_order.mpr member) searched)
      have storable := (insertable absent).storable acyclic
      simp only [createTask, found, pushed]
      split
      · rename_i failed
        obtain ⟨_, impossible, _⟩ := taskMetadata_returns examined schedules storable failed
        cases impossible
      · rename_i metadata made
        obtain ⟨_, same, printable⟩ := taskMetadata_returns examined schedules storable made
        cases same
        split
        · rename_i persisted
          refine absurd persisted ?_
          apply persistTask_ne_error
          · exact examined
          · exact storable
          · exact printable
        · exact ⟨_, _, rfl⟩

/-! ### Requests -/

theorem process_returns {request : ShyguyRequest} (schedules : ValidSchedules state)
    (answerable : Answerable root environment state request) :
    ∃ after answer, process environment state request = .ok (after, answer) := by
  unfold process
  split
  · exact ⟨_, _, rfl⟩
  · rename_i dag isDag
    split
    · exact createDag_returns answerable.examined (answerable.createDag dag ⟨isDag, ‹_›⟩)
    · exact removeDag_returns answerable.examined dag
    · exact executeAt_returns answerable.examined (answerable.executeDag dag ⟨isDag, ‹_›⟩) _
    all_goals exact ⟨_, _, rfl⟩
  · rename_i task isTask
    split
    · obtain ⟨graph, found, insertable⟩ := answerable.createTask task ⟨isTask, ‹_›⟩
      exact createTask_returns answerable.examined schedules found insertable
    · exact removeTask_returns answerable.examined task
    · exact executeTask_returns (answerable.executeTask task ⟨isTask, ‹_›⟩)
    all_goals exact ⟨_, _, rfl⟩

theorem persisted_isSome {Value : Type} {call : Files → Files × Outcome Value}
    {before after : Option Files} (persisted : Persisted call before after) :
    after.isSome = before.isSome := by
  cases before with
  | none =>
      obtain rfl : after = none := persisted
      rfl
  | some files =>
      obtain ⟨stored, _, _, _, rfl⟩ := persisted
      rfl

theorem process_isSome {request : ShyguyRequest}
    (result : process environment state request = .ok (after, answer)) :
    after.storage.isSome = state.storage.isSome := by
  unfold process at result
  split at result
  · cases result
    rfl
  · split at result
    · rcases createDag_cases result with ⟨rfl, _⟩ | ⟨_, _, _, _, persisted, _, rfl⟩
      · rfl
      · exact persisted_isSome persisted
    · rcases removeDag_cases result with ⟨rfl, _⟩ | ⟨_, _, _, persisted, rfl⟩
      · rfl
      · exact persisted_isSome persisted
    · obtain ⟨_, _, rfl⟩ := executeAt_eq result
      rfl
    all_goals
      cases result
      rfl
  · split at result
    · obtain ⟨_, _, inserted, storage, _, _, rfl, failed, succeeded⟩ := createTask_cases result
      cases inserted with
      | error error =>
          obtain ⟨rfl, _⟩ := failed error rfl
          rfl
      | ok _ =>
          obtain ⟨_, metadata, prepared, blobId, preparation, persisted⟩ := succeeded rfl
          rcases preparation with rfl | ⟨_, _, _, _, attached, _, rfl⟩
          · exact persisted_isSome persisted
          · exact (persisted_isSome persisted).trans (by rw [attached]; rfl)
    · rcases removeTask_cases result with
          ⟨_, _, _, persisted, rfl⟩ | ⟨_, _, _, _, _, rfl⟩ | ⟨_, _, _, _, _, persisted, rfl⟩
      · exact persisted_isSome persisted
      · rfl
      · exact persisted_isSome persisted
    · obtain rfl := executeTask_eq result
      rfl
    all_goals
      cases result
      rfl

theorem ValidSchedules.process {request : ShyguyRequest} (schedules : ValidSchedules state)
    (answerable : Answerable root environment state request)
    (result : process environment state request = .ok (after, answer)) : ValidSchedules after := by
  intro isAttached name schedule found
  rw [process_isSome result] at isAttached
  by_cases creates : ∃ dag, Asks .create dag request
  · obtain ⟨dag, isDag, isCreate⟩ := creates
    have created : createDag environment state dag = .ok (after, answer) := by
      rw [← result, ConcurrentShyguy.process]
      simp only [isDag, isCreate]
    rcases createDag_cases created with ⟨rfl, _⟩ | ⟨_, _, _, absent, _, rfl, rfl⟩
    · exact schedules isAttached name schedule found
    · obtain ⟨files, attached⟩ := Option.isSome_iff_exists.mp isAttached
      have valid := (answerable.createDag dag ⟨isDag, isCreate⟩ absent files attached).valid
      dsimp only at found
      split at found
      · rename_i given isGiven
        split at found
        · unfold UnorderedMap.emplace at found
          split at found
          · exact schedules isAttached name schedule found
          · by_cases same : name = dag.name
            · subst name
              rw [AList.lookup_insert] at found
              cases found
              exact valid.schedule schedule isGiven
            · rw [AList.lookup_insert_ne same] at found
              exact schedules isAttached name schedule found
        · exact schedules isAttached name schedule found
      · exact schedules isAttached name schedule found
  · by_cases removes : ∃ dag, Asks .remove dag request
    · obtain ⟨dag, isDag, isRemove⟩ := removes
      have removed : removeDag environment state dag = .ok (after, answer) := by
        rw [← result, ConcurrentShyguy.process]
        simp only [isDag, isRemove]
      rcases removeDag_cases removed with ⟨rfl, _⟩ | ⟨_, _, _, _, rfl⟩
      · exact schedules isAttached name schedule found
      · dsimp only at found
        split at found
        · by_cases same : name = dag.name
          · subst name
            rw [AList.lookup_erase] at found
            cases found
          · rw [AList.lookup_erase_ne same] at found
            exact schedules isAttached name schedule found
        · exact schedules isAttached name schedule found
    · obtain ⟨same, _⟩ := process_keeps result (not_exists.mp creates) (not_exists.mp removes)
      rw [same] at found
      exact schedules isAttached name schedule found

theorem Run.validSchedules {storage : Option Files}
    (run : Run storage (fun _ => Answerable root) state history) : ValidSchedules state := by
  induction run with
  | start =>
      intro _ name schedule found
      cases found
  | handle _ _ _ answerable result ih => exact ih.process answerable result

/-- In every run whose requests all meet the condition, every request that
meets it is answered. -/
theorem run_answers {storage : Option Files}
    (run : Run storage (fun _ => Answerable root) state history) {request : ShyguyRequest}
    (answerable : Answerable root environment state request) :
    ∃ after answer, process environment state request = .ok (after, answer) :=
  process_returns run.validSchedules answerable

theorem answerable_etl :
    Answerable FsStorage.dataRoot fileEnvironment (initial (some FsStorage.freshFiles))
      (dagRequest .create (ascii "etl") (some (ascii "0 0 * * *"))) where
  examined _ := ⟨.reliable, .reliable, .reliable, rfl, rfl, rfl⟩
  createDag dag asked _ files attached := by
    obtain ⟨⟨⟩, _⟩ := asked
    cases attached
    refine ⟨⟨by decide, ?_⟩, ?_⟩
    · intro schedule given
      cases given
      decide
    · exact FsStorage.intactAt_of_absent (by decide +kernel)
  executeDag dag asked := by
    obtain ⟨_, ⟨⟩⟩ := asked
  createTask task asked := by
    obtain ⟨⟨⟩, _⟩ := asked
  executeTask task asked := by
    obtain ⟨⟨⟩, _⟩ := asked

/-- A task created in a DAG that was created before it. -/
theorem run_answers_etl : ∃ state history,
    Run (some FsStorage.freshFiles) (fun _ => Answerable FsStorage.dataRoot) state history ∧
    ∃ after answer, process fileEnvironment state
      (taskRequest .create (ascii "etl") (ascii "extract")) = .ok (after, answer) := by
  refine ⟨_, _, .handle fileEnvironment _ .start answerable_etl rfl, ?_⟩
  apply run_answers (.handle fileEnvironment _ .start answerable_etl rfl)
  constructor
  · exact fun _ => ⟨.reliable, .reliable, .reliable, rfl, rfl, rfl⟩
  · intro dag asked
    obtain ⟨⟨⟩, _⟩ := asked
  · intro dag asked
    obtain ⟨⟨⟩, _⟩ := asked
  · intro task asked
    obtain ⟨⟨⟩, _⟩ := asked
    refine ⟨_, rfl, fun _ => ⟨?_, ?_⟩⟩
    · apply DependencyTable.Closed.toSelf
      exact DirectedAcyclicGraph.pushTask_closed (DirectedAcyclicGraph.closed_ofName (ascii "etl"))
        (rfl : DirectedAcyclicGraph.pushTask _ (.storage _ _) (ascii "extract") none =
          .ok (_, .ok ()))
    · intro _ files attached
      cases attached
      refine ⟨?_, ?_, ?_, ?_⟩
      · constructor <;> first | decide | (intro _ impossible; cases impossible)
      · exact FsStorage.intactAt_of_absent (by decide +kernel)
      · intro unscheduled
        cases unscheduled
      · intro _ impossible
        cases impossible
  · intro task asked
    obtain ⟨_, ⟨⟩⟩ := asked

def contentRequest (dag name content : Str) : ShyguyRequest where
  data := .task { FsStorage.bareTask dag name with fileContent := some content }
  command := .create

def dependentRequest (dag name dependency : Str) : ShyguyRequest where
  data := .task { FsStorage.bareTask dag name with dependencyNames := some [dependency] }
  command := .create

/-- A task for a DAG that does not exist, a dependency that does not exist and
contents that are not text each end the process. -/
theorem requests_end_process :
    process detachedEnvironment (initial none)
        (taskRequest .create (ascii "etl") (ascii "load")) = .error .outOfRange ∧
    (∃ state history, Run none (fun _ _ _ _ => True) state history ∧
      process detachedEnvironment state
        (dependentRequest (ascii "etl") (ascii "load") (ascii "extract")) = .error .outOfRange) ∧
    ∃ state history, Run (some FsStorage.freshFiles)
        (fun _ environment _ _ => ServedBy FsStorage.dataRoot environment) state history ∧
      process fileEnvironment state
        (contentRequest (ascii "etl") (ascii "load") [0xFF]) = .error .jsonException := by
  refine ⟨rfl, ⟨_, _, .handle detachedEnvironment (etlRequest .create) .start trivial rfl, rfl⟩,
    _, _, .handle fileEnvironment (etlRequest .create) .start servedBy_fileEnvironment rfl, rfl⟩

end BabyLuigi.ConcurrentShyguy
