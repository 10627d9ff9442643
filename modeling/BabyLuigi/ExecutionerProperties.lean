import BabyLuigi.Executioner
import BabyLuigi.GraphProperties

/-! Safety of the dependency waves over every reachable state: what the waves
hold, what the log records, and when the finished set is closed. -/

set_option autoImplicit false

namespace BabyLuigi.ShyExecutioner

variable {Name : Type} [DecidableEq Name]

/-! ### The runner index -/

theorem lookup_indexRunners {runners : List (TaskRunner Name)} (before : List (TaskRunner Name))
    {index : TaskIndex Name}
    (indexed : ∀ name position, index.lookup name = some position →
      (before[position]?).map TaskRunner.name = some name)
    {name : Name} {position : Nat}
    (found : (indexRunners runners before.length index).lookup name = some position) :
    ((before ++ runners)[position]?).map TaskRunner.name = some name := by
  induction runners generalizing before index with
  | nil => simpa using indexed name position found
  | cons runner rest ih =>
      have extended : ∀ name position,
          (UnorderedMap.emplace runner.name before.length index).1.lookup name = some position →
          ((before ++ [runner])[position]?).map TaskRunner.name = some name := by
        intro name position entry
        have kept : index.lookup name = some position →
            ((before ++ [runner])[position]?).map TaskRunner.name = some name := by
          intro old
          obtain ⟨indexedRunner, found, named⟩ := Option.map_eq_some_iff.mp (indexed name position old)
          have within : position < before.length := (List.getElem?_eq_some_iff.mp found).1
          simp [List.getElem?_append_left within, found, named]
        by_cases present : runner.name ∈ index
        · rw [UnorderedMap.emplace_of_mem present] at entry
          exact kept entry
        · rw [UnorderedMap.emplace_of_notMem present] at entry
          by_cases same : name = runner.name
          · subst name
            rw [AList.lookup_insert, Option.some.injEq] at entry
            simp [← entry]
          · exact kept ((AList.lookup_insert_ne same).symm.trans entry)
      have counted : (before ++ [runner]).length = before.length + 1 := by simp
      rw [indexRunners, ← counted] at found
      simpa using ih _ extended found

theorem name_of_lookup_byName {payload : TaskRequestPayload Name} {name : Name} {position : Nat}
    (found : (byName payload).lookup name = some position) :
    (payload.taskRunners[position]?).map TaskRunner.name = some name := by
  simpa using lookup_indexRunners [] (by simp) found

theorem lookup_byName_injective {payload : TaskRequestPayload Name} {left right : Name}
    {position : Nat} (leftFound : (byName payload).lookup left = some position)
    (rightFound : (byName payload).lookup right = some position) : left = right :=
  Option.some.inj
    ((name_of_lookup_byName leftFound).symm.trans (name_of_lookup_byName rightFound))

theorem mem_keys_indexRunners {runners : List (TaskRunner Name)} {position : Nat}
    {index : TaskIndex Name} {name : Name} :
    name ∈ (indexRunners runners position index).keys ↔
      name ∈ index.keys ∨ name ∈ runners.map TaskRunner.name := by
  induction runners generalizing position index with
  | nil => simp [indexRunners]
  | cons runner rest ih =>
      rw [indexRunners, ih]
      by_cases present : runner.name ∈ index
      · rw [UnorderedMap.emplace_of_mem present]
        have known : runner.name ∈ index.keys := AList.mem_keys.mp present
        simp only [List.map_cons, List.mem_cons]
        constructor
        · intro either
          rcases either with member | member
          · exact .inl member
          · exact .inr (.inr member)
        · intro either
          rcases either with member | rfl | member
          · exact .inl member
          · exact .inl known
          · exact .inr member
      · rw [UnorderedMap.emplace_of_notMem present]
        simp only [List.map_cons, List.mem_cons, ← AList.mem_keys, AList.mem_insert]
        tauto

def runnerNames (payload : TaskRequestPayload Name) : Finset Name :=
  (payload.taskRunners.map TaskRunner.name).toFinset

theorem pending_initial (payload : TaskRequestPayload Name) :
    (Execution.initial payload).pending = runnerNames payload := by
  ext name
  simp only [Execution.initial, runnerNames, List.mem_toFinset, byName, mem_keys_indexRunners,
    AList.keys_empty, List.not_mem_nil, false_or]

/-! ### Selecting a wave -/

theorem isTaskReady_iff {dag : DirectedAcyclicGraph Name} {completed : Finset Name} {name : Name} :
    dag.isTaskReady completed name = true ↔
      ∃ dependencies, dag.table name = some dependencies ∧
        ∀ dependency ∈ dependencies, dependency ∈ completed := by
  unfold DirectedAcyclicGraph.isTaskReady
  cases entry : dag.table name with
  | none =>
      have missing : dag.dependenciesOf name = .error .outOfRange := by
        rw [DirectedAcyclicGraph.table] at entry
        simp only [DirectedAcyclicGraph.dependenciesOf, entry]
      simp [missing]
  | some dependencies =>
      simp [DirectedAcyclicGraph.dependenciesOf_of_table entry]

/-- The scan takes some ready names of the order, in order; it takes none only
if none is ready, and stops at the limit. -/
theorem selectReadyTasks_spec (dag : DirectedAcyclicGraph Name) (completed : Finset Name)
    (maxTaskConcurrency : Nat) (order ready : List Name)
    (room : ready.length < max 1 maxTaskConcurrency) :
    ∃ chosen, selectReadyTasks dag completed maxTaskConcurrency order ready = ready ++ chosen ∧
      chosen.Sublist order ∧ (∀ name ∈ chosen, dag.isTaskReady completed name = true) ∧
      (chosen = [] → ∀ name ∈ order, ¬ dag.isTaskReady completed name = true) ∧
      (ready ++ chosen).length ≤ max 1 maxTaskConcurrency := by
  induction order generalizing ready with
  | nil => exact ⟨[], by simp [selectReadyTasks], .slnil, by simp, by simp, by simpa using room.le⟩
  | cons name rest ih =>
      simp only [selectReadyTasks]
      split
      · rename_i taken
        split
        · refine ⟨[name], rfl, by simp, by simpa using taken, by simp, ?_⟩
          rw [List.length_append, List.length_singleton]
          exact room
        · rename_i short
          have grown : (ready ++ [name]).length < max 1 maxTaskConcurrency := by omega
          obtain ⟨chosen, selected, sublist, chosenReady, _, bound⟩ := ih (ready ++ [name]) grown
          refine ⟨name :: chosen, by simpa using selected, sublist.cons_cons name, ?_, by simp, ?_⟩
          · exact List.forall_mem_cons.mpr ⟨taken, chosenReady⟩
          · simpa using bound
      · rename_i refused
        obtain ⟨chosen, selected, sublist, chosenReady, none, bound⟩ := ih ready room
        refine ⟨chosen, selected, sublist.cons name, chosenReady, ?_, bound⟩
        intro empty
        exact List.forall_mem_cons.mpr ⟨refused, none empty⟩

/-! ### The invariant -/

/-- The newest event first: a task starts only after each of its dependencies
has finished. -/
def DependenciesFirst (table : DependencyTable Name) : List (Event Name) → Prop
  | [] => True
  | .started name _ :: past =>
    (∀ dependency, table.Depends name dependency → dependency ∈ finishedNames past) ∧
      DependenciesFirst table past
  | .finished _ _ :: past => DependenciesFirst table past

/-- What the tasks of a wave have in common. -/
structure WaveReady (payload : TaskRequestPayload Name) (maxTaskConcurrency : Nat)
    (pending completed : Finset Name) (wave : List Name) : Prop where
  nodup : wave.Nodup
  nonempty : wave ≠ []
  bound : wave.length ≤ max 1 maxTaskConcurrency
  pending : ∀ name ∈ wave, name ∈ pending
  ready : ∀ name ∈ wave, payload.dag.isTaskReady completed name = true

/-- The tasks started in the current wave, finished or not. -/
def Phase.begun : Phase Name → List Name
  | .wave _ inProgress finishedNames => inProgress ++ finishedNames
  | _ => []

def Phase.ended : Phase Name → List Name
  | .wave _ _ finishedNames => finishedNames
  | _ => []

omit [DecidableEq Name] in
theorem Phase.isOver_iff {phase : Phase Name} :
    phase.isOver = true ↔ phase = .stopped ∨ phase = .threw := by
  cases phase <;> simp [Phase.isOver]

omit [DecidableEq Name] in
@[simp] theorem Phase.begun_of_isOver {phase : Phase Name} (isOver : phase.isOver = true) :
    phase.begun = [] := by
  rcases Phase.isOver_iff.mp isOver with rfl | rfl <;> rfl

omit [DecidableEq Name] in
@[simp] theorem Phase.ended_of_isOver {phase : Phase Name} (isOver : phase.isOver = true) :
    phase.ended = [] := by
  rcases Phase.isOver_iff.mp isOver with rfl | rfl <;> rfl

omit [DecidableEq Name] in
theorem Execution.inProgress_of_isOver {state : Execution Name}
    (isOver : state.phase.isOver = true) : state.inProgress = [] := by
  rcases Phase.isOver_iff.mp isOver with stopped | threw
  · simp [Execution.inProgress, stopped]
  · simp [Execution.inProgress, threw]

structure Invariant (payload : TaskRequestPayload Name) (maxTaskConcurrency : Nat)
    (state : Execution Name) : Prop where
  partition : state.pending ∪ state.completed = runnerNames payload
  disjoint : Disjoint state.pending state.completed
  closed : payload.dag.table.DownwardClosed state.completed
  wave : ∀ spawned inProgress finished, state.phase = .wave spawned inProgress finished →
    WaveReady payload maxTaskConcurrency state.pending state.completed
      (spawned ++ (inProgress ++ finished))
  startedNodup : (startedNames state.log).Nodup
  started : ∀ name, name ∈ startedNames state.log ↔
    name ∈ state.completed ∨ name ∈ state.phase.begun
  finished : ∀ name, name ∈ finishedNames state.log ↔
    name ∈ state.completed ∨ name ∈ state.phase.ended
  runners : ∀ name runner, Event.started name runner ∈ state.log →
    (byName payload).lookup name = some runner
  ordered : DependenciesFirst payload.dag.table state.log

theorem WaveReady.perm {payload : TaskRequestPayload Name} {maxTaskConcurrency : Nat}
    {pending completed : Finset Name} {wave regrouped : List Name}
    (valid : WaveReady payload maxTaskConcurrency pending completed wave)
    (perm : regrouped.Perm wave) :
    WaveReady payload maxTaskConcurrency pending completed regrouped where
  nodup := perm.nodup_iff.mpr valid.nodup
  nonempty empty := valid.nonempty (List.nil_perm.mp (empty ▸ perm))
  bound := perm.length_eq ▸ valid.bound
  pending name member := valid.pending name (perm.mem_iff.mp member)
  ready name member := valid.ready name (perm.mem_iff.mp member)

theorem WaveReady.dependency_completed {payload : TaskRequestPayload Name}
    {maxTaskConcurrency : Nat} {pending completed : Finset Name} {wave : List Name}
    (valid : WaveReady payload maxTaskConcurrency pending completed wave)
    {name dependency : Name} (member : name ∈ wave)
    (edge : payload.dag.table.Depends name dependency) : dependency ∈ completed := by
  obtain ⟨dependencies, entry, done⟩ := isTaskReady_iff.mp (valid.ready name member)
  obtain ⟨listed, listedEntry, listedMember⟩ := edge
  obtain rfl := Option.some.inj (entry.symm.trans listedEntry)
  exact done dependency listedMember

theorem WaveReady.select {payload : TaskRequestPayload Name} {maxTaskConcurrency : Nat}
    {pending completed : Finset Name} {order ready : List Name}
    (iteration : IterationOrder order pending)
    (selected : selectReadyTasks payload.dag completed maxTaskConcurrency order [] = ready)
    (nonempty : ready ≠ []) : WaveReady payload maxTaskConcurrency pending completed ready := by
  obtain ⟨chosen, result, sublist, chosenReady, _, bound⟩ :=
    selectReadyTasks_spec payload.dag completed maxTaskConcurrency order [] (by simp)
  rw [List.nil_append] at result bound
  obtain rfl : ready = chosen := selected.symm.trans result
  exact {
    nodup := sublist.nodup iteration.1
    nonempty := nonempty
    bound := bound
    pending := fun name member =>
      iteration.2 ▸ List.mem_toFinset.mpr (sublist.mem member)
    ready := chosenReady }

theorem regroup_start {spawned inProgress finished : List Name} {name : Name}
    (member : name ∈ spawned) :
    (spawned.erase name ++ (name :: inProgress ++ finished)).Perm
      (spawned ++ (inProgress ++ finished)) := by
  rw [List.cons_append]
  exact List.perm_middle.trans ((List.perm_cons_erase member).symm.append_right _)

theorem regroup_finish (spawned : List Name) {inProgress finished : List Name} {name : Name}
    (member : name ∈ inProgress) :
    (spawned ++ (inProgress.erase name ++ (finished ++ [name]))).Perm
      (spawned ++ (inProgress ++ finished)) := by
  refine List.Perm.append_left spawned ?_
  rw [← List.append_assoc]
  exact List.perm_append_comm.trans ((List.perm_cons_erase member).symm.append_right finished)

variable {payload : TaskRequestPayload Name} {maxTaskConcurrency : Nat}

theorem Invariant.initial :
    Invariant payload maxTaskConcurrency (Execution.initial payload) where
  partition := by rw [pending_initial]; exact Finset.union_empty _
  disjoint := Finset.disjoint_empty_right _
  closed := by simp [DependencyTable.DownwardClosed, Execution.initial]
  wave := by simp [Execution.initial]
  startedNodup := List.nodup_nil
  started := by simp [Execution.initial, startedNames, startedTasks, Phase.begun]
  finished := by simp [Execution.initial, finishedNames, Phase.ended]
  runners := by simp [Execution.initial]
  ordered := trivial

theorem Invariant.leave {state : Execution Name} {phase : Phase Name}
    (valid : Invariant payload maxTaskConcurrency state) (head : state.phase = .loopHead)
    (isOver : phase.isOver = true) :
    Invariant payload maxTaskConcurrency { state with phase := phase } :=
  { valid with
    wave := by
      rintro spawned inProgress finished rfl
      cases isOver
    started := by
      have previous := valid.started
      simp only [head, Phase.begun] at previous
      simpa [isOver] using previous
    finished := by
      have previous := valid.finished
      simp only [head, Phase.ended] at previous
      simpa [isOver] using previous }

theorem Invariant.start {state : Execution Name} {spawned inProgress finished : List Name}
    {name : Name} {runner : Nat} (valid : Invariant payload maxTaskConcurrency state)
    (phase : state.phase = .wave spawned inProgress finished) (member : name ∈ spawned)
    (found : (byName payload).lookup name = some runner) :
    Invariant payload maxTaskConcurrency
      { state with
        phase := .wave (spawned.erase name) (name :: inProgress) finished
        log := .started name runner :: state.log } := by
  have wave := valid.wave spawned inProgress finished phase
  have inWave : name ∈ spawned ++ (inProgress ++ finished) := List.mem_append_left _ member
  have notBegun : name ∉ inProgress ++ finished := fun begun =>
    List.disjoint_of_nodup_append wave.nodup member begun
  have notCompleted : name ∉ state.completed := fun completed =>
    Finset.disjoint_left.mp valid.disjoint (wave.pending name inWave) completed
  refine { valid with
    wave := ?_, startedNodup := ?_, started := ?_, finished := ?_, runners := ?_, ordered := ?_ }
  · intro _ _ _ impossible
    cases impossible
    exact wave.perm (regroup_start member)
  · refine List.nodup_cons.mpr ⟨?_, valid.startedNodup⟩
    intro again
    rcases (valid.started name).mp again with completed | begun
    · exact notCompleted completed
    · exact notBegun (by simpa [phase, Phase.begun] using begun)
  · intro other
    have previous := valid.started other
    simp only [phase, Phase.begun] at previous
    simp only [startedNames, startedTasks, Phase.begun, List.filterMap_cons, List.map_cons,
      List.mem_cons, List.cons_append] at previous ⊢
    tauto
  · simpa [finishedNames, phase, Phase.ended] using valid.finished
  · intro other position entry
    rcases List.mem_cons.mp entry with same | old
    · cases same
      exact found
    · exact valid.runners other position old
  · refine ⟨?_, valid.ordered⟩
    intro dependency edge
    exact (valid.finished dependency).mpr (.inl (wave.dependency_completed inWave edge))

theorem Invariant.finish {state : Execution Name} {spawned inProgress finished : List Name}
    {name : Name} {runner : Nat} (valid : Invariant payload maxTaskConcurrency state)
    (phase : state.phase = .wave spawned inProgress finished) (member : name ∈ inProgress) :
    Invariant payload maxTaskConcurrency
      { state with
        phase := .wave spawned (inProgress.erase name) (finished ++ [name])
        log := .finished name runner :: state.log } := by
  have wave := valid.wave spawned inProgress finished phase
  have regrouped : (inProgress.erase name ++ (finished ++ [name])).Perm (inProgress ++ finished) :=
    regroup_finish [] member
  refine { valid with
    wave := ?_, startedNodup := ?_, started := ?_, finished := ?_, runners := ?_, ordered := ?_ }
  · intro _ _ _ impossible
    cases impossible
    exact wave.perm (regroup_finish spawned member)
  · exact valid.startedNodup
  · intro other
    have previous := valid.started other
    simp only [phase, Phase.begun] at previous
    simp only [Phase.begun, regrouped.mem_iff]
    exact previous
  · intro other
    have previous := valid.finished other
    simp only [phase, Phase.ended] at previous
    simp only [finishedNames, Phase.ended, List.filterMap_cons, List.mem_cons,
      List.mem_append] at previous ⊢
    simp only [List.not_mem_nil, or_false]
    tauto
  · intro other position entry
    rcases List.mem_cons.mp entry with same | old
    · cases same
    · exact valid.runners other position old
  · exact valid.ordered

theorem Invariant.join {state : Execution Name} {finished : List Name}
    (valid : Invariant payload maxTaskConcurrency state)
    (phase : state.phase = .wave [] [] finished) :
    Invariant payload maxTaskConcurrency
      { state with
        pending := state.pending \ finished.toFinset
        completed := state.completed ∪ finished.toFinset
        phase := .loopHead } := by
  have wave := valid.wave [] [] finished phase
  have inWave : ∀ name, name ∈ finished → name ∈ [] ++ ([] ++ finished) := fun _ member => member
  refine { valid with
    partition := ?_, disjoint := ?_, closed := ?_, wave := ?_, started := ?_, finished := ?_ }
  · have within : finished.toFinset ⊆ state.pending := fun name member =>
      wave.pending name (inWave name (List.mem_toFinset.mp member))
    rw [← valid.partition, Finset.union_comm state.completed, ← Finset.union_assoc,
      Finset.sdiff_union_of_subset within]
  · refine Finset.disjoint_union_right.mpr ⟨?_, Finset.sdiff_disjoint⟩
    exact valid.disjoint.mono_left Finset.sdiff_subset
  · rw [Finset.coe_union]
    apply valid.closed.union
    intro name member dependency edge
    exact wave.dependency_completed (inWave name (List.mem_toFinset.mp member)) edge
  · simp
  · simpa [phase, Phase.begun] using valid.started
  · simpa [phase, Phase.ended] using valid.finished

theorem Invariant.step {before after : Execution Name} {running : Bool}
    (valid : Invariant payload maxTaskConcurrency before)
    (step : Step payload maxTaskConcurrency running before after) :
    Invariant payload maxTaskConcurrency after := by
  cases step with
  | finished head _ => exact valid.leave head rfl
  | cleared head _ _ => exact valid.leave head rfl
  | reserveThrows head _ _ => exact valid.leave head rfl
  | blocked head _ _ _ _ _ => exact valid.leave head rfl
  | wave head _ _ _ iteration selected nonempty =>
      refine { valid with wave := ?_, started := ?_, finished := ?_ }
      · intro _ _ _ impossible
        cases impossible
        simpa using WaveReady.select iteration selected nonempty
      · simpa [head, Phase.begun] using valid.started
      · simpa [head, Phase.ended] using valid.finished
  | start phase member found => exact valid.start phase member found
  | finish phase member _ => exact valid.finish phase member
  | join phase => exact valid.join phase

theorem Reachable.invariant {state : Execution Name}
    (reachable : Reachable payload maxTaskConcurrency state) :
    Invariant payload maxTaskConcurrency state := by
  induction reachable with
  | refl => exact .initial
  | tail _ step ih =>
      obtain ⟨_, step⟩ := step
      exact ih.step step

/-! ### Safety -/

omit [DecidableEq Name] in
theorem DependenciesFirst.of_append {table : DependencyTable Name}
    {later past : List (Event Name)} (ordered : DependenciesFirst table (later ++ past)) :
    DependenciesFirst table past := by
  induction later with
  | nil => exact ordered
  | cons event rest ih =>
      cases event with
      | started name runner => exact ih ordered.2
      | finished name runner => exact ih ordered

omit [DecidableEq Name] in
theorem mem_startedTasks {log : List (Event Name)} {task : Name × Nat} :
    task ∈ startedTasks log ↔ Event.started task.1 task.2 ∈ log := by
  rw [startedTasks, List.mem_filterMap]
  constructor
  · intro held
    obtain ⟨event, member, taken⟩ := held
    cases event with
    | started name runner =>
        obtain rfl := Option.some.inj taken
        exact member
    | finished name runner => cases taken
  · intro member
    exact ⟨_, member, rfl⟩

theorem Invariant.startedRunners_nodup {state : Execution Name}
    (valid : Invariant payload maxTaskConcurrency state) : (startedRunners state.log).Nodup := by
  apply valid.startedNodup.of_map.map_on
  intro left leftMember right rightMember same
  have leftFound := valid.runners _ _ (mem_startedTasks.mp leftMember)
  have rightFound := valid.runners _ _ (mem_startedTasks.mp rightMember)
  rw [← same] at rightFound
  exact Prod.ext (lookup_byName_injective leftFound rightFound) same

omit [DecidableEq Name] in
theorem Execution.exists_wave_of_mem_inProgress {state : Execution Name} {name : Name}
    (member : name ∈ state.inProgress) :
    ∃ spawned inProgress finished, state.phase = .wave spawned inProgress finished ∧
      state.inProgress = inProgress := by
  cases phase : state.phase with
  | loopHead => simp [Execution.inProgress, phase] at member
  | stopped => simp [Execution.inProgress, phase] at member
  | threw => simp [Execution.inProgress, phase] at member
  | wave spawned inProgress finished =>
      exact ⟨spawned, inProgress, finished, rfl, by simp [Execution.inProgress, phase]⟩

theorem Invariant.inProgress_independent {state : Execution Name}
    (valid : Invariant payload maxTaskConcurrency state) {left right : Name}
    (leftMember : left ∈ state.inProgress) (rightMember : right ∈ state.inProgress) :
    ¬ Relation.TransGen payload.dag.table.Depends left right := by
  intro path
  obtain ⟨spawned, inProgress, finished, phase, same⟩ :=
    Execution.exists_wave_of_mem_inProgress leftMember
  rw [same] at leftMember rightMember
  have wave := valid.wave spawned inProgress finished phase
  have inWave : ∀ name ∈ inProgress, name ∈ spawned ++ (inProgress ++ finished) :=
    fun name member => List.mem_append_right _ (List.mem_append_left _ member)
  have completed : right ∈ (state.completed : Set Name) := by
    obtain ⟨middle, edge, rest⟩ := Relation.TransGen.head'_iff.mp path
    have first := wave.dependency_completed (inWave left leftMember) edge
    rcases Relation.reflTransGen_iff_eq_or_transGen.mp rest with rfl | beyond
    · exact first
    · exact valid.closed.transGen first beyond
  exact Finset.disjoint_left.mp valid.disjoint
    (wave.pending right (inWave right rightMember)) completed

theorem Invariant.inProgress_length_le {state : Execution Name}
    (valid : Invariant payload maxTaskConcurrency state) :
    state.inProgress.length ≤ max 1 maxTaskConcurrency := by
  cases phase : state.phase with
  | loopHead => simp [Execution.inProgress, phase]
  | stopped => simp [Execution.inProgress, phase]
  | threw => simp [Execution.inProgress, phase]
  | wave spawned inProgress finished =>
      have bound := (valid.wave spawned inProgress finished phase).bound
      simp only [List.length_append] at bound
      simp only [Execution.inProgress, phase]
      omega

/-- In every state of every run, whatever the graph, the limit, the iteration
and completion orders and the flag: no runner starts twice, a task starts after
its dependencies have finished, tasks in progress together are independent and
within the limit, and a loop that is left has finished the dependencies of each
finished task. -/
theorem waves_safe {state : Execution Name}
    (reachable : Reachable payload maxTaskConcurrency state) :
    (∀ runner, (startedRunners state.log).count runner ≤ 1) ∧
    (∀ later name runner past, state.log = later ++ .started name runner :: past →
      ∀ dependency, payload.dag.table.Depends name dependency →
        dependency ∈ finishedNames past) ∧
    (∀ left ∈ state.inProgress, ∀ right ∈ state.inProgress,
      ¬ Relation.TransGen payload.dag.table.Depends left right) ∧
    state.inProgress.length ≤ max 1 maxTaskConcurrency ∧
    (state.phase.isOver = true →
      (∀ name, name ∈ finishedNames state.log ↔ name ∈ state.completed) ∧
      ∀ name ∈ state.completed, ∀ dependency, payload.dag.table.Depends name dependency →
        dependency ∈ state.completed) := by
  have valid := reachable.invariant
  refine ⟨?_, ?_, ?_, valid.inProgress_length_le, fun isOver => ⟨?_, valid.closed⟩⟩
  · intro runner
    exact List.nodup_iff_count_le_one.mp valid.startedRunners_nodup runner
  · intro later name runner past log dependency edge
    have ordered : DependenciesFirst payload.dag.table (.started name runner :: past) :=
      .of_append (log ▸ valid.ordered)
    exact ordered.1 dependency edge
  · exact fun left leftMember right rightMember =>
      valid.inProgress_independent leftMember rightMember
  · simpa [isOver] using valid.finished

def etlPayload : TaskRequestPayload Str where
  taskRunners := [⟨ascii "extract", []⟩, ⟨ascii "load", []⟩]
  dag := {
    rootName := ascii "etl"
    adjacencyList := (∅ : AdjacencyList Str).insert (ascii "extract") []
      |>.insert (ascii "load") [ascii "extract"] }

theorem waves_safe_etl : ∃ state, Reachable etlPayload 4 state ∧
    startedRunners state.log = [0] ∧ (startedRunners state.log).count 0 ≤ 1 := by
  have reachable : ∃ state, Reachable etlPayload 4 state ∧ startedRunners state.log = [0] := by
    have order : IterationOrder [ascii "load", ascii "extract"]
        (Execution.initial etlPayload).pending := ⟨by decide, by decide⟩
    have ready : ascii "extract" ∈ [ascii "extract"] := List.mem_cons_self
    exact ⟨_, .tail (.tail .refl ⟨true, .wave rfl (by decide) rfl (by decide) order rfl (by decide)⟩)
      ⟨true, .start rfl ready rfl⟩, rfl⟩
  obtain ⟨state, reachable, started⟩ := reachable
  exact ⟨state, reachable, started, (waves_safe reachable).1 0⟩

end BabyLuigi.ShyExecutioner
