import BabyLuigi.ExecutionerProperties
import BabyLuigi.Support.Transition

/-! While the flag stays true the waves end, and the tasks they have run are the
least set that the readiness test closes off. The concurrency limit and the
iteration orders have no influence on it. -/

set_option autoImplicit false

namespace BabyLuigi.ShyExecutioner

variable {Name : Type} [DecidableEq Name]
variable {payload : TaskRequestPayload Name} {maxTaskConcurrency : Nat}

theorem Invariant.card_pending_add_card_completed {state : Execution Name}
    (valid : Invariant payload maxTaskConcurrency state) :
    state.pending.card + state.completed.card = (runnerNames payload).card := by
  rw [← valid.partition, Finset.card_union_of_disjoint valid.disjoint]

theorem WaveReady.length_le_card {pending completed : Finset Name} {wave : List Name}
    (valid : WaveReady payload maxTaskConcurrency pending completed wave) :
    wave.length ≤ pending.card := by
  rw [← List.toFinset_card_of_nodup valid.nodup]
  exact Finset.card_le_card fun name member => valid.pending name (List.mem_toFinset.mp member)

/-! ### Termination -/

/-- An upper bound on the steps left: two for each task of the wave, one to
join, and four for each task that still waits. -/
def remainingSteps (state : Execution Name) : Nat :=
  match state.phase with
  | .loopHead => 4 * state.pending.card + 1
  | .wave spawned inProgress finished =>
    4 * (state.pending.card - (spawned ++ (inProgress ++ finished)).length) +
      2 * spawned.length + inProgress.length + 2
  | .stopped | .threw => 0

theorem Invariant.remainingSteps_lt {before after : Execution Name} {running : Bool}
    (valid : Invariant payload maxTaskConcurrency before)
    (step : Step payload maxTaskConcurrency running before after) :
    remainingSteps after < remainingSteps before := by
  cases step with
  | finished head _ => simp [remainingSteps, head]
  | cleared head _ _ => simp [remainingSteps, head]
  | reserveThrows head _ _ => simp [remainingSteps, head]
  | blocked head _ _ _ _ _ => simp [remainingSteps, head]
  | @wave order ready head _ _ _ iteration selected nonempty =>
      have wave := WaveReady.select iteration selected nonempty
      have within := wave.length_le_card
      have positive := List.length_pos_iff.mpr nonempty
      simp only [remainingSteps, head, List.append_nil, List.length_nil]
      omega
  | @start spawned inProgress finished name runner phase member found =>
      have shorter := List.length_erase_of_mem member
      have positive := List.length_pos_of_mem member
      simp only [remainingSteps, phase, List.length_append, List.length_cons]
      omega
  | @finish spawned inProgress finished name runner phase member found =>
      have shorter := List.length_erase_of_mem member
      have positive := List.length_pos_of_mem member
      simp only [remainingSteps, phase, List.length_append, List.length_cons, List.length_nil]
      omega
  | @join finished phase =>
      have wave := valid.wave [] [] finished phase
      have within : finished.toFinset ⊆ before.pending := fun name member =>
        wave.pending name (by simpa using member)
      have distinct : finished.toFinset.card = finished.length :=
        List.toFinset_card_of_nodup wave.nodup
      have split := Finset.card_sdiff_add_card_eq_card within
      simp only [remainingSteps, phase, List.nil_append, List.length_nil]
      omega

/-- No run of the loop goes on for ever, whatever is read from the flag. -/
theorem acc_initial (payload : TaskRequestPayload Name) (maxTaskConcurrency : Nat)
    (running : Bool) :
    Acc (fun after before => Step payload maxTaskConcurrency running before after)
      (Execution.initial payload) :=
  Transition.acc_of_measure remainingSteps
    (fun _ _ (valid : Invariant payload maxTaskConcurrency _) step => valid.step step)
    (fun _ _ valid step => valid.remainingSteps_lt step)
    .initial

theorem exists_lookup_byName {state : Execution Name} {name : Name}
    (valid : Invariant payload maxTaskConcurrency state) (member : name ∈ state.pending) :
    ∃ runner, (byName payload).lookup name = some runner := by
  apply UnorderedMap.exists_lookup_of_mem_keys
  have named : name ∈ runnerNames payload :=
    valid.partition ▸ Finset.mem_union_left _ member
  rw [← pending_initial] at named
  exact List.mem_toFinset.mp named

theorem iterationOrder_toList (names : Finset Name) : IterationOrder names.toList names :=
  ⟨names.nodup_toList, names.toList_toFinset⟩

/-- Until the loop is left it can go on, and without an exception where the
limit is one that a vector can have. -/
theorem Invariant.exists_step {state : Execution Name}
    (valid : Invariant payload maxTaskConcurrency state) (unfinished : state.phase.isOver = false) :
    ∃ after, Step payload maxTaskConcurrency true state after ∧
      (maxTaskConcurrency ≤ maxSize → after.phase ≠ .threw) := by
  cases phase : state.phase with
  | stopped => simp [phase, Phase.isOver] at unfinished
  | threw => simp [phase, Phase.isOver] at unfinished
  | loopHead =>
      by_cases empty : state.pending = ∅
      · exact ⟨_, .finished phase empty, fun _ => by simp⟩
      · by_cases served : maxTaskConcurrency ≤ maxSize
        · by_cases none : selectReadyTasks payload.dag state.completed maxTaskConcurrency
              state.pending.toList [] = []
          · exact ⟨_, .blocked phase empty rfl served (iterationOrder_toList _) none,
              fun _ => by simp⟩
          · exact ⟨_, .wave phase empty rfl served (iterationOrder_toList _) rfl none,
              fun _ => by simp⟩
        · exact ⟨_, .reserveThrows phase empty rfl, fun fits => absurd fits served⟩
  | wave spawned inProgress finished =>
      have wave := valid.wave spawned inProgress finished phase
      cases spawned with
      | cons name rest =>
          obtain ⟨runner, found⟩ := exists_lookup_byName valid (wave.pending name (by simp))
          exact ⟨_, .start phase List.mem_cons_self found, fun _ => by simp⟩
      | nil =>
          cases inProgress with
          | cons name rest =>
              obtain ⟨runner, found⟩ := exists_lookup_byName valid (wave.pending name (by simp))
              exact ⟨_, .finish phase List.mem_cons_self found, fun _ => by simp⟩
          | nil => exact ⟨_, .join phase, fun _ => by simp⟩

theorem Invariant.exists_step_flag {state : Execution Name}
    (valid : Invariant payload maxTaskConcurrency state) (running : Bool)
    (unfinished : state.phase.isOver = false) :
    ∃ after, Step payload maxTaskConcurrency running state after ∧
      (maxTaskConcurrency ≤ maxSize → after.phase ≠ .threw) := by
  obtain ⟨after, step, served⟩ := valid.exists_step unfinished
  cases running with
  | true => exact ⟨after, step, served⟩
  | false =>
      cases step with
      | finished head empty => exact ⟨_, .finished head empty, served⟩
      | cleared _ _ cleared => cases cleared
      | reserveThrows head waiting _ => exact ⟨_, .cleared head waiting rfl, fun _ => by simp⟩
      | blocked head waiting _ _ _ _ => exact ⟨_, .cleared head waiting rfl, served⟩
      | wave head waiting _ _ _ _ _ => exact ⟨_, .cleared head waiting rfl, fun _ => by simp⟩
      | start phase member found => exact ⟨_, .start phase member found, served⟩
      | finish phase member found => exact ⟨_, .finish phase member found, served⟩
      | join phase => exact ⟨_, .join phase, served⟩

/-! ### The tasks that have run -/

def Phase.openWaves : Phase Name → Nat
  | .wave _ _ _ => 1
  | _ => 0

/-- What holds besides the invariant while the flag stays true. -/
structure RunningInvariant (payload : TaskRequestPayload Name) (maxTaskConcurrency : Nat)
    (state : Execution Name) : Prop where
  safe : Invariant payload maxTaskConcurrency state
  derivable : ∀ name ∈ state.completed,
    payload.dag.table.Derivable (runnerNames payload) name
  blocked : state.phase = .stopped → ∀ name ∈ state.pending,
    ¬ payload.dag.isTaskReady state.completed name = true
  waves : state.waves ≤ state.completed.card + state.phase.openWaves

theorem RunningInvariant.initial :
    RunningInvariant payload maxTaskConcurrency (Execution.initial payload) where
  safe := .initial
  derivable := by simp [Execution.initial]
  blocked := by simp [Execution.initial]
  waves := Nat.zero_le _

theorem not_ready_of_select_eq_nil {completed : Finset Name} {pending : Finset Name}
    {order : List Name} (iteration : IterationOrder order pending)
    (none : selectReadyTasks payload.dag completed maxTaskConcurrency order [] = []) :
    ∀ name ∈ pending, ¬ payload.dag.isTaskReady completed name = true := by
  obtain ⟨chosen, result, _, _, unready, _⟩ :=
    selectReadyTasks_spec payload.dag completed maxTaskConcurrency order [] (by simp)
  rw [List.nil_append] at result
  intro name member
  rw [← iteration.2, List.mem_toFinset] at member
  exact unready (result.symm.trans none) name member

theorem RunningInvariant.join {state : Execution Name} {finished : List Name}
    (valid : RunningInvariant payload maxTaskConcurrency state)
    (phase : state.phase = .wave [] [] finished) :
    RunningInvariant payload maxTaskConcurrency
      { state with
        pending := state.pending \ finished.toFinset
        completed := state.completed ∪ finished.toFinset
        phase := .loopHead } := by
  have wave := valid.safe.wave [] [] finished phase
  have within : finished.toFinset ⊆ state.pending := fun name member =>
    wave.pending name (by simpa using member)
  refine ⟨valid.safe.join phase, ?_, by simp, ?_⟩
  · intro name member
    rcases Finset.mem_union.mp member with old | new
    · exact valid.derivable name old
    · obtain ⟨dependencies, entry, done⟩ :=
        isTaskReady_iff.mp (wave.ready name (List.mem_toFinset.mp new))
      have named : name ∈ runnerNames payload :=
        valid.safe.partition ▸ Finset.mem_union_left _ (within new)
      exact .intro named entry fun dependency listed =>
        valid.derivable dependency (done dependency listed)
  · have fresh : Disjoint state.completed finished.toFinset :=
      (valid.safe.disjoint.mono_left within).symm
    have distinct : finished.toFinset.card = finished.length :=
      List.toFinset_card_of_nodup wave.nodup
    have positive : 0 < finished.length := List.length_pos_iff.mpr wave.nonempty
    have counted := valid.waves
    simp only [phase, Phase.openWaves] at counted
    simp only [Phase.openWaves, Finset.card_union_of_disjoint fresh]
    omega

theorem RunningInvariant.step {before after : Execution Name}
    (valid : RunningInvariant payload maxTaskConcurrency before)
    (step : Step payload maxTaskConcurrency true before after) :
    RunningInvariant payload maxTaskConcurrency after := by
  have safe := valid.safe.step step
  have counted := valid.waves
  cases step with
  | finished head empty =>
      refine ⟨safe, valid.derivable, fun _ => by simp [empty], ?_⟩
      simpa [head, Phase.openWaves] using counted
  | cleared _ _ cleared => cases cleared
  | reserveThrows head _ _ =>
      refine ⟨safe, valid.derivable, by simp, ?_⟩
      simpa [head, Phase.openWaves] using counted
  | blocked head _ _ _ iteration none =>
      refine ⟨safe, valid.derivable, fun _ => not_ready_of_select_eq_nil iteration none, ?_⟩
      simpa [head, Phase.openWaves] using counted
  | wave head _ _ _ _ _ _ =>
      refine ⟨safe, valid.derivable, by simp, ?_⟩
      simpa [head, Phase.openWaves] using counted
  | start phase _ _ =>
      refine ⟨safe, valid.derivable, by simp, ?_⟩
      simpa [phase, Phase.openWaves] using counted
  | finish phase _ _ =>
      refine ⟨safe, valid.derivable, by simp, ?_⟩
      simpa [phase, Phase.openWaves] using counted
  | join phase => exact valid.join phase

theorem ReachableRunning.runningInvariant {state : Execution Name}
    (reachable : ReachableRunning payload maxTaskConcurrency state) :
    RunningInvariant payload maxTaskConcurrency state :=
  Transition.invariant_of_reflTransGen (fun _ _ valid step => valid.step step) .initial reachable

theorem RunningInvariant.waves_le {state : Execution Name}
    (valid : RunningInvariant payload maxTaskConcurrency state) :
    state.waves ≤ (runnerNames payload).card := by
  have total := valid.safe.card_pending_add_card_completed
  have counted := valid.waves
  cases phase : state.phase with
  | loopHead =>
      simp only [phase, Phase.openWaves] at counted
      omega
  | stopped =>
      simp only [phase, Phase.openWaves] at counted
      omega
  | threw =>
      simp only [phase, Phase.openWaves] at counted
      omega
  | wave spawned inProgress finished =>
      have wave := valid.safe.wave spawned inProgress finished phase
      have within := wave.length_le_card
      have positive := List.length_pos_iff.mpr wave.nonempty
      simp only [phase, Phase.openWaves] at counted
      omega

theorem RunningInvariant.saturated {state : Execution Name}
    (valid : RunningInvariant payload maxTaskConcurrency state)
    (unready : ∀ name ∈ state.pending, ¬ payload.dag.isTaskReady state.completed name = true) :
    payload.dag.table.Saturated (runnerNames payload) state.completed := by
  intro name named dependencies entry done
  rw [Finset.mem_coe, ← valid.safe.partition, Finset.mem_union] at named
  rcases named with waiting | completed
  · exact absurd (isTaskReady_iff.mpr ⟨dependencies, entry, done⟩) (unready name waiting)
  · exact completed

/-- The tasks a stopped loop has run are the derivable ones, so they depend on
the payload alone. -/
theorem ReachableRunning.isLeast_finished {state : Execution Name}
    (reachable : ReachableRunning payload maxTaskConcurrency state)
    (stopped : state.phase = .stopped) :
    IsLeast {done | payload.dag.table.Saturated (runnerNames payload) done}
      {name | name ∈ finishedNames state.log} := by
  have valid := reachable.runningInvariant
  have executed : {name | name ∈ finishedNames state.log} = (state.completed : Set Name) := by
    ext name
    simpa [stopped, Phase.ended] using valid.safe.finished name
  rw [executed]
  exact DependencyTable.isLeast_of_subset_derivable (valid.saturated (valid.blocked stopped))
    valid.derivable

/-- The graph has an entry for exactly the runner names, every dependency among
them, and no cycle. -/
structure WellFormed (payload : TaskRequestPayload Name) : Prop where
  acyclic : payload.dag.table.Acyclic
  closed : payload.dag.table.Closed
  keys : payload.dag.adjacencyList.keys.toFinset = runnerNames payload

theorem WellFormed.derivable (wellFormed : WellFormed payload) {name : Name}
    (named : name ∈ runnerNames payload) :
    payload.dag.table.Derivable (runnerNames payload) name := by
  have entries : ∀ node, node ∈ (runnerNames payload : Set Name) ↔
      ∃ dependencies, payload.dag.table node = some dependencies := by
    intro node
    rw [← DirectedAcyclicGraph.mem_keys_iff_table, Finset.mem_coe, ← wellFormed.keys,
      List.mem_toFinset]
  exact wellFormed.acyclic.derivable (Finset.finite_toSet _) wellFormed.closed entries named

theorem RunningInvariant.select_ne_nil {state : Execution Name} {order : List Name}
    (valid : RunningInvariant payload maxTaskConcurrency state) (wellFormed : WellFormed payload)
    (waiting : state.pending ≠ ∅) (iteration : IterationOrder order state.pending) :
    selectReadyTasks payload.dag state.completed maxTaskConcurrency order [] ≠ [] := by
  intro none
  have saturated := valid.saturated (not_ready_of_select_eq_nil iteration none)
  obtain ⟨name, member⟩ := Finset.nonempty_iff_ne_empty.mpr waiting
  have named : name ∈ runnerNames payload :=
    valid.safe.partition ▸ Finset.mem_union_left _ member
  have completed : name ∈ (state.completed : Set Name) :=
    (DependencyTable.isLeast_derivable _ _).2 saturated (wellFormed.derivable named)
  exact Finset.disjoint_left.mp valid.safe.disjoint member completed

theorem RunningInvariant.startedNames_iff_finishedNames {state : Execution Name}
    (valid : RunningInvariant payload maxTaskConcurrency state) (stopped : state.phase = .stopped)
    (name : Name) : name ∈ startedNames state.log ↔ name ∈ finishedNames state.log := by
  rw [valid.safe.started, valid.safe.finished, stopped]
  simp only [Phase.begun, Phase.ended]

theorem ReachableRunning.finished_iff_runnerNames {state : Execution Name}
    (reachable : ReachableRunning payload maxTaskConcurrency state)
    (stopped : state.phase = .stopped) (wellFormed : WellFormed payload) (name : Name) :
    name ∈ finishedNames state.log ↔ name ∈ runnerNames payload := by
  have valid := reachable.runningInvariant
  constructor
  · intro finished
    rw [valid.safe.finished, stopped] at finished
    exact valid.safe.partition ▸ Finset.mem_union_right _ (by simpa [Phase.ended] using finished)
  · intro named
    have saturated := (reachable.isLeast_finished stopped).1
    exact (DependencyTable.isLeast_derivable _ _).2 saturated (wellFormed.derivable named)

/-- While the flag stays true, the loop ends after at most one wave for each
distinct runner name. Unless a `reserve` has thrown, what it has run then is the
least set of runner names that holds each key whose dependencies it holds: the
same set for every limit and every order. On a well-formed payload that is every
runner name, and a pending task always leaves some task ready. -/
theorem waves_run_least_set (payload : TaskRequestPayload Name) (maxTaskConcurrency : Nat) :
    Acc (fun after before => Step payload maxTaskConcurrency true before after)
      (Execution.initial payload) ∧
    (∀ state, ReachableRunning payload maxTaskConcurrency state →
      state.waves ≤ (runnerNames payload).card ∧
      (state.phase.isOver = false →
        ∃ after, Step payload maxTaskConcurrency true state after ∧
          (maxTaskConcurrency ≤ maxSize → after.phase ≠ .threw))) ∧
    (∀ state, ReachableRunning payload maxTaskConcurrency state → state.phase = .stopped →
      IsLeast {done | payload.dag.table.Saturated (runnerNames payload) done}
        {name | name ∈ finishedNames state.log} ∧
      (∀ name, name ∈ startedNames state.log ↔ name ∈ finishedNames state.log) ∧
      ∀ otherLimit other, ReachableRunning payload otherLimit other → other.phase = .stopped →
        ∀ name, name ∈ finishedNames other.log ↔ name ∈ finishedNames state.log) ∧
    (WellFormed payload →
      (∀ state, ReachableRunning payload maxTaskConcurrency state → state.phase = .stopped →
        ∀ name, name ∈ finishedNames state.log ↔ name ∈ runnerNames payload) ∧
      ∀ state, ReachableRunning payload maxTaskConcurrency state → state.pending ≠ ∅ →
        ∀ order, IterationOrder order state.pending →
          selectReadyTasks payload.dag state.completed maxTaskConcurrency order [] ≠ []) := by
  refine ⟨acc_initial payload maxTaskConcurrency true, ?_, ?_, fun wellFormed => ⟨?_, ?_⟩⟩
  · intro state reachable
    have valid := reachable.runningInvariant
    exact ⟨valid.waves_le, valid.safe.exists_step⟩
  · intro state reachable stopped
    have least := reachable.isLeast_finished stopped
    refine ⟨least, reachable.runningInvariant.startedNames_iff_finishedNames stopped, ?_⟩
    intro otherLimit other otherReachable otherStopped name
    exact Set.ext_iff.mp ((otherReachable.isLeast_finished otherStopped).unique least) name
  · exact fun state reachable stopped => reachable.finished_iff_runnerNames stopped wellFormed
  · exact fun state reachable waiting order iteration =>
      reachable.runningInvariant.select_ne_nil wellFormed waiting iteration

/-- With a limit beyond the largest size of a vector no wave begins. -/
theorem log_eq_nil_of_maxSize_lt {state : Execution Name} (huge : maxSize < maxTaskConcurrency)
    (reachable : ReachableRunning payload maxTaskConcurrency state) : state.log = [] := by
  have idle : state.log = [] ∧ ∀ spawned inProgress finished,
      state.phase ≠ .wave spawned inProgress finished := by
    induction reachable with
    | refl => exact ⟨rfl, by simp [Execution.initial]⟩
    | tail _ step ih =>
        obtain ⟨empty, noWave⟩ := ih
        cases step with
        | finished _ _ => exact ⟨empty, by simp⟩
        | cleared _ _ _ => exact ⟨empty, by simp⟩
        | reserveThrows _ _ _ => exact ⟨empty, by simp⟩
        | blocked _ _ _ _ _ _ => exact ⟨empty, by simp⟩
        | wave _ _ _ fits _ _ _ => exact absurd fits (Nat.not_le.mpr huge)
        | start phase _ _ => exact absurd phase (noWave _ _ _)
        | finish phase _ _ => exact absurd phase (noWave _ _ _)
        | join phase => exact absurd phase (noWave _ _ _)
  exact idle.1

/-- No vector has room for this limit: in every state that the loop ends in
nothing has run, though one task waits for nothing. -/
theorem hugeLimit_runs_nothing :
    (∃ state, ReachableRunning etlPayload (2 ^ 60 + 4) state ∧ state.phase.isOver = true) ∧
    ∀ state, ReachableRunning etlPayload (2 ^ 60 + 4) state →
      finishedNames state.log = [] ∧
      ¬ IsLeast {done | etlPayload.dag.table.Saturated (runnerNames etlPayload) done}
        {name | name ∈ finishedNames state.log} := by
  refine ⟨⟨_, .tail .refl (.reserveThrows rfl (by decide) rfl), rfl⟩, ?_⟩
  intro state reachable
  have none : finishedNames state.log = [] := by
    rw [log_eq_nil_of_maxSize_lt (by decide) reachable]
    rfl
  refine ⟨none, ?_⟩
  intro least
  have named : ascii "extract" ∈ (runnerNames etlPayload : Set Str) := by decide
  have ran : ascii "extract" ∈ finishedNames state.log := least.1 _ named [] rfl (by simp)
  exact List.not_mem_nil (none ▸ ran)

end BabyLuigi.ShyExecutioner
