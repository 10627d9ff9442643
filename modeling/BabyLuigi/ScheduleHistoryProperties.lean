import BabyLuigi.ConcurrentShyguyProperties
import BabyLuigi.NextScheduledDagProperties

/-! Which schedules are in memory after a history of requests, compared with
the creations that history holds. -/

set_option autoImplicit false

namespace BabyLuigi.ConcurrentShyguy

variable {Store : Type}

/-- The DAG of the newest successful creation under the name. -/
def mostRecentCreate (name : Str) : History → Option ShyguyDag
  | [] => none
  | ({ data := .dag dag, command := .create }, .ok _) :: rest =>
    if dag.name = name then some dag else mostRecentCreate name rest
  | _ :: rest => mostRecentCreate name rest

/-- A name has a schedule exactly when it is the name of a DAG created last
with a non-empty schedule, which is then the one it has. -/
def SchedulesFollowCreates (state : ConcurrentShyguy Store) (history : History) : Prop :=
  ∀ name schedule, state.schedules.lookup name = some schedule ↔
    name ∈ state.dags ∧ ∃ dag, mostRecentCreate name history = some dag ∧
      dag.schedule = some schedule ∧ schedule ≠ []

/-- A removal of a DAG that has a schedule in memory carries one itself. -/
def RemovalNamesSchedule (state : ConcurrentShyguy Store) (request : ShyguyRequest) : Prop :=
  ∀ dag, Asks .remove dag request → dag.name ∈ state.dags → dag.name ∈ state.schedules →
    hasSchedule dag = true

theorem mostRecentCreate_created {dag : ShyguyDag} {answer : Str} {history : History} (name : Str) :
    mostRecentCreate name (({ data := .dag dag, command := .create }, .ok answer) :: history) =
      if dag.name = name then some dag else mostRecentCreate name history := rfl

theorem mostRecentCreate_failed {request : ShyguyRequest} {error : CommandError}
    {history : History} (name : Str) :
    mostRecentCreate name ((request, .error error) :: history) = mostRecentCreate name history := by
  obtain ⟨data, command⟩ := request
  cases data <;> cases command <;> rfl

theorem mostRecentCreate_other {request : ShyguyRequest} {answer : CommandResultType}
    {history : History} (creates : ∀ dag, ¬ Asks .create dag request) (name : Str) :
    mostRecentCreate name ((request, answer) :: history) = mostRecentCreate name history := by
  obtain ⟨data, command⟩ := request
  cases answer with
  | error error => exact mostRecentCreate_failed name
  | ok text =>
      cases data with
      | monostate => cases command <;> rfl
      | task task => cases command <;> rfl
      | dag dag =>
          cases command with
          | create => exact absurd ⟨rfl, rfl⟩ (creates dag)
          | _ => rfl

theorem mostRecentCreate_name {name : Str} {history : History} {dag : ShyguyDag}
    (recent : mostRecentCreate name history = some dag) : dag.name = name := by
  fun_induction mostRecentCreate name history with
  | case1 => cases recent
  | case2 found _ _ same => exact Option.some.inj recent ▸ same
  | case3 _ _ _ _ ih => exact ih recent
  | case4 _ _ _ ih => exact ih recent

theorem hasSchedule_iff {dag : ShyguyDag} :
    hasSchedule dag = true ↔ ∃ schedule, dag.schedule = some schedule ∧ schedule ≠ [] := by
  unfold hasSchedule existsValue
  cases dag.schedule with
  | none => simp
  | some schedule => simp

theorem SchedulesFollowCreates.create {environment : Environment Store}
    {state after : ConcurrentShyguy Store} {history : History} {dag : ShyguyDag}
    {answer : CommandResultType} (follows : SchedulesFollowCreates state history)
    (result : createDag environment state dag = .ok (after, answer)) :
    SchedulesFollowCreates after
      (({ data := .dag dag, command := .create }, answer) :: history) := by
  rcases createDag_cases result with
      ⟨rfl, rfl, _⟩ | ⟨storage, schedules, rfl, absent, _, chosen, rfl⟩
  · intro name schedule
    rw [mostRecentCreate_failed]
    exact follows name schedule
  · have unscheduled : dag.name ∉ state.schedules := by
      intro member
      obtain ⟨schedule, entry⟩ := Option.isSome_iff_exists.mp (AList.lookup_isSome.mpr member)
      exact absent ((follows dag.name schedule).mp entry).1
    intro name schedule
    dsimp only
    rw [mostRecentCreate_created, AList.mem_insert]
    by_cases same : dag.name = name
    · subst name
      have entry : schedules.lookup dag.name = if hasSchedule dag then dag.schedule else none := by
        rw [chosen]
        cases given : dag.schedule with
        | none => simpa using AList.lookup_eq_none.mpr unscheduled
        | some listed =>
            dsimp only
            split
            · rw [UnorderedMap.emplace_of_notMem unscheduled]
              exact AList.lookup_insert _
            · exact AList.lookup_eq_none.mpr unscheduled
      rw [entry]
      constructor
      · intro found
        split at found
        · rename_i carries
          obtain ⟨listed, given, nonempty⟩ := hasSchedule_iff.mp carries
          obtain rfl := Option.some.inj (given.symm.trans found)
          exact ⟨.inl rfl, dag, by simp, found, nonempty⟩
        · cases found
      · intro held
        obtain ⟨_, created, recent, given, nonempty⟩ := held
        obtain rfl : dag = created := by simpa using recent
        rw [if_pos (hasSchedule_iff.mpr ⟨schedule, given, nonempty⟩)]
        exact given
    · have kept : schedules.lookup name = state.schedules.lookup name := by
        rw [chosen]
        cases dag.schedule with
        | none => rfl
        | some listed =>
            dsimp only
            split
            · rw [UnorderedMap.emplace_of_notMem unscheduled]
              exact AList.lookup_insert_ne (Ne.symm same)
            · rfl
      rw [kept, if_neg same, follows name schedule]
      simp [Ne.symm same]

theorem SchedulesFollowCreates.remove {environment : Environment Store}
    {state after : ConcurrentShyguy Store} {history : History} {dag : ShyguyDag}
    {answer : CommandResultType} (follows : SchedulesFollowCreates state history)
    (names : RemovalNamesSchedule state { data := .dag dag, command := .remove })
    (result : removeDag environment state dag = .ok (after, answer)) :
    SchedulesFollowCreates after
      (({ data := .dag dag, command := .remove }, answer) :: history) := by
  have recent : ∀ name, mostRecentCreate name
      (({ data := .dag dag, command := .remove }, answer) :: history) =
        mostRecentCreate name history :=
    mostRecentCreate_other fun other asks => by cases asks.2
  rcases removeDag_cases result with ⟨rfl, rfl, _⟩ | ⟨storage, rfl, present, _, rfl⟩
  · intro name schedule
    rw [recent]
    exact follows name schedule
  · intro name schedule
    dsimp only
    rw [recent, AList.mem_erase]
    by_cases same : name = dag.name
    · subst name
      have gone : (if hasSchedule dag then state.schedules.erase dag.name
          else state.schedules).lookup dag.name = none := by
        split
        · exact AList.lookup_erase _ _
        · rename_i carriesNone
          exact AList.lookup_eq_none.mpr fun scheduled =>
            carriesNone (names dag ⟨rfl, rfl⟩ present scheduled)
      simp [gone]
    · have kept : (if hasSchedule dag then state.schedules.erase dag.name
          else state.schedules).lookup name = state.schedules.lookup name := by
        split
        · exact AList.lookup_erase_ne same
        · rfl
      rw [kept, follows name schedule]
      simp [same]

theorem SchedulesFollowCreates.process {environment : Environment Store}
    {state after : ConcurrentShyguy Store} {history : History} {request : ShyguyRequest}
    {answer : CommandResultType} (follows : SchedulesFollowCreates state history)
    (names : RemovalNamesSchedule state request)
    (result : ConcurrentShyguy.process environment state request = .ok (after, answer)) :
    SchedulesFollowCreates after ((request, answer) :: history) := by
  by_cases creates : ∃ dag, Asks .create dag request
  · obtain ⟨dag, isDag, isCreate⟩ := creates
    obtain ⟨data, command⟩ := request
    obtain rfl : data = .dag dag := isDag
    obtain rfl : command = .create := isCreate
    exact follows.create result
  · by_cases removes : ∃ dag, Asks .remove dag request
    · obtain ⟨dag, isDag, isRemove⟩ := removes
      obtain ⟨data, command⟩ := request
      obtain rfl : data = .dag dag := isDag
      obtain rfl : command = .remove := isRemove
      exact follows.remove names result
    · obtain ⟨sameSchedules, sameDags⟩ :=
        process_keeps result (not_exists.mp creates) (not_exists.mp removes)
      intro name schedule
      rw [sameSchedules, sameDags, mostRecentCreate_other (not_exists.mp creates)]
      exact follows name schedule

/-- The condition is also needed: a successful removal that breaks it leaves a
schedule without its DAG. -/
theorem removalNamesSchedule_of_follows {environment : Environment Store}
    {state after : ConcurrentShyguy Store} {history : History} {request : ShyguyRequest}
    {answer : CommandResultType} (follows : SchedulesFollowCreates after history)
    (result : ConcurrentShyguy.process environment state request = .ok (after, answer)) :
    RemovalNamesSchedule state request := by
  intro dag held present scheduled
  obtain ⟨isDag, isRemove⟩ := held
  obtain ⟨data, command⟩ := request
  obtain rfl : data = .dag dag := isDag
  obtain rfl : command = .remove := isRemove
  rcases removeDag_cases result with ⟨_, _, absent⟩ | ⟨storage, _, _, _, rfl⟩
  · exact absurd present absent
  · by_contra carriesNone
    obtain ⟨schedule, entry⟩ := Option.isSome_iff_exists.mp (AList.lookup_isSome.mpr scheduled)
    have kept := (follows dag.name schedule).mp (by simpa [carriesNone] using entry)
    simpa using kept.1

theorem Run.schedulesFollowCreates {storage : Option Store} {state : ConcurrentShyguy Store}
    {history : History} (run : Run storage (fun _ _ => RemovalNamesSchedule) state history) :
    SchedulesFollowCreates state history := by
  induction run with
  | start => simp [SchedulesFollowCreates, initial]
  | handle _ _ _ names result ih => exact ih.process names result

/-- When every removal of a scheduled DAG carries a schedule, the schedules in
memory are those of the newest creations, and only those are ever selected. -/
theorem run_schedules_follow_creates {storage : Option Store} {state : ConcurrentShyguy Store}
    {history : History} (run : Run storage (fun _ _ => RemovalNamesSchedule) state history) :
    (∀ name schedule, state.schedules.lookup name = some schedule ↔
      name ∈ state.dags ∧ ∃ dag, mostRecentCreate name history = some dag ∧
        dag.schedule = some schedule ∧ schedule ≠ []) ∧
    (∀ name, name ∉ state.dags → name ∉ state.schedules) ∧
    ∀ (calcNext : CalcNext) (traversal : UnorderedMap.Traversal Str Str)
      (clocks : ClockReadings) (notification : NotificationType),
      nextScheduledDag calcNext traversal clocks state = .ok (some notification) →
      ∃ dag schedule tp, mostRecentCreate dag.name history = some dag ∧
        dag.schedule = some schedule ∧
        notification.associatedRequest = { data := .dag dag, command := .execute } ∧
        calcNext schedule clocks.nowSystem = .ok (some tp) ∧
        notification.time = clocks.nowSteady + (tp - clocks.nowSystem) := by
  have follows := run.schedulesFollowCreates
  refine ⟨follows, ?_, ?_⟩
  · intro name absent scheduled
    obtain ⟨schedule, entry⟩ := Option.isSome_iff_exists.mp (AList.lookup_isSome.mpr scheduled)
    exact absent ((follows name schedule).mp entry).1
  · intro calcNext traversal clocks notification result
    obtain ⟨name, schedule, tp, rfl, entry, found, _⟩ := nextScheduledDag_some result
    obtain ⟨_, ⟨dagName, dagSchedule⟩, recent, given, _⟩ := (follows name schedule).mp entry
    obtain rfl : dagName = name := mostRecentCreate_name recent
    obtain rfl : dagSchedule = some schedule := given
    exact ⟨_, schedule, tp, recent, rfl, rfl, found, rfl⟩

/-- A server without storage never calls it. -/
def detachedEnvironment : Environment Unit where
  storage := {
    putBlob := fun store _ => (store, .error .unsupported)
    upsertDag := fun store _ _ => (store, .error .unsupported)
    getDag := fun _ _ => .error .unsupported
    listDags := fun _ => .error .unsupported
    eraseDag := fun store _ _ => (store, .error .unsupported)
    upsertTask := fun store _ _ _ _ => (store, .error .unsupported)
    getTask := fun _ _ _ => .error .unsupported
    listTasks := fun _ _ => .error .unsupported
    eraseTask := fun store _ _ _ => (store, .error .unsupported) }
  traversal := .storage _ _
  steadyNow := 0

def dagRequest (command : CommandEnum) (name : Str) (schedule : Option Str) : ShyguyRequest where
  data := .dag { name := name, schedule := schedule }
  command := command

/-- A DAG created, removed with its schedule and created with another one. -/
theorem run_schedules_follow_creates_etl :
    ∃ state history, Run (none : Option Unit) (fun _ _ => RemovalNamesSchedule) state history ∧
      state.schedules.lookup (ascii "etl") = some (ascii "30 6 * * *") := by
  have run : ∃ state history, Run (none : Option Unit) (fun _ _ => RemovalNamesSchedule) state history ∧
      ascii "etl" ∈ state.dags ∧
      mostRecentCreate (ascii "etl") history =
        some { name := ascii "etl", schedule := some (ascii "30 6 * * *") } := by
    refine ⟨_, _, .handle detachedEnvironment
      (dagRequest .create (ascii "etl") (some (ascii "30 6 * * *")))
      (.handle detachedEnvironment
        (dagRequest .remove (ascii "etl") (some (ascii "0 0 * * *")))
        (.handle detachedEnvironment
          (dagRequest .create (ascii "etl") (some (ascii "0 0 * * *"))) .start ?_ rfl)
        ?_ rfl) ?_ rfl, by decide, by decide⟩
    · intro dag held
      obtain ⟨_, ⟨⟩⟩ := held
    · intro dag held _ _
      obtain ⟨⟨⟩, _⟩ := held
      decide
    · intro dag held
      obtain ⟨_, ⟨⟩⟩ := held
  obtain ⟨state, history, run, present, recent⟩ := run
  exact ⟨state, history, run, ((run_schedules_follow_creates run).1 _ _).mpr
    ⟨present, _, recent, rfl, by decide⟩⟩

/-- A removal without a schedule leaves the old one behind, and a new creation
does not replace it. -/
theorem removed_schedule_survives :
    (∃ (state : ConcurrentShyguy Unit) (history : History),
      Run none (fun _ _ _ _ => True) state history ∧
      ascii "etl" ∉ state.dags ∧ ascii "etl" ∈ state.schedules) ∧
    ∃ (state : ConcurrentShyguy Unit) (history : History),
      Run none (fun _ _ _ _ => True) state history ∧
      mostRecentCreate (ascii "etl") history =
        some { name := ascii "etl", schedule := some (ascii "30 6 * * *") } ∧
      state.schedules.lookup (ascii "etl") = some (ascii "0 0 * * *") ∧
      (nextScheduledDag (fun _ now => .ok (some (now + 1))) (.storage _ _) ⟨0, 0⟩ state) =
        .ok (some (notificationFor ⟨0, 0⟩ (ascii "etl") (ascii "0 0 * * *") 1)) := by
  refine ⟨⟨_, _, .handle detachedEnvironment (dagRequest .remove (ascii "etl") none)
      (.handle detachedEnvironment
        (dagRequest .create (ascii "etl") (some (ascii "0 0 * * *")))
        .start trivial rfl) trivial rfl, by decide, by decide⟩,
    ⟨_, _, .handle detachedEnvironment
      (dagRequest .create (ascii "etl") (some (ascii "30 6 * * *")))
      (.handle detachedEnvironment (dagRequest .remove (ascii "etl") none)
        (.handle detachedEnvironment
          (dagRequest .create (ascii "etl") (some (ascii "0 0 * * *")))
          .start trivial rfl) trivial rfl) trivial rfl, by decide, by decide, rfl⟩⟩

end BabyLuigi.ConcurrentShyguy
