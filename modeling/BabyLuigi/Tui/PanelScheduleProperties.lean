import BabyLuigi.ScheduleHistoryProperties
import BabyLuigi.Tui.ActionsPanelProperties

/-! Which schedules are in memory of a server that is driven by its panel: a
panel deletes without a schedule, so the first one of a name stays. -/

set_option autoImplicit false

namespace BabyLuigi.Tui

open ConcurrentShyguy

variable {Store : Type}

/-- A request that some run of a panel puts into the queue. -/
def QueuedByPanel (request : ShyguyRequest) : Prop :=
  ∃ (Backend : Type) (admits : PanelEvent → Prop) (panel : ActionsPanel)
    (requests : List ShyguyRequest),
    PanelRun Backend admits panel requests ∧ request ∈ requests

/-- The schedule of the oldest successful creation that carries one. -/
def firstSchedule (name : Str) : History → Option Str
  | [] => none
  | ({ data := .dag dag, command := .create }, .ok _) :: rest =>
    if dag.name = name ∧ hasSchedule dag = true then (firstSchedule name rest).or dag.schedule
    else firstSchedule name rest
  | _ :: rest => firstSchedule name rest

theorem firstSchedule_created {dag : ShyguyDag} {answer : Str} {history : History} (name : Str) :
    firstSchedule name (({ data := .dag dag, command := .create }, .ok answer) :: history) =
      if dag.name = name ∧ hasSchedule dag = true then
        (firstSchedule name history).or dag.schedule
      else firstSchedule name history := rfl

theorem firstSchedule_failed {request : ShyguyRequest} {error : CommandError}
    {history : History} (name : Str) :
    firstSchedule name ((request, .error error) :: history) = firstSchedule name history := by
  obtain ⟨data, command⟩ := request
  cases data <;> cases command <;> rfl

theorem firstSchedule_other {request : ShyguyRequest} {answer : CommandResultType}
    {history : History} (creates : ∀ dag, ¬ Asks .create dag request) (name : Str) :
    firstSchedule name ((request, answer) :: history) = firstSchedule name history := by
  obtain ⟨data, command⟩ := request
  cases answer with
  | error error => exact firstSchedule_failed name
  | ok text =>
      cases data with
      | monostate => cases command <;> rfl
      | task task => cases command <;> rfl
      | dag dag =>
          cases command with
          | create => exact absurd ⟨rfl, rfl⟩ (creates dag)
          | _ => rfl

theorem PanelRequest.removes_unscheduled {request : ShyguyRequest} (made : PanelRequest request)
    {dag : ShyguyDag} (removes : Asks .remove dag request) : hasSchedule dag = false := by
  obtain ⟨isDag, isRemove⟩ := removes
  cases made with
  | createdDag _ _ _ => cases isRemove
  | selectedDag _ _ =>
      cases isDag
      rfl
  | createdTask _ _ _ _ _ _ _ _ => cases isRemove
  | selectedTask _ => cases isDag

/-- Every name has the first schedule that its creations carry. -/
def SchedulesAreFirst (state : ConcurrentShyguy Store) (history : History) : Prop :=
  ∀ name, state.schedules.lookup name = firstSchedule name history

section Steps

variable {environment : Environment Store} {state after : ConcurrentShyguy Store}
  {history : History} {dag : ShyguyDag} {answer : CommandResultType} {request : ShyguyRequest}

/-- A creation adds the schedule that it carries unless the name has one. -/
theorem schedules_of_createDag {schedules : UnorderedMap Str Str}
    (chosen : schedules = (match dag.schedule with
      | some schedule =>
        if hasSchedule dag then (UnorderedMap.emplace dag.name schedule state.schedules).1
        else state.schedules
      | none => state.schedules)) (name : Str) :
    schedules.lookup name =
      if dag.name = name ∧ hasSchedule dag = true then (state.schedules.lookup name).or dag.schedule
      else state.schedules.lookup name := by
  cases given : dag.schedule with
  | none =>
      have carriesNone : ¬ hasSchedule dag = true := by simp [hasSchedule, existsValue, given]
      rw [if_neg fun both => carriesNone both.2, chosen, given]
  | some schedule =>
      rw [given] at chosen
      by_cases carries : hasSchedule dag = true
      · simp only [carries, if_true] at chosen
        by_cases same : dag.name = name
        · subst name
          rw [if_pos ⟨rfl, carries⟩, chosen]
          by_cases scheduled : dag.name ∈ state.schedules
          · obtain ⟨earlier, entry⟩ := Option.isSome_iff_exists.mp (AList.lookup_isSome.mpr scheduled)
            rw [UnorderedMap.emplace_of_mem scheduled, entry]
            rfl
          · rw [UnorderedMap.emplace_of_notMem scheduled, AList.lookup_eq_none.mpr scheduled]
            exact AList.lookup_insert _
        · rw [if_neg fun both => same both.1, chosen]
          by_cases scheduled : dag.name ∈ state.schedules
          · rw [UnorderedMap.emplace_of_mem scheduled]
          · rw [UnorderedMap.emplace_of_notMem scheduled]
            exact AList.lookup_insert_ne (Ne.symm same)
      · simp only [carries] at chosen
        rw [if_neg fun both => carries both.2, chosen]
        rfl

theorem SchedulesAreFirst.create (first : SchedulesAreFirst state history)
    (result : createDag environment state dag = .ok (after, answer)) :
    SchedulesAreFirst after (({ data := .dag dag, command := .create }, answer) :: history) := by
  intro name
  rcases createDag_cases result with
      ⟨rfl, rfl, _⟩ | ⟨storage, schedules, rfl, _, _, chosen, rfl⟩
  · rw [firstSchedule_failed]
    exact first name
  · rw [firstSchedule_created, ← first name]
    exact schedules_of_createDag chosen name

theorem SchedulesAreFirst.process (first : SchedulesAreFirst state history)
    (made : PanelRequest request)
    (result : ConcurrentShyguy.process environment state request = .ok (after, answer)) :
    SchedulesAreFirst after ((request, answer) :: history) := by
  by_cases creates : ∃ dag, Asks .create dag request
  · obtain ⟨dag, isDag, isCreate⟩ := creates
    obtain ⟨data, command⟩ := request
    obtain rfl : data = .dag dag := isDag
    obtain rfl : command = .create := isCreate
    exact first.create result
  · have same : after.schedules = state.schedules := by
      by_cases removes : ∃ dag, Asks .remove dag request
      · obtain ⟨dag, isDag, isRemove⟩ := removes
        have unscheduled := made.removes_unscheduled ⟨isDag, isRemove⟩
        obtain ⟨data, command⟩ := request
        obtain rfl : data = .dag dag := isDag
        obtain rfl : command = .remove := isRemove
        rcases removeDag_cases result with ⟨rfl, _, _⟩ | ⟨_, _, _, _, rfl⟩
        · rfl
        · simp [unscheduled]
      · exact (process_keeps result (not_exists.mp creates) (not_exists.mp removes)).1
    intro name
    rw [same, firstSchedule_other (not_exists.mp creates)]
    exact first name

end Steps

theorem QueuedByPanel.panelRequest {request : ShyguyRequest} (made : QueuedByPanel request) :
    PanelRequest request := by
  obtain ⟨_, _, _, _, run, member⟩ := made
  exact run.panelRequest request member

theorem schedulesAreFirst_of_run {storage : Option Store} {state : ConcurrentShyguy Store}
    {history : History} (run : Run storage (fun _ _ _ => QueuedByPanel) state history) :
    SchedulesAreFirst state history := by
  induction run with
  | start => exact fun name => AList.lookup_empty name
  | handle _ _ _ made result ih => exact ih.process made.panelRequest result

theorem firstSchedule_append {name schedule : Str} {history : History} (later : History)
    (found : firstSchedule name history = some schedule) :
    firstSchedule name (later ++ history) = some schedule := by
  induction later with
  | nil => exact found
  | cons entry later ih =>
      obtain ⟨request, answer⟩ := entry
      by_cases creates : ∃ dag, Asks .create dag request
      · obtain ⟨dag, isDag, isCreate⟩ := creates
        obtain ⟨data, command⟩ := request
        obtain rfl : data = .dag dag := isDag
        obtain rfl : command = .create := isCreate
        cases answer with
        | error error => exact (firstSchedule_failed name).trans ih
        | ok text =>
            rw [List.cons_append, firstSchedule_created, ih]
            split <;> rfl
      · exact (firstSchedule_other (not_exists.mp creates) name).trans ih

/-- A server whose requests all come from panels keeps, for every name, the
first schedule it was created with: no deletion and no later creation removes or
replaces it. -/
theorem panel_schedules_are_first {storage : Option Store} {state : ConcurrentShyguy Store}
    {history : History} (run : Run storage (fun _ _ _ => QueuedByPanel) state history) :
    (∀ name, state.schedules.lookup name = firstSchedule name history) ∧
    ∀ later after, Run storage (fun _ _ _ => QueuedByPanel) after (later ++ history) →
      ∀ name schedule, state.schedules.lookup name = some schedule →
        after.schedules.lookup name = some schedule := by
  have first := schedulesAreFirst_of_run run
  refine ⟨first, ?_⟩
  intro later after continued name schedule found
  rw [schedulesAreFirst_of_run continued name]
  exact firstSchedule_append later ((first name).symm.trans found)

/-- A storage that takes what it is given, and lists one DAG. -/
def listingEnvironment : Environment Unit :=
  { detachedEnvironment with
    storage :=
      { detachedEnvironment.storage with
        upsertDag := fun store _ _ => (store, .value 1)
        listDags := fun _ => .value [⟨{ name := ascii "e", schedule := none }, 1⟩]
        eraseDag := fun store _ _ => (store, .value ()) } }

def deletion : ShyguyRequest where
  data := .dag { name := ascii "e", schedule := none }
  command := .remove

def recreation : ShyguyRequest where
  data := .dag { name := ascii "e", schedule := some (ascii "0 * * * *") }
  command := .create

/-- A panel deletes the DAG that it lists, and creates it again with another
schedule. -/
theorem panelRun_recreated :
    ∃ panel, PanelRun Unit (fun _ => True) panel [recreation, deletion] := by
  let backend : PanelBackend Unit := .storage listingEnvironment.storage ()
  let listed := { ActionsPanel.initial true with
    dagNames := [ascii "e"]
    statusLine := ascii "No tasks available (create tasks first)." }
  let deleted := { listed with
    selectedAction := 1
    statusLine := ascii "Queued 'delete' for dag 'e'" }
  have select {panel : ActionsPanel} {requests : List ShyguyRequest} (action kind : Int)
      (run : PanelRun Unit (fun _ => True) panel requests) :
      PanelRun Unit (fun _ => True)
        { panel with selectedAction := action, dagScheduleKind := kind } requests :=
    run.edit backend (fun _ => none) .other trivial rfl ⟨fun _ => .kept _, rfl, rfl, rfl, rfl⟩
  have construct : PanelRun Unit (fun _ => True) listed [] := .construct backend true rfl
  have deletes : PanelRun Unit (fun _ => True) deleted [deletion] :=
    (select 1 0 construct).press (fun _ => none) rfl
  have named : PanelRun Unit (fun _ => True)
      ({ deleted with selectedAction := 0, dagScheduleKind := 1 }.setInput .dagNameInput (ascii "e"))
      [deletion] :=
    (select 0 1 deletes).handle backend (fun _ => none) (.character (ascii "u")) trivial rfl
  exact ⟨_, named.press (fun _ => none) rfl⟩

/-- Created, deleted and created again with another schedule, a DAG keeps the
first one. -/
theorem panel_schedules_are_first_typed : ∃ (state : ConcurrentShyguy Unit) (history : History),
    Run (some ()) (fun _ _ _ => QueuedByPanel) state history ∧
      history.map Prod.fst = [recreation, deletion, typedRequest] ∧
      (∀ answered ∈ history, ∃ answer, answered.2 = .ok answer) ∧
      state.schedules.lookup (ascii "e") = some (ascii "*") := by
  obtain ⟨_, typed⟩ := panelRun_typed
  obtain ⟨_, recreated⟩ := panelRun_recreated
  have created : QueuedByPanel typedRequest := ⟨_, _, _, _, typed, List.mem_cons_self⟩
  have deletes : QueuedByPanel deletion := ⟨_, _, _, _, recreated, by simp⟩
  have recreates : QueuedByPanel recreation := ⟨_, _, _, _, recreated, by simp⟩
  have run : ∃ state history, Run (some ()) (fun _ _ _ => QueuedByPanel) state history ∧
      history.map Prod.fst = [recreation, deletion, typedRequest] ∧
      (∀ answered ∈ history, ∃ answer, answered.2 = .ok answer) ∧
      firstSchedule (ascii "e") history = some (ascii "*") :=
    ⟨_, _, .handle listingEnvironment recreation (.handle listingEnvironment deletion
      (.handle listingEnvironment typedRequest .start created rfl) deletes rfl) recreates rfl,
      rfl, by simp, by decide⟩
  obtain ⟨state, history, run, requests, answered, first⟩ := run
  exact ⟨state, history, run, requests, answered, ((panel_schedules_are_first run).1 _).trans first⟩

end BabyLuigi.Tui
