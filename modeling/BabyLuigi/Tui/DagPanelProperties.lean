import BabyLuigi.StoredSchedulesProperties
import BabyLuigi.Tui.DagPanel

/-! What the DAG panel shows of a server: its DAGs and tasks under the dates of
their schedules, and never a run. -/

set_option autoImplicit false

namespace BabyLuigi.Tui

/-! ### The frequency of a table -/

def knownFrequency (entry : TaskEntry) : Option ScheduleFrequency :=
  entry.metadata.bind fun metadata =>
    if metadata.schedule.frequency = .unset ∨ metadata.schedule.frequency = .unknown then none
    else some metadata.schedule.frequency

theorem inferFrequencyFrom_cons (entry : TaskEntry) (rest : List TaskEntry)
    (inferred : ScheduleFrequency) :
    inferFrequencyFrom (entry :: rest) inferred =
      match knownFrequency entry with
      | none => inferFrequencyFrom rest inferred
      | some freq =>
        if inferred = .unset then inferFrequencyFrom rest freq
        else if inferred ≠ freq then .daily
        else inferFrequencyFrom rest inferred := by
  rw [inferFrequencyFrom, knownFrequency]
  cases entry.metadata with
  | none => rfl
  | some metadata =>
      dsimp only [Option.bind_some]
      split <;> rfl

theorem knownFrequency_ne_unset {entry : TaskEntry} {frequency : ScheduleFrequency}
    (known : knownFrequency entry = some frequency) : frequency ≠ .unset := by
  obtain ⟨metadata, _, isKnown⟩ := Option.bind_eq_some_iff.mp known
  split at isKnown
  · cases isKnown
  · cases isKnown
    rename_i named
    exact fun unset => named (.inl unset)

/-- After a first frequency, one that differs makes the table daily. -/
theorem inferFrequencyFrom_started {inferred : ScheduleFrequency} (started : inferred ≠ .unset)
    (tasks : List TaskEntry) :
    inferFrequencyFrom tasks inferred =
      if ∀ other ∈ tasks.filterMap knownFrequency, other = inferred then inferred else .daily := by
  induction tasks with
  | nil => simp [inferFrequencyFrom, started]
  | cons entry rest ih =>
      rw [inferFrequencyFrom_cons, List.filterMap_cons]
      cases known : knownFrequency entry with
      | none => exact ih
      | some freq =>
          simp only [if_neg started, ih, List.forall_mem_cons]
          by_cases same : inferred = freq
          · subst same
            rw [if_neg (not_not.mpr rfl)]
            exact if_congr (and_iff_right rfl).symm rfl rfl
          · rw [if_pos same, if_neg fun all => same all.1.symm]

/-- A table has the frequency that its tasks share, as far as they have one. -/
theorem inferFrequency_eq (tasks : List TaskEntry) :
    inferFrequency tasks =
      match tasks.filterMap knownFrequency with
      | [] => .daily
      | first :: others => if ∀ other ∈ others, other = first then first else .daily := by
  rw [inferFrequency]
  induction tasks with
  | nil => rfl
  | cons entry rest ih =>
      rw [inferFrequencyFrom_cons, List.filterMap_cons]
      cases known : knownFrequency entry with
      | none => exact ih
      | some freq => exact inferFrequencyFrom_started (knownFrequency_ne_unset known) rest

/-- The frequency under which the tasks of a DAG with the schedule are shown. -/
def shownFrequency : Option Str → ScheduleFrequency
  | none => .daily
  | some cron => if cron.isEmpty then .daily else classifySchedule cron

theorem inferFrequency_described {tasks : List TaskEntry} (nonempty : tasks ≠ [])
    {schedule : Option Str}
    (described : ∀ entry ∈ tasks, entry.metadata = describeSchedule schedule) :
    inferFrequency tasks = shownFrequency schedule := by
  have unscheduled : describeSchedule schedule = none → inferFrequency tasks = .daily := by
    intro none
    have unknown : ∀ entry ∈ tasks, knownFrequency entry = Option.none := by
      intro entry member
      rw [knownFrequency, described entry member, none]
      rfl
    rw [inferFrequency_eq, List.filterMap_eq_nil_iff.mpr unknown]
  cases schedule with
  | none => exact unscheduled rfl
  | some cron =>
      by_cases blank : cron.isEmpty = true
      · rw [shownFrequency, if_pos blank]
        exact unscheduled (if_pos blank)
      · have known : ∀ entry ∈ tasks, knownFrequency entry = some (classifySchedule cron) := by
          intro entry member
          obtain ⟨notUnset, notUnknown⟩ := classifySchedule_named cron
          rw [knownFrequency, described entry member, describeSchedule, if_neg blank]
          simp [notUnset, notUnknown]
        obtain ⟨first, others, rfl⟩ := List.exists_cons_of_ne_nil nonempty
        rw [inferFrequency_eq, List.filterMap_cons_some (known first List.mem_cons_self),
          shownFrequency, if_neg blank]
        refine if_pos fun other member => ?_
        obtain ⟨entry, isEntry, found⟩ := List.mem_filterMap.mp member
        exact Option.some.inj (found.symm.trans (known entry (List.mem_cons_of_mem _ isEntry)))

/-! ### The tabs -/

/-- The tab of a DAG with these tasks, none of which has a run. -/
def blankTab (clock : PanelClock) (reading : Nat) (dagName : Str) (schedule : Option Str)
    (tasks : List Str) : DagTab :=
  if tasks.isEmpty then .text (ascii "No tasks registered for " ++ dagName)
  else
    let dates := (List.range 15).reverse.map fun offset =>
      clock.formatDate (clock.now reading - frequencyInterval (shownFrequency schedule) * offset)
    .table dagName
      ((ascii "task" :: dates) :: tasks.map fun name => name :: List.replicate 15 (ascii " "))
      (tasks.map fun _ => List.replicate 15 .none)

theorem frequencyInterval_pos (frequency : ScheduleFrequency) : 0 < frequencyInterval frequency := by
  cases frequency <;> decide

theorem runStatuses_described {entry : TaskEntry} {schedule : Option Str}
    (described : entry.metadata = describeSchedule schedule) :
    runStatuses entry = List.replicate 15 .none := by
  rw [runStatuses, described]
  cases schedule with
  | none => rfl
  | some cron =>
      rw [describeSchedule]
      cases cron.isEmpty <;> rfl

theorem buildDagTaskTable_described (clock : PanelClock) (reading : Nat) (dagName : Str)
    {tasks : List TaskEntry} {schedule : Option Str}
    (described : ∀ entry ∈ tasks, entry.metadata = describeSchedule schedule) :
    buildDagTaskTable clock reading dagName tasks =
      blankTab clock reading dagName schedule (tasks.map fun entry => entry.value.name) := by
  rw [buildDagTaskTable, blankTab, List.isEmpty_map]
  by_cases empty : tasks.isEmpty = true
  · rw [if_pos empty, if_pos empty]
  · have statuses : tasks.map runStatuses =
        (tasks.map fun entry => entry.value.name).map fun _ => List.replicate 15 .none := by
      rw [List.map_map]
      exact List.map_congr_left fun entry member => runStatuses_described (described entry member)
    have rows : (tasks.map fun entry => entry.value.name :: (runStatuses entry).map statusGlyph) =
        (tasks.map fun entry => entry.value.name).map fun name =>
          name :: List.replicate 15 (ascii " ") := by
      rw [List.map_map]
      refine List.map_congr_left fun entry member => ?_
      rw [runStatuses_described (described entry member)]
      rfl
    have nonempty : tasks ≠ [] := fun none => empty (by rw [none]; rfl)
    rw [if_neg empty, if_neg empty, makeRunLabels, inferFrequency_described nonempty described,
      if_neg (frequencyInterval_pos _).not_ge, statuses, rows]
    rfl

/-- The tabs under the names, from the table with this number on. -/
inductive ShowsTabs (shows : Nat → Str → DagTab → Prop) : Nat → List Str → List DagTab → Prop where
  | nil (reading : Nat) : ShowsTabs shows reading [] []
  | cons {reading : Nat} {name : Str} {tab : DagTab} {names : List Str} {tabs : List DagTab} :
      shows reading name tab → ShowsTabs shows (reading + 1) names tabs →
      ShowsTabs shows reading (name :: names) (tab :: tabs)

variable {Store : Type}

theorem dagTabs_shows (shows : Nat → Str → DagTab → Prop) (clock : PanelClock)
    (interface : Storage Store) (store : Store) {names : List Str}
    (listed : ∀ name ∈ names, ∃ tasks, interface.listTasks store name = .value tasks ∧
      ∀ reading, shows reading name (buildDagTaskTable clock reading name tasks)) (reading : Nat) :
    ∃ tabs, dagTabs clock interface store reading names = .ok tabs ∧
      ShowsTabs shows reading names tabs := by
  induction names generalizing reading with
  | nil => exact ⟨[], rfl, .nil reading⟩
  | cons name rest ih =>
      obtain ⟨tasks, tasksListed, shown⟩ := listed name List.mem_cons_self
      obtain ⟨tabs, made, showsRest⟩ :=
        ih (fun other member => listed other (List.mem_cons_of_mem _ member)) (reading + 1)
      refine ⟨_, ?_, .cons (shown reading) showsRest⟩
      simp only [dagTabs, tasksListed, made]
      rfl

/-! ### Runs of the server -/

open ConcurrentShyguy (Agrees History Holds HoldsSchedules ListsDescribed RemovesEmptied Run Unremoved)
open FsStorage (EmptyRoot)

variable {root : StoreRoot} {state : ConcurrentShyguy Files} {history : History}

/-- The tab of a DAG: each task that was created in it and not removed is in
its graph and has one line without a run, under dates that lie apart by the
period of the schedule in memory. -/
def ShowsDag (clock : PanelClock) (state : ConcurrentShyguy Files) (history : History)
    (reading : Nat) (name : Str) (tab : DagTab) : Prop :=
  ∃ tasks : List Str, tasks.Nodup ∧
    (∀ task, task ∈ tasks ↔ Holds state name task ∧ Unremoved name task history) ∧
    tab = blankTab clock reading name (state.schedules.lookup name) tasks

/-- A menu with one tab for each DAG in memory. -/
structure ShowsServer (clock : PanelClock) (state : ConcurrentShyguy Files) (history : History)
    (menu : DagMenu) : Prop where
  once : menu.names.Nodup
  named : ∀ name, name ∈ menu.names ↔ name ∈ state.dags
  pages : ShowsTabs (ShowsDag clock state history) 0 menu.names menu.pages

theorem updateDagPanel_shows {blobDisk dagDisk taskDisk : DiskBehavior} {files : Files}
    (lists : ListsDescribed root state history dagDisk taskDisk files) (clock : PanelClock) :
    ∃ menu, updateDagPanel clock (.storage (FsStorage.storage root blobDisk dagDisk taskDisk)
        files) = .ok menu ∧
      ((∃ name, name ∈ state.dags) → ShowsServer clock state history menu) ∧
      ((∀ name, name ∉ state.dags) →
        menu = { pages := [.text (ascii "No DAGs available")], names := [ascii "empty"] }) := by
  obtain ⟨entries, listed, once, members⟩ := lists.dags
  have listsDags : (FsStorage.storage root blobDisk dagDisk taskDisk).listDags files =
      .value entries := listed
  by_cases empty : entries.isEmpty = true
  · refine ⟨_, by simp only [updateDagPanel, listsDags, if_pos empty], ?_, fun _ => rfl⟩
    intro present
    obtain ⟨name, member⟩ := present
    have listedName := (members name).mpr member
    rw [List.isEmpty_iff.mp empty] at listedName
    cases listedName
  · have tabsListed : ∀ name ∈ entries.map fun entry => entry.value.name, ∃ tasks,
        (FsStorage.storage root blobDisk dagDisk taskDisk).listTasks files name = .value tasks ∧
        ∀ reading, ShowsDag clock state history reading name
          (buildDagTaskTable clock reading name tasks) := by
      intro name member
      obtain ⟨tasks, tasksListed, tasksOnce, tasksMembers, described⟩ :=
        lists.tasks name ((members name).mp member)
      refine ⟨tasks, tasksListed, fun reading => ⟨_, tasksOnce, tasksMembers, ?_⟩⟩
      exact buildDagTaskTable_described clock reading name described
    obtain ⟨tabs, made, shows⟩ :=
      dagTabs_shows (ShowsDag clock state history) clock _ files tabsListed 0
    refine ⟨⟨tabs, _⟩, ?_, fun _ => ⟨once, members, shows⟩, ?_⟩
    · simp only [updateDagPanel, listsDags, if_neg empty, made]
      rfl
    · intro none
      obtain ⟨entry, rest, rfl⟩ :=
        List.exists_cons_of_ne_nil fun nil => empty (List.isEmpty_iff.mpr nil)
      exact absurd ((members _).mp List.mem_cons_self) (none _)

/-- What the panel shows of the storage that any run of the server leaves is
what the server holds, and no run of a task ever shows. -/
theorem dag_panel_shows {disk dagDisk taskDisk : DiskBehavior} (reliable : disk.Reliable)
    {files : Files} (empty : EmptyRoot root files)
    (run : Run (some (FsStorage.construct root disk files)) (RemovesEmptied root) state history)
    (blobDisk : DiskBehavior) (dagReliable : dagDisk.Reliable) (taskReliable : taskDisk.Reliable)
    (clock : PanelClock) :
    ∃ held menu, state.storage = some held ∧
      updateDagPanel clock (.storage (FsStorage.storage root blobDisk dagDisk taskDisk) held) =
        .ok menu ∧
      ((∃ name, name ∈ state.dags) → ShowsServer clock state history menu) ∧
      ((∀ name, name ∉ state.dags) →
        menu = { pages := [.text (ascii "No DAGs available")], names := [ascii "empty"] }) := by
  obtain ⟨held, attached, lists⟩ := ConcurrentShyguy.listsDescribed (run.agrees reliable empty)
    (run.holdsSchedules reliable empty) dagReliable taskReliable
  obtain ⟨menu, updated, shows⟩ := updateDagPanel_shows lists clock
  exact ⟨held, menu, attached, updated, shows⟩

def epochClock : PanelClock where
  now _ := 0
  formatDate _ := ascii "01/01/1970"

open ConcurrentShyguy (dagRequest fileEnvironment plainRequest_extract servedBy_fileEnvironment
  taskRequest) in
/-- An hourly DAG with one task. -/
theorem dag_panel_shows_etl :
    ∃ state history menu,
      Run (some FsStorage.freshFiles) (RemovesEmptied FsStorage.dataRoot) state history ∧
      ShowsServer epochClock state history menu ∧ ascii "etl" ∈ menu.names ∧
      shownFrequency (state.schedules.lookup (ascii "etl")) = .hourly := by
  have plain : ConcurrentShyguy.PlainRequest
      (dagRequest .create (ascii "etl") (some (ascii "0 * * * *"))) := by
    constructor <;> decide
  have run : ∃ state history,
      Run (some FsStorage.freshFiles) (RemovesEmptied FsStorage.dataRoot) state history ∧
      ascii "etl" ∈ state.dags ∧
      shownFrequency (state.schedules.lookup (ascii "etl")) = .hourly := by
    refine ⟨_, _, .handle fileEnvironment (taskRequest .create (ascii "etl") (ascii "extract"))
      (.handle fileEnvironment (dagRequest .create (ascii "etl") (some (ascii "0 * * * *"))) .start
        ⟨servedBy_fileEnvironment, plain, ?_⟩ rfl)
      ⟨servedBy_fileEnvironment, plainRequest_extract _, ?_⟩ rfl, ?_, ?_⟩
    · intro dag asks
      obtain ⟨_, ⟨⟩⟩ := asks
    · intro dag asks
      obtain ⟨⟨⟩, _⟩ := asks
    · decide
    · decide
  obtain ⟨state, history, run, present, hourly⟩ := run
  obtain ⟨_, menu, _, _, shows, _⟩ := dag_panel_shows DiskBehavior.reliable_reliable
    (FsStorage.emptyRoot_empty _) run .reliable DiskBehavior.reliable_reliable
    DiskBehavior.reliable_reliable epochClock
  have showsServer := shows ⟨_, present⟩
  exact ⟨state, history, menu, run, showsServer, (showsServer.named _).mpr present, hourly⟩

end BabyLuigi.Tui
