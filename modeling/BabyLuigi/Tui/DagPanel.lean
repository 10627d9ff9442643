import BabyLuigi.Cron.DateTime
import BabyLuigi.Tui.ActionsPanel

/-!
# The DAG panel

One tab for each stored DAG, with a table of its tasks and of what is stored
about their runs. Colors and borders are left out.
-/

set_option autoImplicit false

namespace BabyLuigi.Tui

def runHistoryColumns : Nat := 15

def statusGlyph : DagRunStatus → Str
  | .success => ascii "+"
  | .failed => ascii "-"
  | .skipped => ascii "*"
  | .running => ascii ">"
  | .queued => ascii "S"
  | .none => ascii " "

def frequencyInterval : ScheduleFrequency → Int
  | .hourly => Cron.hourTicks
  | .daily => 24 * Cron.hourTicks
  | .weekly => 24 * 7 * Cron.hourTicks
  | .monthly => 24 * 30 * Cron.hourTicks
  | .yearly => 24 * 365 * Cron.hourTicks
  | .custom | .unset | .unknown => 24 * Cron.hourTicks

/-- The loop of `infer_frequency` over the rest of the tasks. -/
def inferFrequencyFrom : List TaskEntry → ScheduleFrequency → ScheduleFrequency
  | [], inferred => if inferred = .unset then .daily else inferred
  | entry :: rest, inferred =>
    match entry.metadata with
    | none => inferFrequencyFrom rest inferred
    | some metadata =>
      let freq := metadata.schedule.frequency
      if freq = .unset ∨ freq = .unknown then inferFrequencyFrom rest inferred
      else if inferred = .unset then inferFrequencyFrom rest freq
      else if inferred ≠ freq then .daily
      else inferFrequencyFrom rest inferred

def inferFrequency (tasks : List TaskEntry) : ScheduleFrequency := inferFrequencyFrom tasks .unset

/-- How a panel reads the time: one reading for each table, and how a time is
printed. -/
structure PanelClock where
  now : Nat → Int
  formatDate : Int → Str

def makeRunLabels (clock : PanelClock) (reading : Nat) (frequency : ScheduleFrequency)
    (count : Nat) : List Str :=
  let interval :=
    if frequencyInterval frequency ≤ 0 then 24 * Cron.hourTicks else frequencyInterval frequency
  (List.range count).reverse.map fun offset =>
    clock.formatDate (clock.now reading - interval * offset)

/-- What one tab shows. -/
inductive DagTab where
  | text (message : Str)
  | table (title : Str) (rows : List (List Str)) (statuses : List (List DagRunStatus))
  deriving DecidableEq, Repr

/-- The columns of one task: only the last two have something stored. -/
def runStatuses (entry : TaskEntry) : List DagRunStatus :=
  let statuses := List.replicate runHistoryColumns DagRunStatus.none
  match entry.metadata with
  | none => statuses
  | some metadata =>
    let statuses := statuses.set (runHistoryColumns - 1) metadata.statuses.current
    if 1 < runHistoryColumns then statuses.set (runHistoryColumns - 2) metadata.statuses.previous
    else statuses

def buildDagTaskTable (clock : PanelClock) (reading : Nat) (dagName : Str)
    (tasks : List TaskEntry) : DagTab :=
  if tasks.isEmpty then .text (ascii "No tasks registered for " ++ dagName)
  else
    let headerRow :=
      ascii "task" :: makeRunLabels clock reading (inferFrequency tasks) runHistoryColumns
    .table dagName
      (headerRow :: tasks.map fun entry =>
        entry.value.name :: (runStatuses entry).map statusGlyph)
      (tasks.map runStatuses)

/-- The tabs of a `horizontal_tab_panel` and their names. -/
structure DagMenu where
  pages : List DagTab
  names : List Str
  deriving DecidableEq, Repr

variable {Store : Type}

/-- The loop over the names of the DAGs, from the table with this number on. -/
def dagTabs (clock : PanelClock) (interface : Storage Store) (store : Store) :
    Nat → List Str → Except Fault (List DagTab)
  | _, [] => .ok []
  | reading, dagName :: rest =>
    match interface.listTasks store dagName with
    | .exception fault => .error fault
    | .error _ => do
      let tabs ← dagTabs clock interface store (reading + 1) rest
      return .text (ascii "Unable to load tasks for " ++ dagName) :: tabs
    | .value tasks => do
      let tabs ← dagTabs clock interface store (reading + 1) rest
      return buildDagTaskTable clock reading dagName tasks :: tabs

/-- `dag_panel::update`: the menu that the panel shows from then on. -/
def updateDagPanel (clock : PanelClock) : PanelBackend Store → Except Fault DagMenu
  | .noShyguy => .ok { pages := [.text (ascii "Shyguy unavailable")], names := [ascii "error"] }
  | .noStorage => .ok { pages := [.text (ascii "Storage unavailable")], names := [ascii "error"] }
  | .storage interface store =>
    match interface.listDags store with
    | .exception fault => .error fault
    | .error _ =>
      .ok { pages := [.text (ascii "Unable to load DAG metadata")], names := [ascii "error"] }
    | .value entries =>
      if entries.isEmpty then
        .ok { pages := [.text (ascii "No DAGs available")], names := [ascii "empty"] }
      else do
        let dagNames := entries.map fun entry => entry.value.name
        let pages ← dagTabs clock interface store 0 dagNames
        return { pages := pages, names := dagNames }

end BabyLuigi.Tui
