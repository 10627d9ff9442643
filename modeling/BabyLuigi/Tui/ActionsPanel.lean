import BabyLuigi.ConcurrentShyguy
import BabyLuigi.Tui.ScheduleForm

/-!
# The actions panel

The form that turns selections and text fields into requests. The panel looks
at every event before the components under it, which edit what it leaves.
-/

set_option autoImplicit false

namespace BabyLuigi.Tui

def commandForAction (action : Str) : Option CommandEnum :=
  if action = ascii "create" then some .create
  else if action = ascii "delete" then some .remove
  else if action = ascii "update" then some .create
  else if action = ascii "execute" then some .execute
  else if action = ascii "restart" then some .execute
  else if action = ascii "snapshot" then some .snapshot
  else none

def clampIndex (value : Int) (size : Nat) : Int :=
  if size = 0 then 0 else max 0 (min value (size - 1))

/-- `std::vector::at` with an index cast to its size type. -/
def vectorAt {Element : Type} (elements : List Element) (index : Int) : Except Fault Element :=
  match elements[index.toNat]? with
  | some element => if index < 0 then .error .outOfRange else .ok element
  | none => .error .outOfRange

/-- The token that ends here, unless it is blank. -/
def pushToken (current : Str) (out : List Str) : List Str :=
  let token := trim current
  if token.isEmpty then out else out ++ [token]

/-- The loop of `split_csv` over the rest of the input. -/
def splitCsvFrom : Str → Str → List Str → List Str
  | [], current, out => pushToken current out
  | ch :: rest, current, out =>
    if ch = 44 then splitCsvFrom rest [] (pushToken current out)
    else splitCsvFrom rest (current ++ [ch]) out

def splitCsv (input : Str) : List Str := splitCsvFrom input [] []

/-- The text fields of the form. -/
inductive PanelField where
  | dagNameInput
  | cronCustomInput
  | cronMinuteInput
  | cronHourInput
  | cronDayOfMonthInput
  | cronMonthInput
  | cronDayOfWeekInput
  | taskNameInput
  | taskDagInput
  | taskFilePathInput
  | taskDependenciesInput
  deriving DecidableEq, Repr

structure ActionsPanel where
  hasIoQueue : Bool
  selectedTarget : Int
  selectedAction : Int
  selectedDag : Int
  selectedTask : Int
  dagNames : List Str
  taskRefs : List (Str × Str)
  taskLabels : List Str
  statusLine : Str
  dagScheduleKind : Int
  taskTypeIndex : Int
  inputs : PanelField → Str

def targetNames : List Str := [ascii "dag", ascii "task"]

def actionNames : List Str := [
  ascii "create", ascii "delete", ascii "update", ascii "execute", ascii "restart",
  ascii "snapshot"]

def taskTypeNames : List Str := [ascii "python", ascii "shell"]

/-- What the panel finds behind the server's handle. -/
inductive PanelBackend (Store : Type) where
  | noShyguy
  | noStorage
  | storage (interface : Storage Store) (store : Store)

namespace ActionsPanel

variable {Store : Type}

/-- The members before the constructor runs. -/
def initial (hasIoQueue : Bool) : ActionsPanel where
  hasIoQueue := hasIoQueue
  selectedTarget := 0
  selectedAction := 0
  selectedDag := 0
  selectedTask := 0
  dagNames := []
  taskRefs := []
  taskLabels := []
  statusLine := ascii "Enter: send action | r: refresh | u: use selected"
  dagScheduleKind := 0
  taskTypeIndex := 0
  inputs
    | .cronMinuteInput | .cronHourInput | .cronDayOfWeekInput => ascii "0"
    | .cronDayOfMonthInput | .cronMonthInput => ascii "1"
    | _ => []

/-- The loop over the listed DAGs; one whose tasks cannot be listed has none. -/
def listTaskRefs (interface : Storage Store) (store : Store) :
    List DagEntry → Except Fault (List (Str × Str))
  | [] => .ok []
  | dag :: rest =>
    match interface.listTasks store dag.value.name with
    | .exception fault => .error fault
    | .error _ => listTaskRefs interface store rest
    | .value tasks => do
      let refs ← listTaskRefs interface store rest
      return tasks.map (fun task => (dag.value.name, task.value.name)) ++ refs

def refreshLists (backend : PanelBackend Store) (panel : ActionsPanel) :
    Except Fault ActionsPanel :=
  let cleared := { panel with dagNames := [], taskRefs := [], taskLabels := [] }
  match backend with
  | .noShyguy => .ok { cleared with statusLine := ascii "Shyguy unavailable" }
  | .noStorage => .ok { cleared with statusLine := ascii "Storage unavailable" }
  | .storage interface store =>
    match interface.listDags store with
    | .exception fault => .error fault
    | .error _ => .ok { cleared with statusLine := ascii "Unable to list DAGs" }
    | .value dags => do
      let refs ← listTaskRefs interface store dags
      let names := dags.map fun dag => dag.value.name
      let labels := refs.map fun pair => pair.1 ++ ascii " :: " ++ pair.2
      return { cleared with
        dagNames := names
        taskRefs := refs
        taskLabels := labels
        statusLine :=
          if names.isEmpty then ascii "No DAGs available."
          else if labels.isEmpty then ascii "No tasks available (create tasks first)."
          else panel.statusLine
        selectedTarget := clampIndex panel.selectedTarget targetNames.length
        selectedAction := clampIndex panel.selectedAction actionNames.length
        selectedDag := clampIndex panel.selectedDag names.length
        selectedTask := clampIndex panel.selectedTask labels.length }

/-- The panel after an event, and the request it has put into the queue. -/
abbrev Submission := ActionsPanel × Option ShyguyRequest

def refuse (panel : ActionsPanel) (statusLine : Str) : Submission :=
  ({ panel with statusLine := statusLine }, none)

def queued (panel : ActionsPanel) (request : ShyguyRequest) (action target : Str) : Submission :=
  ({ panel with statusLine := ascii "Queued '" ++ action ++ ascii "' for " ++ target },
    some request)

def cronFromForm (panel : ActionsPanel) : Option Str :=
  buildCronFromForm panel.dagScheduleKind (panel.inputs .cronCustomInput)
    (panel.inputs .cronMinuteInput) (panel.inputs .cronHourInput)
    (panel.inputs .cronDayOfMonthInput) (panel.inputs .cronMonthInput)
    (panel.inputs .cronDayOfWeekInput)

/-- The end of the DAG branch. -/
def submitDag (panel : ActionsPanel) (command : CommandEnum) (action dagName : Str)
    (schedule : Option Str) : Submission :=
  if dagName.isEmpty then panel.refuse (ascii "DAG name is required")
  else
    panel.queued { data := .dag { name := dagName, schedule := schedule }, command := command }
      action (ascii "dag '" ++ dagName ++ ascii "'")

def submitCreatedDag (panel : ActionsPanel) (command : CommandEnum) (action : Str) : Submission :=
  let cron := panel.cronFromForm
  if panel.dagScheduleKind ≠ 0 ∧ cron = none then panel.refuse (ascii "Invalid schedule input")
  else panel.submitDag command action (trim (panel.inputs .dagNameInput)) cron

def submitSelectedDag (panel : ActionsPanel) (command : CommandEnum) (action : Str) :
    Except Fault Submission :=
  if panel.dagNames.isEmpty then .ok (panel.refuse (ascii "No DAG selected"))
  else do
    let dagName ← vectorAt panel.dagNames (clampIndex panel.selectedDag panel.dagNames.length)
    return panel.submitDag command action dagName none

def submitCreatedTask (readFile : Str → Option Str) (panel : ActionsPanel)
    (command : CommandEnum) (action : Str) : Except Fault Submission :=
  let taskName := trim (panel.inputs .taskNameInput)
  let dagName := trim (panel.inputs .taskDagInput)
  let filePath := trim (panel.inputs .taskFilePathInput)
  if taskName.isEmpty then .ok (panel.refuse (ascii "Task name is required"))
  else if dagName.isEmpty then .ok (panel.refuse (ascii "Associated DAG is required"))
  else if filePath.isEmpty then .ok (panel.refuse (ascii "Task file path is required"))
  else
    match readFile filePath with
    | none => .ok (panel.refuse (ascii "Unable to read task file: " ++ filePath))
    | some contents => do
      let deps := splitCsv (panel.inputs .taskDependenciesInput)
      let type ← vectorAt taskTypeNames (clampIndex panel.taskTypeIndex taskTypeNames.length)
      return panel.queued {
          data := .task {
            name := taskName
            associatedDag := dagName
            type := some type
            filename := some filePath
            fileContent := some contents
            dependencyNames := if deps.isEmpty then none else some deps }
          command := command }
        action (ascii "task '" ++ dagName ++ ascii " :: " ++ taskName ++ ascii "'")

def submitSelectedTask (panel : ActionsPanel) (command : CommandEnum) (action : Str) :
    Except Fault Submission :=
  if panel.taskRefs.isEmpty then .ok (panel.refuse (ascii "No task selected"))
  else do
    let (dagName, taskName) ←
      vectorAt panel.taskRefs (clampIndex panel.selectedTask panel.taskRefs.length)
    return panel.queued {
        data := .task {
          name := taskName
          associatedDag := dagName
          type := none
          filename := none
          fileContent := none
          dependencyNames := none }
        command := command }
      action (dagName ++ ascii " :: " ++ taskName)

def submitRequest (readFile : Str → Option Str) (panel : ActionsPanel) :
    Except Fault Submission :=
  if !panel.hasIoQueue then .ok (panel.refuse (ascii "No IO queue available"))
  else do
    let action ← vectorAt actionNames (clampIndex panel.selectedAction actionNames.length)
    match commandForAction action with
    | none => return panel.refuse (ascii "Action '" ++ action ++ ascii "' is not supported yet.")
    | some command =>
      let isCreateOrUpdate := action = ascii "create" ∨ action = ascii "update"
      if panel.selectedTarget = 0 then
        if isCreateOrUpdate then return panel.submitCreatedDag command action
        else panel.submitSelectedDag command action
      else if isCreateOrUpdate then panel.submitCreatedTask readFile command action
      else panel.submitSelectedTask command action

def setInput (panel : ActionsPanel) (field : PanelField) (text : Str) : ActionsPanel :=
  { panel with inputs := fun other => if other = field then text else panel.inputs other }

/-- What the key for the selected item does. -/
def useSelected (panel : ActionsPanel) : Except Fault ActionsPanel :=
  if panel.selectedTarget = 0 ∧ panel.dagNames.isEmpty = false then do
    let name ← vectorAt panel.dagNames (clampIndex panel.selectedDag panel.dagNames.length)
    return panel.setInput .dagNameInput name
  else if panel.selectedTarget = 1 ∧ panel.taskRefs.isEmpty = false then do
    let (dag, task) ←
      vectorAt panel.taskRefs (clampIndex panel.selectedTask panel.taskRefs.length)
    return (panel.setInput .taskDagInput dag).setInput .taskNameInput task
  else return panel

end ActionsPanel

inductive PanelEvent where
  | character (text : Str)
  | enter
  | other
  deriving DecidableEq, Repr

def isRefreshKey (event : PanelEvent) : Bool :=
  event == .character (ascii "r") || event == .character (ascii "R")

def isUseKey (event : PanelEvent) : Bool :=
  event == .character (ascii "u") || event == .character (ascii "U")

/-- The event handler of the panel; `none` leaves the event to the components. -/
def ActionsPanel.handleEvent {Store : Type} (backend : PanelBackend Store)
    (readFile : Str → Option Str) (panel : ActionsPanel) (event : PanelEvent) :
    Except Fault (Option ActionsPanel.Submission) :=
  if isRefreshKey event then do
    let refreshed ← panel.refreshLists backend
    return some (refreshed, none)
  else if isUseKey event then do
    let used ← panel.useSelected
    return some (used, none)
  else if event ≠ .enter then return none
  else do
    let submission ← panel.submitRequest readFile
    return some submission

/-- What a text component can do to its field: it inserts the text of a
character event, or deletes. -/
inductive Edited (event : PanelEvent) : Str → Str → Prop where
  | kept (field : Str) : Edited event field field
  | inserted {text : Str} (before after : Str) :
      event = .character text → Edited event (before ++ after) (before ++ text ++ after)
  | deleted (before removed after : Str) : Edited event (before ++ removed ++ after) (before ++ after)

/-- What the components can do with an event: they edit the text fields and set
the selections. -/
structure EditedPanel (event : PanelEvent) (panel after : ActionsPanel) : Prop where
  inputs : ∀ field, Edited event (panel.inputs field) (after.inputs field)
  hasIoQueue : after.hasIoQueue = panel.hasIoQueue
  dagNames : after.dagNames = panel.dagNames
  taskRefs : after.taskRefs = panel.taskRefs
  taskLabels : after.taskLabels = panel.taskLabels

/-- Runs of the panel over events that the condition admits, with the requests
it has put into the queue, newest first. The button submits as the enter key
does. -/
inductive PanelRun (Store : Type) (admits : PanelEvent → Prop) :
    ActionsPanel → List ShyguyRequest → Prop where
  | construct (backend : PanelBackend Store) (hasIoQueue : Bool) {panel : ActionsPanel} :
      (ActionsPanel.initial hasIoQueue).refreshLists backend = .ok panel →
      PanelRun Store admits panel []
  | handle (backend : PanelBackend Store) (readFile : Str → Option Str) (event : PanelEvent)
      {panel after : ActionsPanel} {requests : List ShyguyRequest}
      {request : Option ShyguyRequest} :
      PanelRun Store admits panel requests → admits event →
      panel.handleEvent backend readFile event = .ok (some (after, request)) →
      PanelRun Store admits after (request.toList ++ requests)
  | edit (backend : PanelBackend Store) (readFile : Str → Option Str) (event : PanelEvent)
      {panel after : ActionsPanel} {requests : List ShyguyRequest} :
      PanelRun Store admits panel requests → admits event →
      panel.handleEvent backend readFile event = .ok none →
      EditedPanel event panel after → PanelRun Store admits after requests
  | press (readFile : Str → Option Str) {panel after : ActionsPanel}
      {requests : List ShyguyRequest} {request : Option ShyguyRequest} :
      PanelRun Store admits panel requests →
      panel.submitRequest readFile = .ok (after, request) →
      PanelRun Store admits after (request.toList ++ requests)

end BabyLuigi.Tui
