import BabyLuigi.Storage.Schedule
import BabyLuigi.TaskRequest
import Mathlib.Algebra.Group.Nat.Defs

/-!
# The request handler

The state behind the server's mutex and every command on it. Handlers are
`noexcept`: a fault inside one of them terminates the process.
-/

set_option autoImplicit false

namespace BabyLuigi

structure ConcurrentShyguy (Store : Type) where
  taskMap : UnorderedMap Str ShyguyTask
  dags : UnorderedMap Str (DirectedAcyclicGraph Str)
  schedules : UnorderedMap Str Str
  requestQueue : List (TaskRequest Str)
  storage : Option Store
  taskRequestSequence : Nat

/-- What one call meets: how its storage behaves, the iteration order of task
graphs and the steady clock. -/
structure Environment (Store : Type) where
  storage : Storage Store
  traversal : DirectedAcyclicGraph.Traversal Str
  steadyNow : Int

namespace ConcurrentShyguy

variable {Store : Type}

def initial (storage : Option Store) : ConcurrentShyguy Store where
  taskMap := ∅
  dags := ∅
  schedules := ∅
  requestQueue := []
  storage := storage
  taskRequestSequence := 0

abbrev Handled (Store : Type) := Except Fault (ConcurrentShyguy Store × CommandResultType)

/-- A storage call whose returned value is dropped. -/
def persist {Value : Type} (state : ConcurrentShyguy Store) (call : Store → Store × Outcome Value) :
    Except Fault (ConcurrentShyguy Store) :=
  match state.storage with
  | none => .ok state
  | some store =>
    match call store with
    | (_, .exception fault) => .error fault
    | (store, _) => .ok { state with storage := some store }

def makeTaskMetadata (environment : Environment Store) (state : ConcurrentShyguy Store)
    (task : ShyguyTask) : Except Fault (Option TaskMetadata) :=
  let describe (cronExpression : Option Str) : Option TaskMetadata :=
    match cronExpression with
    | none => none
    | some cron =>
      if cron.isEmpty then none
      else
        some {
          schedule := { cronExpression := cron, frequency := classifySchedule cron }
          statuses := { previous := .none, current := .none } }
  match state.schedules.lookup task.associatedDag with
  | some cron => .ok (describe (some cron))
  | none =>
    match state.storage with
    | none => .ok (describe none)
    | some store =>
      match environment.storage.getDag store task.associatedDag with
      | .exception fault => .error fault
      | .error _ => .ok (describe none)
      | .value entry => .ok (describe entry.value.schedule)

def createDag (environment : Environment Store) (state : ConcurrentShyguy Store) (dag : ShyguyDag) :
    Handled Store :=
  if dag.name ∈ state.dags then .ok (state, .error .dagDuplicate)
  else
    match UnorderedMap.emplace dag.name (DirectedAcyclicGraph.ofName dag.name) state.dags with
    | (_, false) => .ok (state, .error .dagInsertionFailed)
    | (dags, true) =>
      let schedules :=
        match dag.schedule with
        | some schedule =>
          if hasSchedule dag then (UnorderedMap.emplace dag.name schedule state.schedules).1
          else state.schedules
        | none => state.schedules
      match { state with dags := dags, schedules := schedules }.persist fun store =>
          environment.storage.upsertDag store dag none with
      | .error fault => .error fault
      | .ok state => .ok (state, .ok (ascii "created dag " ++ dag.name))

def removeDag (environment : Environment Store) (state : ConcurrentShyguy Store) (dag : ShyguyDag) :
    Handled Store :=
  if dag.name ∈ state.dags then
    let schedules := if hasSchedule dag then state.schedules.erase dag.name else state.schedules
    match { state with dags := state.dags.erase dag.name, schedules := schedules }.persist
        fun store => environment.storage.eraseDag store dag.name none with
    | .error fault => .error fault
    | .ok state => .ok (state, .ok (ascii "removed dag " ++ dag.name))
  else .ok (state, .error .dagDeletionFailed)

def makeRunner (environment : Environment Store) (state : ConcurrentShyguy Store) (dagName : Str)
    (taskName : Str) : Except Fault (TaskRunner Str) :=
  match state.storage with
  | none => .ok { name := taskName, contents := [] }
  | some store =>
    match environment.storage.getTask store dagName taskName with
    | .exception fault => .error fault
    | .error _ => .ok { name := taskName, contents := [] }
    | .value entry => .ok { name := taskName, contents := entry.value.fileContent.getD [] }

def executeAt (environment : Environment Store) (state : ConcurrentShyguy Store) (dag : ShyguyDag)
    (scheduledTime : Int) : Handled Store :=
  match state.dags.lookup dag.name with
  | none => .ok (state, .error .dagNotFound)
  | some graph =>
    match graph.runOrder (environment.traversal.order graph.adjacencyList) with
    | .error fault => .error fault
    | .ok none => .ok (state, .error .taskCreatesCycle)
    | .ok (some order) =>
      match order.mapM (makeRunner environment state dag.name) with
      | .error fault => .error fault
      | .ok runners =>
        let request : TaskRequest Str := {
          scheduledTime := scheduledTime
          sequence := state.taskRequestSequence
          payload := { taskRunners := runners, dag := graph } }
        .ok ({ state with
                requestQueue := state.requestQueue ++ [request]
                taskRequestSequence := (state.taskRequestSequence + 1) % 2 ^ 64 },
              .error .notCurrentlySupported)

def executeDag (environment : Environment Store) (state : ConcurrentShyguy Store)
    (dag : ShyguyDag) : Handled Store :=
  executeAt environment state dag environment.steadyNow

def snapshotDag (state : ConcurrentShyguy Store) (_ : ShyguyDag) : Handled Store :=
  .ok (state, .error .notCurrentlySupported)

/-- The writes that follow a successful insertion into the graph. -/
def persistTask (environment : Environment Store) (state : ConcurrentShyguy Store)
    (task : ShyguyTask) (metadata : Option TaskMetadata) : Except Fault (ConcurrentShyguy Store) :=
  match state.storage, task.fileContent, task.filename with
  | some store, some content, some _ =>
    match environment.storage.putBlob store content with
    | (_, .exception fault) => .error fault
    | (store, .value id) =>
      { state with storage := some store }.persist fun store =>
        environment.storage.upsertTask store task (some id) none metadata
    | (store, .error _) =>
      { state with storage := some store }.persist fun store =>
        environment.storage.upsertTask store task none none metadata
  | _, _, _ =>
    state.persist fun store => environment.storage.upsertTask store task none none metadata

def createTask (environment : Environment Store) (state : ConcurrentShyguy Store)
    (task : ShyguyTask) : Handled Store :=
  let state := { state with taskMap := state.taskMap.insert task.name task }
  match state.dags.lookup task.associatedDag with
  | none => .error .outOfRange
  | some dag =>
    match dag.pushTask environment.traversal task.name task.dependencyNames with
    | .error fault => .error fault
    | .ok (dag, inserted) =>
      let state := { state with dags := state.dags.insert task.associatedDag dag }
      match inserted with
      | .error error => .ok (state, .error error.toCommandError)
      | .ok () =>
        match if state.storage.isSome then makeTaskMetadata environment state task else .ok none with
        | .error fault => .error fault
        | .ok metadata =>
          match persistTask environment state task metadata with
          | .error fault => .error fault
          | .ok state => .ok (state, .ok (ascii "Created New Task " ++ task.name))

def eraseStoredTask (environment : Environment Store) (state : ConcurrentShyguy Store)
    (task : ShyguyTask) : Handled Store :=
  match state.persist fun store =>
      environment.storage.eraseTask store task.associatedDag task.name none with
  | .error fault => .error fault
  | .ok state => .ok (state, .ok (ascii "Removed Task " ++ task.name))

def removeTask (environment : Environment Store) (state : ConcurrentShyguy Store)
    (task : ShyguyTask) : Handled Store :=
  match state.dags.lookup task.associatedDag with
  | none => eraseStoredTask environment state task
  | some dag =>
    match dag.removeTask task.name with
    | (_, .error error) => .ok (state, .error error.toCommandError)
    | (dag, .ok ()) =>
      eraseStoredTask environment
        { state with dags := state.dags.insert task.associatedDag dag } task

def executeTask (environment : Environment Store) (state : ConcurrentShyguy Store)
    (task : ShyguyTask) : Handled Store :=
  match state.dags.lookup task.associatedDag with
  | none => .ok (state, .error .dagNotFound)
  | some graph =>
    match graph.runOrder (environment.traversal.order graph.adjacencyList) with
    | .error fault => .error fault
    | .ok none => .ok (state, .error .taskCreatesCycle)
    | .ok (some _) => .ok (state, .error .notCurrentlySupported)

def snapshotTask (state : ConcurrentShyguy Store) (_ : ShyguyTask) : Handled Store :=
  .ok (state, .error .notCurrentlySupported)

def process (environment : Environment Store) (state : ConcurrentShyguy Store)
    (request : ShyguyRequest) : Handled Store :=
  match request.data with
  | .monostate => .ok (state, .error .monostateReached)
  | .dag dag =>
    match request.command with
    | .create => createDag environment state dag
    | .remove => removeDag environment state dag
    | .execute => executeDag environment state dag
    | .snapshot => snapshotDag state dag
    | .notSet | .error => .ok (state, .error .unknownCommand)
  | .task task =>
    match request.command with
    | .create => createTask environment state task
    | .remove => removeTask environment state task
    | .execute => executeTask environment state task
    | .snapshot => snapshotTask state task
    | .notSet | .error => .ok (state, .error .unknownCommand)

/-- `calc_next` of the expression made from a schedule: `none` when either
throws, which the caller ignores; a fault when it never returns. -/
abbrev CalcNext := Str → Int → Except Fault (Option Int)

/-- The loop over the schedules; a later entry wins only if it is strictly
earlier in time. -/
def selectNext (calcNext : CalcNext) (nowSystem : Int) :
    List (Str × Str) → Option (Str × Int) → Except Fault (Option (Str × Int))
  | [], next => .ok next
  | (dagName, cronExpr) :: rest, next =>
    match calcNext cronExpr nowSystem with
    | .error fault => .error fault
    | .ok none => selectNext calcNext nowSystem rest next
    | .ok (some tp) =>
      match next with
      | none => selectNext calcNext nowSystem rest (some (dagName, tp))
      | some (name, best) =>
        selectNext calcNext nowSystem rest
          (if tp < best then some (dagName, tp) else some (name, best))

/-- The two clock readings of one call. -/
structure ClockReadings where
  nowSystem : Int
  nowSteady : Int

def nextScheduledDag (calcNext : CalcNext) (traversal : UnorderedMap.Traversal Str Str)
    (clocks : ClockReadings) (state : ConcurrentShyguy Store) :
    Except Fault (Option NotificationType) :=
  if state.schedules.keys.isEmpty then .ok none
  else
    match selectNext calcNext clocks.nowSystem (traversal.entries state.schedules) none with
    | .error fault => .error fault
    | .ok none => .ok none
    | .ok (some (name, tp)) =>
      match state.schedules.lookup name with
      | none => .error .outOfRange
      | some schedule =>
        .ok (some {
          time := clocks.nowSteady + (tp - clocks.nowSystem)
          associatedRequest := {
            data := .dag { name := name, schedule := some schedule }
            command := .execute }
          commandType := .execute })

end ConcurrentShyguy

end BabyLuigi
