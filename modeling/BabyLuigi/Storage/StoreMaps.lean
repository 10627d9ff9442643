import BabyLuigi.Storage.JsonTextProperties
import BabyLuigi.Storage.KeyIsolationProperties
import BabyLuigi.Storage.VersionedStore
import BabyLuigi.Support.VersionedMap

/-!
# The stores as maps

The calls on the DAG store and the task store, and what they mean to a client
that knows nothing of files: two versioned maps.
-/

set_option autoImplicit false

namespace BabyLuigi

open FsStorage (StoreKey)
open Json (ValidDag ValidTask ValidText)

inductive StoreCall where
  | upsertDag (dag : ShyguyDag) (ifVersion : Option UInt64)
  | getDag (name : Str)
  | listDags
  | eraseDag (name : Str) (ifVersion : Option UInt64)
  | upsertTask (task : ShyguyTask) (blobId : Option Str) (ifVersion : Option UInt64)
    (metadata : Option TaskMetadata)
  | getTask (dag name : Str)
  | listTasks (dag : Str)
  | eraseTask (dag name : Str) (ifVersion : Option UInt64)
  deriving DecidableEq, Repr

inductive StoreAnswer where
  | version (outcome : Outcome UInt64)
  | dag (outcome : Outcome DagEntry)
  | dags (outcome : Outcome (List DagEntry))
  | task (outcome : Outcome TaskEntry)
  | tasks (outcome : Outcome (List TaskEntry))
  | erased (outcome : Outcome Unit)
  deriving DecidableEq, Repr

/-! ### The stores in files -/

def StoreCall.perform (root : StoreRoot) (disk : DiskBehavior) (files : Files) :
    StoreCall → Files × StoreAnswer
  | .upsertDag dag ifVersion =>
    let (files, outcome) := FsStorage.upsertDag root disk files dag ifVersion
    (files, .version outcome)
  | .getDag name => (files, .dag (FsStorage.getDag root disk files name))
  | .listDags => (files, .dags (FsStorage.listDags root disk files))
  | .eraseDag name ifVersion =>
    let (files, outcome) := FsStorage.eraseDag root disk files name ifVersion
    (files, .erased outcome)
  | .upsertTask task blobId ifVersion metadata =>
    let (files, outcome) := FsStorage.upsertTask root disk files task blobId ifVersion metadata
    (files, .version outcome)
  | .getTask dag name => (files, .task (FsStorage.getTask root disk files dag name))
  | .listTasks dag => (files, .tasks (FsStorage.listTasks root disk files dag))
  | .eraseTask dag name ifVersion =>
    let (files, outcome) := FsStorage.eraseTask root disk files dag name ifVersion
    (files, .erased outcome)

/-- The calls made and their answers, newest first. -/
abbrev StoreTrace := List (StoreCall × StoreAnswer)

/-- Runs on disks where every operation succeeds, whatever the order in which
they list a directory. -/
inductive StoreRun (root : StoreRoot) (start : Files) : Files → StoreTrace → Prop where
  | start : StoreRun root start start []
  | call {disk : DiskBehavior} {files after : Files} {trace : StoreTrace} {call : StoreCall}
      {answer : StoreAnswer} :
      StoreRun root start files trace → disk.Reliable →
      call.perform root disk files = (after, answer) →
      StoreRun root start after ((call, answer) :: trace)

/-- The frequencies that have a name of their own. -/
def ScheduleFrequency.Named (frequency : ScheduleFrequency) : Prop :=
  frequency ≠ .unset ∧ frequency ≠ .unknown

/-- Names that are single path components, and strings that can be printed. -/
def StoreCall.Admissible : StoreCall → Prop
  | .upsertDag dag _ => PlainName dag.name ∧ ValidDag dag
  | .getDag name => PlainName name
  | .listDags => True
  | .eraseDag name _ => PlainName name
  | .upsertTask task blobId _ metadata =>
    (PlainName task.associatedDag ∧ PlainName task.name) ∧ ValidTask task ∧ ValidText blobId ∧
      ∀ given, metadata = some given →
        Json.validUtf8 given.schedule.cronExpression = true ∧ given.schedule.frequency.Named
  | .getTask dag name => PlainName dag ∧ PlainName name
  | .listTasks dag => PlainName dag
  | .eraseTask dag name _ => PlainName dag ∧ PlainName name

/-- The key that a call updated. -/
def updatedKey : StoreCall × StoreAnswer → Option StoreKey
  | (.upsertDag dag _, .version (.value _)) => some (.dag dag.name)
  | (.upsertTask task _ _ _, .version (.value _)) => some (.task task.associatedDag task.name)
  | _ => none

/-- How often a key was updated. -/
def updates (key : StoreKey) (trace : StoreTrace) : Nat :=
  trace.countP fun record => updatedKey record = some key

/-! ### The stores as maps -/

structure StoreMaps where
  dags : VersionedMap Str ShyguyDag
  tasks : VersionedMap (Str × Str) TaskUpsert

namespace StoreMaps

def empty : StoreMaps where
  dags _ := none
  tasks _ := none

def dagEntry (held : Versioned ShyguyDag) : DagEntry where
  value := held.value
  version := .ofNat held.version

def taskEntry (held : Versioned TaskUpsert) : TaskEntry where
  value := held.value.task
  version := .ofNat held.version
  blobId := held.value.blobId
  metadata := held.value.metadata

def refusal : Refusal → StorageError
  | .conflict => .conflict
  | .notFound => .notFound

def updated : Except Refusal Nat → Outcome UInt64
  | .ok version => .value (.ofNat version)
  | .error reason => .error (refusal reason)

def erased : Except Refusal Unit → Outcome Unit
  | .ok () => .value ()
  | .error reason => .error (refusal reason)

def found {Entry : Type} : Option Entry → Outcome Entry
  | some entry => .value entry
  | none => .error .notFound

/-- New metadata wins over the metadata that is there. -/
def writeTask (task : ShyguyTask) (blobId : Option Str) (metadata : Option TaskMetadata)
    (existing : Option TaskUpsert) : TaskUpsert where
  task := task
  blobId := blobId
  metadata := metadata.or (existing.bind TaskUpsert.metadata)

/-- What a call answers, and the maps after it. Lists are in any order. -/
def Answers (maps : StoreMaps) (call : StoreCall) (answer : StoreAnswer) (after : StoreMaps) :
    Prop :=
  match call with
  | .upsertDag dag ifVersion =>
    let (dags, outcome) :=
      maps.dags.upsert dag.name (fun _ => dag) (ifVersion.map UInt64.toNat)
    answer = .version (updated outcome) ∧ after = { maps with dags := dags }
  | .getDag name =>
    answer = .dag (found ((maps.dags name).map dagEntry)) ∧ after = maps
  | .listDags =>
    (∃ entries, answer = .dags (.value entries) ∧
      Lists (fun name => (maps.dags name).map dagEntry) entries) ∧ after = maps
  | .eraseDag name ifVersion =>
    let (dags, outcome) := maps.dags.erase name (ifVersion.map UInt64.toNat)
    answer = .erased (erased outcome) ∧ after = { maps with dags := dags }
  | .upsertTask task blobId ifVersion metadata =>
    let (tasks, outcome) := maps.tasks.upsert (task.associatedDag, task.name)
      (writeTask task blobId metadata) (ifVersion.map UInt64.toNat)
    answer = .version (updated outcome) ∧ after = { maps with tasks := tasks }
  | .getTask dag name =>
    answer = .task (found ((maps.tasks (dag, name)).map taskEntry)) ∧ after = maps
  | .listTasks dag =>
    (∃ entries, answer = .tasks (.value entries) ∧
      Lists (fun name => (maps.tasks (dag, name)).map taskEntry) entries) ∧ after = maps
  | .eraseTask dag name ifVersion =>
    let (tasks, outcome) := maps.tasks.erase (dag, name) (ifVersion.map UInt64.toNat)
    answer = .erased (erased outcome) ∧ after = { maps with tasks := tasks }

/-- Runs of the maps from their empty state. -/
inductive Run : StoreMaps → StoreTrace → Prop where
  | start : Run empty []
  | call {maps after : StoreMaps} {trace : StoreTrace} {call : StoreCall}
      {answer : StoreAnswer} :
      Run maps trace → maps.Answers call answer after → Run after ((call, answer) :: trace)

end StoreMaps

end BabyLuigi
