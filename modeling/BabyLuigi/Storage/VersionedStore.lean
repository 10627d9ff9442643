import BabyLuigi.Storage.FsStorage

/-!
# Optimistic versioning

One store as its clients see it: any number of them read, write and erase keys
one call at a time, and may make a call conditional on a version they learned.
-/

set_option autoImplicit false

namespace BabyLuigi

/-- The calls of one store that deal with versions. -/
structure VersionedStore (Key Value : Type) where
  file : Key → FsPath
  keyOf : Value → Key
  version : DiskBehavior → Files → Key → Outcome UInt64
  upsert : DiskBehavior → Files → Value → Option UInt64 → Files × Outcome UInt64
  erase : DiskBehavior → Files → Key → Option UInt64 → Files × Outcome Unit

/-- What a task is stored with. -/
structure TaskUpsert where
  task : ShyguyTask
  blobId : Option Str
  metadata : Option TaskMetadata

namespace VersionedStore

def dags (root : StoreRoot) : VersionedStore Str ShyguyDag where
  file := FsStorage.dagFile root
  keyOf dag := dag.name
  version disk files name := (FsStorage.getDag root disk files name).map DagEntry.version
  upsert := FsStorage.upsertDag root
  erase := FsStorage.eraseDag root

def tasks (root : StoreRoot) : VersionedStore (Str × Str) TaskUpsert where
  file key := FsStorage.taskFile root key.1 key.2
  keyOf stored := (stored.task.associatedDag, stored.task.name)
  version disk files key := (FsStorage.getTask root disk files key.1 key.2).map TaskEntry.version
  upsert disk files stored ifVersion :=
    FsStorage.upsertTask root disk files stored.task stored.blobId ifVersion stored.metadata
  erase disk files key := FsStorage.eraseTask root disk files key.1 key.2

inductive Call (Key Value : Type) where
  | get (key : Key)
  | upsert (value : Value) (ifVersion : Option UInt64)
  | erase (key : Key) (ifVersion : Option UInt64)

variable {Key Value : Type} (store : VersionedStore Key Value)

def Call.key : Call Key Value → Key
  | .get key => key
  | .upsert value _ => store.keyOf value
  | .erase key _ => key

def Call.ifVersion : Call Key Value → Option UInt64
  | .get _ => none
  | .upsert _ ifVersion => ifVersion
  | .erase _ ifVersion => ifVersion

/-- The tree after a call, and the version the call tells its client. -/
def perform (disk : DiskBehavior) (files : Files) :
    Call Key Value → Files × Outcome (Option UInt64)
  | .get key => (files, (store.version disk files key).map some)
  | .upsert value ifVersion =>
    let (files, outcome) := store.upsert disk files value ifVersion
    (files, outcome.map some)
  | .erase key ifVersion =>
    let (files, outcome) := store.erase disk files key ifVersion
    (files, outcome.map fun _ => none)

/-- A call that was made, and its answer. -/
structure Record (Key Value : Type) where
  client : Nat
  call : Call Key Value
  answer : Outcome (Option UInt64)

/-- Whether the call wrote the file at the location. -/
def Record.upserts (record : Record Key Value) (location : Location) : Bool :=
  match record.call, record.answer with
  | .upsert value _, .value _ => (store.file (store.keyOf value)).resolve = location
  | _, _ => false

/-- Runs from any tree, the disk serving every call in its own way; records
newest first. -/
inductive Run : Files → List (Record Key Value) → Prop where
  | start (files : Files) : Run files []
  | call {disk : DiskBehavior} {files after : Files} {history : List (Record Key Value)}
      {client : Nat} {call : Call Key Value} {answer : Outcome (Option UInt64)} :
      Run files history → store.perform disk files call = (after, answer) →
      Run after (⟨client, call, answer⟩ :: history)

end VersionedStore

end BabyLuigi
