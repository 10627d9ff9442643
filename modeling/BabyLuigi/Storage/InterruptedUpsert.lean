import BabyLuigi.Storage.FsStorage

/-!
# Interrupted updates

An update of a task that the process may not live to finish, and what a reader
of the store has a right to find afterwards.
-/

set_option autoImplicit false

namespace BabyLuigi

/-- The last step that `write_json_atomic` gets to. A stream may have handed on
only a part of its text when the process stops after the write. -/
inductive Stop where
  | directoriesCreated
  | opened
  | written (flushed : Option Str)
  | closed
  | renamed
  deriving DecidableEq, Repr

namespace FsStorage

variable (root : StoreRoot) (disk : DiskBehavior)

/-- The whole text of a document, or only the part that is given. -/
def partOf (document : Json) : Option Str → FileContent
  | none => .json document
  | some text => .truncated text

/-- `write_json_atomic` up to a step; no outcome if the process stops there. -/
def interruptedWrite (stop : Option Stop) (files : Files) (path : FsPath) (document : Json) :
    Files × Option (Outcome Unit) :=
  let files := makeParents disk files path
  if stop = some .directoriesCreated then (files, none)
  else if !disk.opens then (files, some (.error .io))
  else
    match files.write path.temporary (.bytes []) with
    | none => (files, some (.error .io))
    | some opened =>
      if stop = some .opened then (opened, none)
      else if !document.dumpable then (opened, some (.exception .jsonException))
      else
        match stop with
        | some (.written flushed) =>
          ((opened.write path.temporary (partOf document flushed)).getD opened, none)
        | _ =>
          match opened.write path.temporary (disk.stored document) with
          | none => (opened, some (.error .io))
          | some closed =>
            if stop = some .closed then (closed, none)
            else if !disk.accepts || !disk.renames then (closed, some (.error .io))
            else
              match closed.rename path.temporary path.resolve with
              | none => (closed, some (.error .io))
              | some renamed =>
                (renamed, if stop = some .renamed then none else some (.value ()))

def interruptedUpsertTask (stop : Option Stop) (files : Files) (task : ShyguyTask)
    (blobId : Option Str) (ifVersion : Option UInt64) (metadata : Option TaskMetadata) :
    Files × Option (Outcome UInt64) :=
  let path := taskFile root task.associatedDag task.name
  match nextVersion root disk files path.resolve ifVersion with
  | .exception fault => (files, some (.exception fault))
  | .error error => (files, some (.error error))
  | .value (newVersion, existing) =>
    let (files, outcome) := interruptedWrite disk stop files path
      (taskDocument newVersion task blobId (chosenMetadata metadata existing))
    (files, outcome.map fun ending => ending.map fun _ => newVersion)

/-- The entries that a client can get. -/
def visible : Outcome TaskEntry → List TaskEntry
  | .value entry => [entry]
  | _ => []

/-- A reader finds the old entry or the one that an undisturbed update leaves,
lists find the same, and whatever is not a success keeps the old entry. -/
structure Atomic (files after : Files) (task : ShyguyTask) (blobId : Option Str)
    (ifVersion : Option UInt64) (metadata : Option TaskMetadata)
    (answer : Option (Outcome UInt64)) : Prop where
  oldOrNew :
    getTask root .reliable after task.associatedDag task.name =
      getTask root .reliable files task.associatedDag task.name ∨
    getTask root .reliable after task.associatedDag task.name =
      getTask root .reliable (upsertTask root .reliable files task blobId ifVersion metadata).1
        task.associatedDag task.name
  listed : ∀ listDisk : DiskBehavior, listDisk.Reliable → ∃ entries,
    listTasks root listDisk after task.associatedDag = .value entries ∧
    (entries.filter fun entry => entry.value.name = task.name) =
      visible (getTask root .reliable after task.associatedDag task.name)
  errorKeepsOld : ∀ outcome, answer = some outcome → outcome.isValue = false →
    getTask root .reliable after task.associatedDag task.name =
      getTask root .reliable files task.associatedDag task.name

/-! ### What must not happen -/

/-- The directory that the file of a task is to lie in. -/
def taskParent (dag name : Str) : Location := (taskFile root dag name).parentPath.resolve

/-- The directory exists, or nothing is in the way of creating it. -/
def DirectoryThere (files : Files) (directory : Location) : Prop :=
  files.isDirectory directory = true ∨
    disk.createsDirectories = true ∧ files.isDirectory [] = true ∧
      ∀ above, above <:+ directory → files.fileAt above = none

/-- The version check passes and the temporary file is opened. -/
def Opens (stop : Option Stop) (files : Files) (task : ShyguyTask) (ifVersion : Option UInt64) :
    Prop :=
  (∃ next, nextVersion root disk files (taskFile root task.associatedDag task.name).resolve
    ifVersion = .value next) ∧
  stop ≠ some .directoriesCreated ∧ disk.opens = true ∧
  DirectoryThere disk files (taskParent root task.associatedDag task.name) ∧
  files.isDirectory (taskFile root task.associatedDag task.name).temporary = false

/-- The text of the document goes to the temporary file. -/
def Prints (stop : Option Stop) (files : Files) (task : ShyguyTask) (blobId : Option Str)
    (ifVersion : Option UInt64) (metadata : Option TaskMetadata) : Prop :=
  Opens root disk stop files task ifVersion ∧ stop ≠ some .opened ∧
  ∀ version existing, nextVersion root disk files
      (taskFile root task.associatedDag task.name).resolve ifVersion =
        .value (version, existing) →
    (taskDocument version task blobId (chosenMetadata metadata existing)).dumpable = true

/-- A closed temporary file takes the place of the document. -/
def Moves (stop : Option Stop) : Prop :=
  stop ≠ some .closed ∧ disk.accepts = true ∧ disk.renames = true

/-- The update gets to the end of its write and replaces the document. -/
def Replaces (stop : Option Stop) (files : Files) (task : ShyguyTask) (blobId : Option Str)
    (ifVersion : Option UInt64) (metadata : Option TaskMetadata) : Prop :=
  Prints root disk stop files task blobId ifVersion metadata ∧
  (∀ flushed, stop ≠ some (.written flushed)) ∧ Moves disk stop

/-- A reader finds the entry in the file at the location. -/
def HoldsEntry (files : Files) (location : Location) (entry : TaskEntry) : Prop :=
  ∃ document, readJson root .reliable files location = .ok document ∧
    decodeTask document = .ok entry

/-- The task's file lies in its DAG's directory. -/
def Inside (dag name : Str) : Prop := taskParent root dag name = (taskDirectory root dag).resolve

/-- The task's file holds the task, if any, and lies in its DAG's directory then. -/
def OwnFile (files : Files) (dag name : Str) : Prop :=
  ∀ entry, HoldsEntry root files (taskFile root dag name).resolve entry →
    entry.value.name = name ∧ Inside root dag name

/-- No other file of its DAG's directory holds a task of that name. -/
def OnlyFile (files : Files) (dag name : Str) : Prop :=
  ∀ child entry, HoldsEntry root files (child :: (taskDirectory root dag).resolve) entry →
    entry.value.name = name →
    child :: (taskDirectory root dag).resolve = (taskFile root dag name).resolve

/-- The list of the DAG finds a directory or nothing; a document is replaced by
a whole one in that directory; and where none is replaced, the task has its file
to itself and leaves no complete document in the temporary file. -/
structure LeavesNothing (stop : Option Stop) (files : Files) (task : ShyguyTask)
    (blobId : Option Str) (ifVersion : Option UInt64) (metadata : Option TaskMetadata) : Prop where
  directory : files.fileAt (taskDirectory root task.associatedDag).resolve = none
  apart : Opens root disk stop files task ifVersion →
    (taskFile root task.associatedDag task.name).temporary ≠
      (taskDirectory root task.associatedDag).resolve
  own : ¬ Replaces root disk stop files task blobId ifVersion metadata →
    OwnFile root files task.associatedDag task.name
  only : (Inside root task.associatedDag task.name →
      ¬ Opens root disk stop files task ifVersion) →
    OnlyFile root files task.associatedDag task.name
  whole : Replaces root disk stop files task blobId ifVersion metadata →
    Inside root task.associatedDag task.name ∧ disk.keeps = none
  written : Inside root task.associatedDag task.name →
    Prints root disk stop files task blobId ifVersion metadata → stop ≠ some (.written none)
  closed : Inside root task.associatedDag task.name →
    Prints root disk stop files task blobId ifVersion metadata →
    (∀ flushed, stop ≠ some (.written flushed)) → ¬ Moves disk stop → disk.keeps ≠ none

/-- A task whose files lie in directories of the store. -/
structure InStore (inStore : Location → Prop) (dag name : Str) : Prop where
  dagDescends : DescendingName dag
  nameDescends : DescendingName name
  directory : inStore (taskDirectory root dag).resolve
  parent : inStore (taskParent root dag name)

/-- Stores that any history of updates, finished or not, and erasures leads to;
all else may do what it likes outside of the directories that hold the tasks. -/
inductive TaskHistory (inStore : Location → Prop) : Files → Prop where
  | start {files : Files} :
      (∀ directory child, inStore directory → files.fileAt (child :: directory) = none) →
      TaskHistory inStore files
  | upsert {stop : Option Stop} {callDisk : DiskBehavior} {files after : Files} {task : ShyguyTask}
      {blobId : Option Str} {ifVersion : Option UInt64} {metadata : Option TaskMetadata}
      {answer : Option (Outcome UInt64)} :
      TaskHistory inStore files → DescendingName task.associatedDag → DescendingName task.name →
      interruptedUpsertTask root callDisk stop files task blobId ifVersion metadata =
        (after, answer) → TaskHistory inStore after
  | erase {callDisk : DiskBehavior} {files after : Files} {dag name : Str}
      {ifVersion : Option UInt64} {outcome : Outcome Unit} :
      TaskHistory inStore files → DescendingName dag → DescendingName name →
      eraseTask root callDisk files dag name ifVersion = (after, outcome) →
      TaskHistory inStore after
  | aside {files after : Files} :
      TaskHistory inStore files → (∀ directory child, inStore directory →
        after.fileAt (child :: directory) = files.fileAt (child :: directory)) →
      TaskHistory inStore after

end FsStorage

end BabyLuigi
