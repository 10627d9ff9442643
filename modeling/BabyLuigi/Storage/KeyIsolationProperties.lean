import BabyLuigi.Storage.FsStorageProperties

/-! Keys of the stores do not disturb each other as long as their names are
path components of their own; names with separators in them meet in one file. -/

set_option autoImplicit false

namespace BabyLuigi.FsStorage

open FileSystem (KeptOnWay)

/-- A key of the DAG store or of the task store. -/
inductive StoreKey where
  | dag (name : Str)
  | task (dag name : Str)
  deriving DecidableEq, Repr

namespace StoreKey

def Plain : StoreKey → Prop
  | .dag name => PlainName name
  | .task associatedDag name => PlainName associatedDag ∧ PlainName name

variable (root : StoreRoot)

/-- The directory of the store that the key belongs to. -/
def directory : StoreKey → FsPath
  | .dag _ => dagDir root
  | .task _ _ => taskDir root

def file : StoreKey → FsPath
  | .dag name => dagFile root name
  | .task associatedDag name => taskFile root associatedDag name

/-- The result of `get` for the key. -/
def read (disk : DiskBehavior) (files : Files) : StoreKey → Outcome DagEntry ⊕ Outcome TaskEntry
  | .dag name => .inl (getDag root disk files name)
  | .task associatedDag name => .inr (getTask root disk files associatedDag name)

end StoreKey

/-- A call that may change one of the two stores. -/
inductive StoreChange where
  | upsertDag (dag : ShyguyDag) (ifVersion : Option UInt64)
  | eraseDag (name : Str) (ifVersion : Option UInt64)
  | upsertTask (task : ShyguyTask) (blobId : Option Str) (ifVersion : Option UInt64)
    (metadata : Option TaskMetadata)
  | eraseTask (dag name : Str) (ifVersion : Option UInt64)

namespace StoreChange

def key : StoreChange → StoreKey
  | .upsertDag dag _ => .dag dag.name
  | .eraseDag name _ => .dag name
  | .upsertTask task _ _ _ => .task task.associatedDag task.name
  | .eraseTask dag name _ => .task dag name

/-- The tree after the call, and whether the call succeeded. -/
def apply (root : StoreRoot) (disk : DiskBehavior) (files : Files) : StoreChange → Files × Bool
  | .upsertDag dag ifVersion =>
    (FsStorage.upsertDag root disk files dag ifVersion).map id Outcome.isValue
  | .eraseDag name ifVersion =>
    (FsStorage.eraseDag root disk files name ifVersion).map id Outcome.isValue
  | .upsertTask task blobId ifVersion metadata =>
    (FsStorage.upsertTask root disk files task blobId ifVersion metadata).map id Outcome.isValue
  | .eraseTask dag name ifVersion =>
    (FsStorage.eraseTask root disk files dag name ifVersion).map id Outcome.isValue

end StoreChange

variable {root : StoreRoot} {disk readDisk : DiskBehavior}

theorem StoreKey.locations (root : StoreRoot) {key : StoreKey} (plain : key.Plain) :
    ∃ fileName name,
      (key.file root).resolve = fileName :: name :: (key.directory root).resolve ∧
      (key.file root).temporary =
        (fileName ++ ascii ".tmp") :: name :: (key.directory root).resolve ∧
      (key.file root).parentPath.resolve = name :: (key.directory root).resolve := by
  cases key with
  | dag name => exact ⟨_, name, dagFile_locations root plain⟩
  | task dag name => exact ⟨_, dag, taskFile_locations root plain.1 plain.2⟩

theorem StoreKey.isDocument (root : StoreRoot) {key : StoreKey} (plain : key.Plain) :
    (key.file root).IsDocument := by
  cases key with
  | dag name => exact isDocument_dagFile root (PlainName.noNul plain)
  | task dag name => exact isDocument_taskFile root plain.1.noNul plain.2.noNul

theorem StoreKey.length_directory (root : StoreRoot) (key : StoreKey) :
    (key.directory root).resolve.length = root.path.resolve.length + 2 := by
  cases key with
  | dag name => rw [directory, resolve_dagDir]; rfl
  | task dag name => rw [directory, resolve_taskDir]; rfl

theorem StoreKey.file_injective {first second : StoreKey} (firstPlain : first.Plain)
    (secondPlain : second.Plain)
    (same : (first.file root).resolve = (second.file root).resolve) : first = second := by
  cases first with
  | dag firstName =>
      cases second with
      | dag secondName =>
          simp only [file, (dagFile_locations root firstPlain).1,
            (dagFile_locations root secondPlain).1, List.cons.injEq, true_and, and_true] at same
          rw [same]
      | task secondDag secondName =>
          simp only [file, (dagFile_locations root firstPlain).1,
            (taskFile_locations root secondPlain.1 secondPlain.2).1, List.cons.injEq] at same
          exact absurd same.2.2 (dagDir_ne_taskDir root)
  | task firstDag firstName =>
      cases second with
      | dag secondName =>
          simp only [file, (taskFile_locations root firstPlain.1 firstPlain.2).1,
            (dagFile_locations root secondPlain).1, List.cons.injEq] at same
          exact absurd same.2.2.symm (dagDir_ne_taskDir root)
      | task secondDag secondName =>
          simp only [file, (taskFile_locations root firstPlain.1 firstPlain.2).1,
            (taskFile_locations root secondPlain.1 secondPlain.2).1, List.cons.injEq,
            List.append_cancel_right_eq, and_true] at same
          rw [same.1, same.2]

theorem StoreKey.read_congr {files after : Files} {key : StoreKey}
    (same : after.node (key.file root).resolve = files.node (key.file root).resolve) :
    key.read root readDisk after = key.read root readDisk files := by
  cases key with
  | dag name =>
      rw [file] at same
      simp only [read, getDag, readJson_congr same]
  | task dag name =>
      rw [file] at same
      simp only [read, getTask, readJson_congr same]

/-- A call changes nothing but the file of its key, its temporary file and the
directories above them; and of these directories it makes no file. -/
theorem StoreChange.apply_frame (root : StoreRoot) (disk : DiskBehavior) (files : Files)
    {change : StoreChange} (plain : change.key.Plain) {other : Location}
    (notFile : other ≠ (change.key.file root).resolve)
    (notTemporary : other ≠ (change.key.file root).temporary)
    (notDirectory : other ≠ (change.key.file root).parentPath.resolve) :
    KeptOnWay files (change.apply root disk files).1 (change.key.file root).parentPath.resolve
      other := by
  cases change with
  | upsertDag dag ifVersion =>
      exact upsertAt_frame (by rfl) notFile notTemporary
  | eraseDag name ifVersion =>
      have namePlain : PlainName name := plain
      obtain ⟨_, _, parent⟩ := dagFile_locations root namePlain
      rcases eraseDag_cases (Prod.eta (FsStorage.eraseDag root disk files name ifVersion)).symm with
          ⟨_, same⟩ | ⟨_, _, _, _, _, kept⟩
      · exact .inl (congrArg (fun tree => FileSystem.node tree other) same)
      · refine .inl (kept other notFile ?_)
        rw [resolve_dagDirectory root namePlain, ← parent]
        exact notDirectory
  | upsertTask task blobId ifVersion metadata =>
      exact upsertAt_frame (by rfl) notFile notTemporary
  | eraseTask dag name ifVersion =>
      obtain ⟨_, same⟩ | ⟨_, _, _, nodes⟩ := eraseTask_cases
        (Prod.eta (FsStorage.eraseTask root disk files dag name ifVersion)).symm
      · exact .inl (congrArg (fun tree => FileSystem.node tree other) same)
      · exact .inl ((nodes other).trans (if_neg notFile))

/-- A call on one key leaves the result of `get` for every other key, and the
files it touches lie inside of its store's directory. -/
theorem keys_isolated (root : StoreRoot) (disk readDisk : DiskBehavior) (files : Files)
    (change : StoreChange) (key : StoreKey) (changePlain : change.key.Plain) (plain : key.Plain)
    (different : change.key ≠ key) :
    key.read root readDisk (change.apply root disk files).1 = key.read root readDisk files ∧
    ∀ location, (change.apply root disk files).1.fileAt location ≠ files.fileAt location →
      ∃ inside, inside ≠ [] ∧ location = inside ++ (change.key.directory root).resolve := by
  obtain ⟨changeName, changeParent, changeFile, changeTemporary, changeDirectory⟩ :=
    StoreKey.locations root changePlain
  refine ⟨StoreKey.read_congr ?_, ?_⟩
  · obtain ⟨fileName, name, file, _, _⟩ := StoreKey.locations root plain
    have aside : ¬ (key.file root).resolve <:+ (change.key.file root).parentPath.resolve := by
      intro above
      have shorter := above.length_le
      rw [file, changeDirectory] at shorter
      simp only [List.length_cons, StoreKey.length_directory] at shorter
      omega
    refine (change.apply_frame root disk files changePlain ?_ ?_ ?_).node aside
    · exact fun same => different (StoreKey.file_injective changePlain plain same.symm)
    · exact (StoreKey.isDocument root plain).resolve_ne_temporary
        (StoreKey.isDocument root changePlain)
    · exact fun same => aside (same ▸ List.suffix_rfl)
  · intro location changed
    by_cases isFile : location = (change.key.file root).resolve
    · exact ⟨[changeName, changeParent], by simp, isFile.trans changeFile⟩
    · by_cases isTemporary : location = (change.key.file root).temporary
      · exact ⟨[changeName ++ ascii ".tmp", changeParent], by simp,
          isTemporary.trans changeTemporary⟩
      · by_cases isDirectory : location = (change.key.file root).parentPath.resolve
        · exact ⟨[changeParent], by simp, isDirectory.trans changeDirectory⟩
        · exact absurd (change.apply_frame root disk files changePlain isFile isTemporary
            isDirectory).fileAt changed

def upsertBareTask (associatedDag name : Str) : StoreChange :=
  .upsertTask (bareTask associatedDag name) none none none

/-- The program's stores with the task `load` of `etl`. -/
def loadFiles : Files :=
  ((upsertBareTask (ascii "etl") (ascii "load")).apply dataRoot .reliable freshFiles).1

/-- Creating the task `extract` leaves its neighbour `load` as it is stored. -/
theorem keys_isolated_etl :
    (getTask dataRoot .reliable loadFiles (ascii "etl") (ascii "load")).isValue = true ∧
    (StoreKey.task (ascii "etl") (ascii "load")).read dataRoot .reliable
        ((upsertBareTask (ascii "etl") (ascii "extract")).apply dataRoot .reliable loadFiles).1 =
      (StoreKey.task (ascii "etl") (ascii "load")).read dataRoot .reliable loadFiles :=
  ⟨by decide +kernel, (keys_isolated dataRoot .reliable .reliable loadFiles
    (upsertBareTask (ascii "etl") (ascii "extract")) (.task (ascii "etl") (ascii "load"))
    ⟨by constructor <;> decide, by constructor <;> decide⟩
    ⟨by constructor <;> decide, by constructor <;> decide⟩ (by decide)).1⟩

/-- The task `b/c` of `a` is in the file of the task `c` of `a/b`, and a DAG
whose name leads out of the store is in a directory of nobody's. -/
theorem keys_meet :
    ((upsertBareTask (ascii "a") (ascii "b/c")).apply dataRoot .reliable freshFiles).2 = true ∧
    (upsertBareTask (ascii "a") (ascii "b/c")).key ≠ .task (ascii "a/b") (ascii "c") ∧
    (StoreKey.task (ascii "a/b") (ascii "c")).read dataRoot .reliable
        ((upsertBareTask (ascii "a") (ascii "b/c")).apply dataRoot .reliable freshFiles).1 ≠
      (StoreKey.task (ascii "a/b") (ascii "c")).read dataRoot .reliable freshFiles ∧
    ((StoreChange.upsertDag ⟨ascii "../../../etc", none⟩ none).apply
        dataRoot .reliable freshFiles).2 = true ∧
    (((StoreChange.upsertDag ⟨ascii "../../../etc", none⟩ none).apply
        dataRoot .reliable freshFiles).1.fileAt [ascii "dag.json", ascii "etc"]).isSome = true ∧
    (freshFiles.fileAt [ascii "dag.json", ascii "etc"]).isSome = false := by
  decide +kernel

end BabyLuigi.FsStorage
