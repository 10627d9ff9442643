import BabyLuigi.Storage.FsStorageProperties
import BabyLuigi.Storage.InterruptedUpsert

/-! How far a write of a document gets when it fails or is cut short, and which
tree it leaves then. -/

set_option autoImplicit false

namespace BabyLuigi.FsStorage

variable {disk : DiskBehavior}

/-- What a write does to the tree: it does not open its temporary file, leaves
it there with some content, or moves this content over the document. -/
inductive Progress where
  | unopened
  | left (content : FileContent)
  | moved (content : FileContent)

def progress (disk : DiskBehavior) (stop : Option Stop) (openable : Bool) (document : Json) :
    Progress :=
  if stop = some .directoriesCreated || !disk.opens || !openable then .unopened
  else if stop = some .opened || !document.dumpable then .left (.bytes [])
  else
    match stop with
    | some (.written flushed) => .left (partOf document flushed)
    | _ =>
      if stop = some .closed || !disk.accepts || !disk.renames then .left (disk.stored document)
      else .moved (disk.stored document)

theorem progress_unopened {stop : Option Stop} {openable : Bool} {document : Json}
    (fails : ¬ (stop ≠ some .directoriesCreated ∧ disk.opens = true ∧ openable = true)) :
    progress disk stop openable document = .unopened := by
  refine if_pos ?_
  by_contra none
  simp only [Bool.or_eq_true, decide_eq_true_eq, Bool.not_eq_true', not_or,
    Bool.not_eq_false] at none
  exact fails ⟨none.1.1, none.1.2, none.2⟩

theorem progress_unprinted {stop : Option Stop} {document : Json}
    (passed : stop ≠ some .directoriesCreated) (opens : disk.opens = true)
    (fails : ¬ (stop ≠ some .opened ∧ document.dumpable = true)) :
    progress disk stop true document = .left (.bytes []) := by
  have notPrinted : (decide (stop = some .opened) || !document.dumpable) = true := by
    by_contra none
    simp only [Bool.or_eq_true, decide_eq_true_eq, Bool.not_eq_true', not_or,
      Bool.not_eq_false] at none
    exact fails none
  simp [progress, passed, opens, notPrinted]

theorem progress_written {flushed : Option Str} {document : Json} (opens : disk.opens = true)
    (printable : document.dumpable = true) :
    progress disk (some (.written flushed)) true document = .left (partOf document flushed) := by
  simp [progress, opens, printable]

theorem progress_unwritten {stop : Option Stop} {document : Json}
    (passed : stop ≠ some .directoriesCreated) (opens : disk.opens = true)
    (notOpened : stop ≠ some .opened) (printable : document.dumpable = true)
    (notWritten : ∀ flushed, stop ≠ some (.written flushed)) :
    progress disk stop true document =
      if stop = some .closed || !disk.accepts || !disk.renames then .left (disk.stored document)
      else .moved (disk.stored document) := by
  cases stop with
  | none => simp [progress, opens, printable]
  | some step =>
      cases step with
      | directoriesCreated => exact absurd rfl passed
      | opened => exact absurd rfl notOpened
      | written flushed => exact absurd rfl (notWritten flushed)
      | closed => simp [progress, opens, printable]
      | renamed => simp [progress, opens, printable]

theorem progress_moved {stop : Option Stop} {document : Json}
    (passed : stop ≠ some .directoriesCreated) (opens : disk.opens = true)
    (notOpened : stop ≠ some .opened) (printable : document.dumpable = true)
    (notWritten : ∀ flushed, stop ≠ some (.written flushed)) (moves : Moves disk stop) :
    progress disk stop true document = .moved (disk.stored document) := by
  obtain ⟨notClosed, accepts, renames⟩ := moves
  rw [progress_unwritten passed opens notOpened printable notWritten]
  simp [notClosed, accepts, renames]

theorem progress_unmoved {stop : Option Stop} {document : Json}
    (passed : stop ≠ some .directoriesCreated) (opens : disk.opens = true)
    (notOpened : stop ≠ some .opened) (printable : document.dumpable = true)
    (notWritten : ∀ flushed, stop ≠ some (.written flushed)) (fails : ¬ Moves disk stop) :
    progress disk stop true document = .left (disk.stored document) := by
  rw [progress_unwritten passed opens notOpened printable notWritten]
  refine if_pos ?_
  by_contra none
  simp only [Bool.or_eq_true, decide_eq_true_eq, Bool.not_eq_true', not_or,
    Bool.not_eq_false] at none
  exact fails ⟨none.1.1, none.1.2, none.2⟩

/-- The tree after a write that got so far. -/
def Progress.node (progress : Progress) (made : Files) (target temporary other : Location) :
    Option (Node FileContent) :=
  match progress with
  | .unopened => made.node other
  | .left content => if other = temporary then some (.file content) else made.node other
  | .moved content =>
    if other = target then some (.file content)
    else if other = temporary then none
    else made.node other

/-- A tree and an answer that a write may end with once it got so far: only a
document that was moved is reported as a success, and nothing else then. -/
structure Progress.Ends {Value : Type} (progress : Progress) (made after : Files)
    (target temporary : Location) (answer : Option (Outcome Value)) : Prop where
  node : ∀ other, after.node other = progress.node made target temporary other
  answer : ∀ outcome, answer = some outcome →
    (outcome.isValue = true ↔ ∃ content, progress = .moved content)

theorem Progress.Ends.unopened {Value : Type} {made : Files} {target temporary : Location}
    {answer : Option (Outcome Value)}
    (failed : ∀ outcome, answer = some outcome → outcome.isValue = false) :
    Progress.unopened.Ends made made target temporary answer where
  node _ := rfl
  answer outcome isAnswer := by simp [failed outcome isAnswer]

theorem Progress.Ends.left {Value : Type} {made after : Files} {target temporary : Location}
    {content : FileContent} {answer : Option (Outcome Value)}
    (nodes : ∀ other, after.node other =
      if other = temporary then some (.file content) else made.node other)
    (failed : ∀ outcome, answer = some outcome → outcome.isValue = false) :
    (Progress.left content).Ends made after target temporary answer where
  node := nodes
  answer outcome isAnswer := by simp [failed outcome isAnswer]

theorem Progress.Ends.moved {Value : Type} {made after : Files} {target temporary : Location}
    {content : FileContent} {answer : Option (Outcome Value)}
    (nodes : ∀ other, after.node other =
      if other = target then some (.file content)
      else if other = temporary then none
      else made.node other)
    (succeeded : ∀ outcome, answer = some outcome → outcome.isValue = true) :
    (Progress.moved content).Ends made after target temporary answer where
  node := nodes
  answer outcome isAnswer := by simp [succeeded outcome isAnswer]

theorem Progress.Ends.map {Value Result : Type} {progress : Progress} {made after : Files}
    {target temporary : Location} {answer : Option (Outcome Value)}
    (ends : progress.Ends made after target temporary answer) (change : Value → Result) :
    progress.Ends made after target temporary (answer.map fun outcome => outcome.map change) where
  node := ends.node
  answer outcome isAnswer := by
    obtain ⟨original, isOriginal, rfl⟩ := Option.map_eq_some_iff.mp isAnswer
    rw [← ends.answer original isOriginal]
    cases original <;> rfl

theorem interruptedWrite_ends {stop : Option Stop} {files after : Files} {path : FsPath}
    {document : Json} {answer : Option (Outcome Unit)} {target temporary : Str} {parent : Location}
    (result : interruptedWrite disk stop files path document = (after, answer))
    (isTarget : path.resolve = target :: parent) (isTemporary : path.temporary = temporary :: parent)
    (targetFree : (makeParents disk files path).node (target :: parent) ≠ some .directory) :
    (progress disk stop ((makeParents disk files path).isDirectory parent &&
        !(makeParents disk files path).isDirectory (temporary :: parent)) document).Ends
      (makeParents disk files path) after (target :: parent) (temporary :: parent) answer := by
  unfold interruptedWrite at result
  rw [isTarget, isTemporary] at result
  generalize makeParents disk files path = made at result targetFree ⊢
  dsimp only at result
  split at result
  · rename_i stopped
    cases result
    rw [progress_unopened fun opens => opens.1 stopped]
    exact .unopened nofun
  rename_i passed
  split at result
  · rename_i notOpened
    cases result
    rw [progress_unopened fun opens => by simp [opens.2.1] at notOpened]
    exact .unopened (by rintro _ ⟨⟩; rfl)
  rename_i opens
  replace opens : disk.opens = true := by simpa using opens
  split at result
  · rename_i notOpened
    have unopenable :
        (made.isDirectory parent && !made.isDirectory (temporary :: parent)) ≠ true := by
      intro openable
      simp only [Bool.and_eq_true, Bool.not_eq_true', FileSystem.isDirectory_iff,
        ← Bool.not_eq_true] at openable
      obtain ⟨opened, openedAt⟩ :=
        FileSystem.exists_write openable.1 openable.2 (.bytes [])
      cases notOpened.symm.trans openedAt
    cases result
    rw [progress_unopened fun opens => unopenable opens.2.2]
    exact .unopened (by rintro _ ⟨⟩; rfl)
  rename_i opened openedAt
  obtain ⟨inDirectory, notDirectory⟩ := FileSystem.isDirectory_of_write openedAt
  rw [inDirectory, notDirectory, Bool.not_false, Bool.and_true]
  split at result
  · rename_i stopped
    cases result
    rw [progress_unprinted passed opens fun prints => prints.1 stopped]
    exact .left (FileSystem.node_write openedAt) nofun
  rename_i notOpened
  split at result
  · rename_i notPrinted
    cases result
    rw [progress_unprinted passed opens fun prints => by simp [prints.2] at notPrinted]
    exact .left (FileSystem.node_write openedAt) (by rintro _ ⟨⟩; rfl)
  rename_i printable
  replace printable : document.dumpable = true := by simpa using printable
  split at result
  · rename_i flushed
    obtain ⟨closed, closedAt⟩ :=
      FileSystem.exists_write_again openedAt (partOf document flushed)
    cases result
    rw [progress_written opens printable, closedAt]
    exact .left (FileSystem.node_write_write openedAt closedAt) nofun
  rename_i notWritten
  split at result
  · rename_i notClosed
    obtain ⟨closed, closedAt⟩ := FileSystem.exists_write_again openedAt (disk.stored document)
    cases notClosed.symm.trans closedAt
  rename_i closed closedAt
  have closedNodes := FileSystem.node_write_write openedAt closedAt
  split at result
  · rename_i stopped
    cases result
    rw [progress_unmoved passed opens notOpened printable notWritten fun moves => moves.1 stopped]
    exact .left closedNodes nofun
  rename_i notClosed
  split at result
  · rename_i fails
    cases result
    rw [progress_unmoved passed opens notOpened printable notWritten fun moves => by
      simp [moves.2] at fails]
    exact .left closedNodes (by rintro _ ⟨⟩; rfl)
  rename_i succeeds
  rw [progress_moved passed opens notOpened printable notWritten
    ⟨notClosed, by simpa using succeeds⟩]
  split at result
  · rename_i notMoved
    obtain ⟨moved, movedTo⟩ := FileSystem.exists_rename_written closedNodes targetFree
    cases notMoved.symm.trans movedTo
  rename_i renamed renamedTo
  cases result
  apply Progress.Ends.moved (FileSystem.node_rename_written closedNodes renamedTo)
  intro outcome isAnswer
  split at isAnswer
  · cases isAnswer
  · cases isAnswer
    rfl

end BabyLuigi.FsStorage
