import BabyLuigi.Storage.TaskHistoryProperties

/-! When an update of a task that fails or is cut short is atomic for the
readers of the store. -/

set_option autoImplicit false

namespace BabyLuigi.FsStorage

variable {root : StoreRoot} {disk : DiskBehavior} {inStore : Location → Prop}

section Atomicity

variable {stop : Option Stop} {files after : Files} {task : ShyguyTask} {blobId : Option Str}
  {ifVersion : Option UInt64} {metadata : Option TaskMetadata} {answer : Option (Outcome UInt64)}

/-! ### Readers of two trees -/

theorem getTask_congr {dag name : Str}
    (same : after.node (taskFile root dag name).resolve =
      files.node (taskFile root dag name).resolve) :
    getTask root disk after dag name = getTask root disk files dag name := by
  rw [getTask, getTask, readJson_congr same]

theorem holdsEntry_iff {location : Location} {entry : TaskEntry} :
    HoldsEntry root files location entry ↔ ∃ content document,
      files.fileAt location = some content ∧ readContent root content = .ok document ∧
        decodeTask document = .ok entry := by
  constructor
  · rintro ⟨document, found, decoded⟩
    obtain ⟨content, file, readable⟩ := exists_file_of_readJson found
    exact ⟨content, document, file, readable, decoded⟩
  · rintro ⟨content, document, file, readable, decoded⟩
    refine ⟨document, ?_, decoded⟩
    rw [readJson, FileSystem.fileAt_eq_some.mp file]
    exact readable

theorem holdsEntry_congr {location : Location} {entry : TaskEntry}
    (same : after.fileAt location = files.fileAt location) :
    HoldsEntry root after location entry ↔ HoldsEntry root files location entry := by
  rw [holdsEntry_iff, holdsEntry_iff, same]

theorem inPlace_congr {dag name : Str}
    (sameOwn : after.fileAt (taskFile root dag name).resolve =
      files.fileAt (taskFile root dag name).resolve)
    (same : ∀ child, after.fileAt (child :: (taskDirectory root dag).resolve) =
      files.fileAt (child :: (taskDirectory root dag).resolve)) :
    InPlace root after dag name ↔ InPlace root files dag name := by
  constructor
  · rintro ⟨own, only⟩
    exact ⟨fun entry held => own entry ((holdsEntry_congr sameOwn).mpr held),
      fun child entry held => only child entry ((holdsEntry_congr (same child)).mpr held)⟩
  · rintro ⟨own, only⟩
    exact ⟨fun entry held => own entry ((holdsEntry_congr sameOwn).mp held),
      fun child entry held => only child entry ((holdsEntry_congr (same child)).mp held)⟩

/-- The directories that an update makes on its way are no files. -/
theorem fileAt_of_unopened (ends : Progress.unopened.Ends
      (makeParents disk files (taskFile root task.associatedDag task.name)) after
      (taskFile root task.associatedDag task.name).resolve
      (taskFile root task.associatedDag task.name).temporary answer) (other : Location) :
    after.fileAt other = files.fileAt other := by
  rw [← (keptOnWay_makeParents disk files (taskFile root task.associatedDag task.name)
    other).fileAt]
  unfold FileSystem.fileAt
  rw [ends.node, Progress.node]

/-- An update that leaves the document in place is atomic when a list agrees
with `get_task` afterwards. -/
theorem atomic_iff_of_unmoved (holds : HoldsTasks root inStore after)
    (nothingEmpty : root.parseBytes [] = none)
    (key : InStore root inStore task.associatedDag task.name)
    (same : after.node (taskFile root task.associatedDag task.name).resolve =
      files.node (taskFile root task.associatedDag task.name).resolve) :
    Atomic root files after task blobId ifVersion metadata answer ↔
      after.fileAt (taskDirectory root task.associatedDag).resolve = none ∧
        InPlace root after task.associatedDag task.name := by
  have old : getTask root .reliable after task.associatedDag task.name =
      getTask root .reliable files task.associatedDag task.name := getTask_congr same
  rw [← holds.listed_iff nothingEmpty key]
  exact ⟨Atomic.listed, fun listed => ⟨.inl old, listed, fun _ _ _ => old⟩⟩

/-! ### The undisturbed update -/

theorem interruptedWrite_none (path : FsPath) (document : Json) :
    interruptedWrite disk none files path document =
      (writeJsonAtomic disk files path document).map id some := by
  unfold interruptedWrite writeJsonAtomic
  dsimp only
  rw [if_neg nofun]
  by_cases opens : disk.opens = true
  · rw [opens, Bool.not_true, if_neg Bool.false_ne_true, if_neg Bool.false_ne_true]
    cases (makeParents disk files path).write path.temporary (.bytes []) with
    | none => rfl
    | some opened =>
        dsimp only
        rw [if_neg nofun]
        cases document.dumpable with
        | false => rfl
        | true =>
            rw [Bool.not_true, if_neg Bool.false_ne_true, if_neg Bool.false_ne_true]
            cases opened.write path.temporary (disk.stored document) with
            | none => rfl
            | some closed =>
                dsimp only
                rw [if_neg nofun]
                cases !disk.accepts || !disk.renames with
                | true => rfl
                | false =>
                    cases closed.rename path.temporary path.resolve with
                    | none => rfl
                    | some renamed => rfl
  · rw [Bool.eq_false_iff.mpr opens]
    rfl

/-- An update that nothing interrupts is the one that the store offers. -/
theorem interruptedUpsertTask_none :
    interruptedUpsertTask root disk none files task blobId ifVersion metadata =
      (upsertTask root disk files task blobId ifVersion metadata).map id some := by
  unfold interruptedUpsertTask upsertTask upsertAt
  dsimp only
  cases nextVersion root disk files (taskFile root task.associatedDag task.name).resolve
      ifVersion with
  | exception fault => rfl
  | error error => rfl
  | value next =>
      obtain ⟨version, existing⟩ := next
      simp only [interruptedWrite_none]
      unfold writeVersion
      generalize writeJsonAtomic disk files _ _ = written
      obtain ⟨after, outcome⟩ := written
      cases outcome <;> rfl

theorem opens_iff {next : UInt64 × Option Json}
    (found : nextVersion root disk files (taskFile root task.associatedDag task.name).resolve
      ifVersion = .value next) :
    Opens root disk stop files task ifVersion ↔
      stop ≠ some .directoriesCreated ∧ disk.opens = true ∧ openable root disk files task = true := by
  have there := isDirectory_makeParents disk files (taskFile root task.associatedDag task.name)
  rw [Opens, openable, Bool.and_eq_true, Bool.not_eq_true', taskParent, there]
  exact and_iff_right ⟨next, found⟩

theorem openable_reliable (opens : openable root disk files task = true) :
    openable root .reliable files task = true := by
  simp only [openable, Bool.and_eq_true, taskParent, isDirectory_makeParents] at opens ⊢
  exact ⟨opens.1.imp_right fun creates => ⟨rfl, creates.2⟩, opens.2⟩

/-- An update that nothing disturbs puts its document in the place of the key. -/
theorem node_upsertTask (key : InStore root inStore task.associatedDag task.name)
    {version : UInt64} {existing : Option Json}
    (found : nextVersion root disk files (taskFile root task.associatedDag task.name).resolve
      ifVersion = .value (version, existing))
    (opens : openable root disk files task = true)
    (printable : (taskDocument version task blobId
      (chosenMetadata metadata existing)).dumpable = true) :
    (upsertTask root .reliable files task blobId ifVersion metadata).1.node
        (taskFile root task.associatedDag task.name).resolve =
      some (.file (.json (taskDocument version task blobId (chosenMetadata metadata existing)))) := by
  have sameFound := (nextVersion_value found).1
  have whole : interruptedUpsertTask root .reliable none files task blobId ifVersion metadata =
      ((upsertTask root .reliable files task blobId ifVersion metadata).1,
        some (upsertTask root .reliable files task blobId ifVersion metadata).2) :=
    interruptedUpsertTask_none
  rcases interruptedUpsertTask_cases key.dagDescends.noNul key.nameDescends.noNul whole with
      ⟨refused, _, _⟩ | ⟨_, _, _, otherFound, rfl, ends⟩
  · exact absurd sameFound (refused _)
  cases sameFound.symm.trans otherFound
  have reaches : progress .reliable none true (taskDocument version task blobId
      (chosenMetadata metadata existing)) = .moved (.json _) :=
    progress_moved nofun rfl nofun printable nofun ⟨nofun, rfl, rfl⟩
  rw [openable_reliable opens, reaches] at ends
  exact (ends.node _).trans (if_pos rfl)

theorem getTask_of_document {dag name : Str} {document : Json} {entry : TaskEntry}
    (decoded : decodeTask document = .ok entry)
    (node : files.node (taskFile root dag name).resolve = some (.file (.json document))) :
    getTask root .reliable files dag name = .value entry :=
  getTask_eq_value.mpr
    ⟨document, readJson_document DiskBehavior.reliable_reliable node, decoded⟩

theorem getTask_of_truncated {dag name : Str} {text : Str}
    (node : files.node (taskFile root dag name).resolve = some (.file (.truncated text))) :
    getTask root .reliable files dag name = .error .corrupt := by
  rw [getTask, readJson, node]
  rfl

/-- Where the version check passes, the key has an entry or none. -/
theorem getTask_ne_corrupt {version : UInt64} {existing : Option Json}
    (found : nextVersion root disk files (taskFile root task.associatedDag task.name).resolve
      ifVersion = .value (version, existing)) :
    getTask root .reliable files task.associatedDag task.name ≠ .error .corrupt := by
  have currentFound := (nextVersion_value found).2
  rw [getTask, currentFound]
  cases existing with
  | none =>
      intro impossible
      cases impossible
  | some document =>
      intro impossible
      dsimp only [Option.elim_some] at impossible
      cases decoded : decodeTask document <;> rw [decoded] at impossible <;> cases impossible

/-! ### Updates inside of their directory, and elsewhere -/

theorem file_ne_temporary (key : InStore root inStore task.associatedDag task.name) :
    (taskFile root task.associatedDag task.name).resolve ≠
      (taskFile root task.associatedDag task.name).temporary :=
  (isDocument_taskFile root key.dagDescends.noNul key.nameDescends.noNul).resolve_ne_temporary
    (isDocument_taskFile root key.dagDescends.noNul key.nameDescends.noNul)

/-- Every entry of that name in the directory is in the task's file or in its
temporary file. -/
theorem HoldsTasks.file_or_temporary (holds : HoldsTasks root inStore files)
    (nothingEmpty : root.parseBytes [] = none)
    (key : InStore root inStore task.associatedDag task.name)
    (inside : Inside root task.associatedDag task.name) {child : Str} {entry : TaskEntry}
    (held : HoldsEntry root files (child :: (taskDirectory root task.associatedDag).resolve) entry)
    (named : entry.value.name = task.name) :
    child :: (taskDirectory root task.associatedDag).resolve =
        (taskFile root task.associatedDag task.name).resolve ∨
      child :: (taskDirectory root task.associatedDag).resolve =
        (taskFile root task.associatedDag task.name).temporary := by
  obtain ⟨isTarget, isTemporary⟩ :=
    locations_of_fileName root key.dagDescends.noNul key.nameDescends.noNul
  have isFile := (holds.belongs nothingEmpty key.directory held).child_or.2
  have sameParent : taskParent root task.associatedDag task.name =
      (taskDirectory root task.associatedDag).resolve := inside
  rw [isTarget, isTemporary, sameParent]
  rw [named] at isFile
  exact isFile.imp (fun same => by rw [same]) fun same => by rw [same]

/-- What can be read of a file that an update leaves is the entry of its task. -/
def OnlyReads (root : StoreRoot) (task : ShyguyTask) (content : FileContent) : Prop :=
  ∀ document, readContent root content = .ok document →
    ∃ entry, decodeTask document = .ok entry ∧ entry.value = task

section Left

variable {content : FileContent}

/-- What an update that leaves its temporary file behind does to the files. -/
theorem fileAt_of_left (ends : (Progress.left content).Ends
      (makeParents disk files (taskFile root task.associatedDag task.name)) after
      (taskFile root task.associatedDag task.name).resolve
      (taskFile root task.associatedDag task.name).temporary answer) (other : Location) :
    after.fileAt other =
      if other = (taskFile root task.associatedDag task.name).temporary then some content
      else files.fileAt other := by
  have kept := (keptOnWay_makeParents disk files (taskFile root task.associatedDag task.name)
    other).fileAt
  rw [← kept]
  unfold FileSystem.fileAt
  rw [ends.node, Progress.node]
  by_cases isTemporary : other = (taskFile root task.associatedDag task.name).temporary
  · rw [if_pos isTemporary, if_pos isTemporary]
  · rw [if_neg isTemporary, if_neg isTemporary]

theorem inPlace_of_left_inside (holds : HoldsTasks root inStore files)
    (nothingEmpty : root.parseBytes [] = none)
    (key : InStore root inStore task.associatedDag task.name)
    (inside : Inside root task.associatedDag task.name) (onlyReads : OnlyReads root task content)
    (fileAt : ∀ other, after.fileAt other =
      if other = (taskFile root task.associatedDag task.name).temporary then some content
      else files.fileAt other) :
    InPlace root after task.associatedDag task.name ↔
      OwnFile root files task.associatedDag task.name ∧
        ∀ document, readContent root content ≠ .ok document := by
  have isTemporary := (locations_of_fileName root key.dagDescends.noNul key.nameDescends.noNul).2
  rw [show taskParent root task.associatedDag task.name =
    (taskDirectory root task.associatedDag).resolve from inside] at isTemporary
  have apart := file_ne_temporary key
  have sameOwn := (fileAt _).trans (if_neg apart)
  have left := (fileAt _).trans (if_pos rfl)
  constructor
  · rintro ⟨own, only⟩
    refine ⟨fun entry held => own entry ((holdsEntry_congr sameOwn).mpr held), ?_⟩
    intro document readable
    obtain ⟨entry, decoded, isTask⟩ := onlyReads document readable
    have held := holdsEntry_iff.mpr ⟨content, document, left, readable, decoded⟩
    rw [isTemporary] at held
    exact apart ((only _ entry held (by rw [isTask])).symm.trans isTemporary.symm)
  · rintro ⟨own, unreadable⟩
    refine ⟨fun entry held => own entry ((holdsEntry_congr sameOwn).mp held), ?_⟩
    intro child entry held named
    by_cases isChild : child :: (taskDirectory root task.associatedDag).resolve =
        (taskFile root task.associatedDag task.name).temporary
    · rw [isChild] at held
      obtain ⟨found, document, file, readable, _⟩ := holdsEntry_iff.mp held
      cases left.symm.trans file
      exact absurd readable (unreadable document)
    · have heldBefore := (holdsEntry_congr ((fileAt _).trans (if_neg isChild))).mp held
      exact (holds.file_or_temporary nothingEmpty key inside heldBefore named).resolve_right isChild

theorem inPlace_of_left_outside (key : InStore root inStore task.associatedDag task.name)
    (outside : ¬ Inside root task.associatedDag task.name)
    (fileAt : ∀ other, after.fileAt other =
      if other = (taskFile root task.associatedDag task.name).temporary then some content
      else files.fileAt other) :
    InPlace root after task.associatedDag task.name ↔
      InPlace root files task.associatedDag task.name := by
  apply inPlace_congr
  · exact (fileAt _).trans (if_neg (file_ne_temporary key))
  · intro child
    refine (fileAt _).trans (if_neg ?_)
    rw [(locations_of_fileName root key.dagDescends.noNul key.nameDescends.noNul).2]
    exact fun same => outside (List.cons.inj same).2.symm

theorem noFile_of_opens (opens : Opens root disk stop files task ifVersion)
    (inside : Inside root task.associatedDag task.name) :
    files.fileAt (taskDirectory root task.associatedDag).resolve = none := by
  obtain ⟨_, _, _, there, _⟩ := opens
  rw [show taskParent root task.associatedDag task.name =
    (taskDirectory root task.associatedDag).resolve from inside] at there
  rcases there with held | ⟨_, _, free⟩
  · rw [FileSystem.fileAt, FileSystem.isDirectory_iff.mp held]
  · exact free _ List.suffix_rfl

theorem temporary_ne_directory (key : InStore root inStore task.associatedDag task.name)
    (inside : Inside root task.associatedDag task.name) :
    (taskFile root task.associatedDag task.name).temporary ≠
      (taskDirectory root task.associatedDag).resolve := by
  rw [(locations_of_fileName root key.dagDescends.noNul key.nameDescends.noNul).2,
    show taskParent root task.associatedDag task.name =
      (taskDirectory root task.associatedDag).resolve from inside]
  exact List.cons_ne_self _ _

/-- An update that leaves its temporary file behind is atomic when this file is
no document; elsewhere than in the directory that is listed, when the task is in
its place already. -/
theorem atomic_iff_of_left (holds : HoldsTasks root inStore files)
    (afterHolds : HoldsTasks root inStore after) (nothingEmpty : root.parseBytes [] = none)
    (key : InStore root inStore task.associatedDag task.name)
    (opens : Opens root disk stop files task ifVersion) (onlyReads : OnlyReads root task content)
    (ends : (Progress.left content).Ends
      (makeParents disk files (taskFile root task.associatedDag task.name)) after
      (taskFile root task.associatedDag task.name).resolve
      (taskFile root task.associatedDag task.name).temporary answer) :
    Atomic root files after task blobId ifVersion metadata answer ↔
      Inside root task.associatedDag task.name ∧ OwnFile root files task.associatedDag task.name ∧
          (∀ document, readContent root content ≠ .ok document) ∨
        ¬ Inside root task.associatedDag task.name ∧
          files.fileAt (taskDirectory root task.associatedDag).resolve = none ∧
          (taskFile root task.associatedDag task.name).temporary ≠
            (taskDirectory root task.associatedDag).resolve ∧
          InPlace root files task.associatedDag task.name := by
  have isTarget := (locations_of_fileName root key.dagDescends.noNul key.nameDescends.noNul).1
  have same : after.node (taskFile root task.associatedDag task.name).resolve =
      files.node (taskFile root task.associatedDag task.name).resolve := by
    rw [ends.node, Progress.node, if_neg (file_ne_temporary key), isTarget]
    exact node_makeParents_child disk files _ _ _
  have fileAt := fileAt_of_left ends
  rw [atomic_iff_of_unmoved afterHolds nothingEmpty key same]
  by_cases inside : Inside root task.associatedDag task.name
  · have noFile : after.fileAt (taskDirectory root task.associatedDag).resolve = none :=
      (fileAt _).trans ((if_neg (temporary_ne_directory key inside).symm).trans
        (noFile_of_opens opens inside))
    rw [inPlace_of_left_inside holds nothingEmpty key inside onlyReads fileAt]
    simp only [noFile, inside, true_and, not_true_eq_false, false_and, or_false]
  · have noFile_iff : after.fileAt (taskDirectory root task.associatedDag).resolve = none ↔
        files.fileAt (taskDirectory root task.associatedDag).resolve = none ∧
          (taskFile root task.associatedDag task.name).temporary ≠
            (taskDirectory root task.associatedDag).resolve := by
      rw [fileAt]
      split
      · rename_i isTemporary
        simp [isTemporary]
      · rename_i notTemporary
        exact (and_iff_left (Ne.symm notTemporary)).symm
    rw [inPlace_of_left_outside key inside fileAt, noFile_iff, and_assoc]
    simp only [inside, false_and, not_false_eq_true, true_and, false_or]

end Left

theorem inPlace_of_moved (afterHolds : HoldsTasks root inStore after)
    (nothingEmpty : root.parseBytes [] = none)
    (key : InStore root inStore task.associatedDag task.name)
    (inside : Inside root task.associatedDag task.name) {document : Json} {entry : TaskEntry}
    (decoded : decodeTask document = .ok entry) (isTask : entry.value = task)
    (moved : after.node (taskFile root task.associatedDag task.name).resolve =
      some (.file (.json document)))
    (noTemporary : after.node (taskFile root task.associatedDag task.name).temporary = none) :
    InPlace root after task.associatedDag task.name := by
  constructor
  · intro other held
    have heldValue : getTask root .reliable after task.associatedDag task.name = .value other :=
      getTask_eq_value.mpr held
    cases (getTask_of_document decoded moved).symm.trans heldValue
    exact ⟨by rw [isTask], inside⟩
  · intro child other held named
    rcases afterHolds.file_or_temporary nothingEmpty key inside held named with
      isFile | isTemporary
    · exact isFile
    · have file := exists_file_of_holdsEntry held
      rw [isTemporary, FileSystem.fileAt_of_absent noTemporary] at file
      cases file

/-- An update that moves its temporary file is atomic when this file holds the
whole document and lies in the directory that is listed. -/
theorem atomic_iff_of_moved (afterHolds : HoldsTasks root inStore after) (nothingEmpty : root.parseBytes [] = none)
    (key : InStore root inStore task.associatedDag task.name)
    (opens : Opens root disk stop files task ifVersion) {version : UInt64}
    {existing : Option Json} {document : Json}
    (found : nextVersion root disk files (taskFile root task.associatedDag task.name).resolve
      ifVersion = .value (version, existing))
    (isDocument : document = taskDocument version task blobId (chosenMetadata metadata existing))
    (printable : document.dumpable = true) {entry : TaskEntry}
    (decoded : decodeTask document = .ok entry) (isTask : entry.value = task)
    (ends : (Progress.moved (disk.stored document)).Ends
      (makeParents disk files (taskFile root task.associatedDag task.name)) after
      (taskFile root task.associatedDag task.name).resolve
      (taskFile root task.associatedDag task.name).temporary answer) :
    Atomic root files after task blobId ifVersion metadata answer ↔
      Inside root task.associatedDag task.name ∧ disk.keeps = none := by
  subst isDocument
  have moved := (ends.node _).trans (if_pos rfl)
  have updated := node_upsertTask key found ((opens_iff found).mp opens).2.2 printable
  constructor
  · intro atomic
    cases keeps : disk.keeps with
    | none =>
        rw [DiskBehavior.stored, keeps] at moved
        refine ⟨?_, rfl⟩
        have inPlace := ((afterHolds.listed_iff nothingEmpty key).mp atomic.listed).2
        exact (inPlace.own entry (getTask_eq_value.mp (getTask_of_document decoded moved))).2
    | some text =>
        rw [DiskBehavior.stored, keeps] at moved
        have corrupt := getTask_of_truncated moved
        rcases atomic.oldOrNew with old | new
        · exact absurd (old.symm.trans corrupt) (getTask_ne_corrupt found)
        · cases (new.symm.trans corrupt).symm.trans (getTask_of_document decoded updated)
  · rintro ⟨inside, keeps⟩
    rw [DiskBehavior.stored, keeps] at moved
    have noTemporary : after.node (taskFile root task.associatedDag task.name).temporary = none :=
      (ends.node _).trans ((if_neg (file_ne_temporary key).symm).trans (if_pos rfl))
    have nodes : ∀ other, other ≠ (taskFile root task.associatedDag task.name).resolve →
        other ≠ (taskFile root task.associatedDag task.name).temporary →
        after.fileAt other = files.fileAt other := by
      intro other notFile notTemporary
      rw [← (keptOnWay_makeParents disk files (taskFile root task.associatedDag task.name)
        other).fileAt]
      unfold FileSystem.fileAt
      rw [ends.node, Progress.node, if_neg notFile, if_neg notTemporary]
    have inPlace := inPlace_of_moved afterHolds nothingEmpty key inside decoded isTask moved noTemporary
    have noFile : after.fileAt (taskDirectory root task.associatedDag).resolve = none := by
      refine (nodes _ ?_ (temporary_ne_directory key inside).symm).trans
        (noFile_of_opens opens inside)
      rw [(locations_of_fileName root key.dagDescends.noNul key.nameDescends.noNul).1,
        show taskParent root task.associatedDag task.name =
          (taskDirectory root task.associatedDag).resolve from inside]
      exact (List.cons_ne_self _ _).symm
    refine ⟨.inr (getTask_congr (moved.trans updated.symm)),
      (afterHolds.listed_iff nothingEmpty key).mpr ⟨noFile, inPlace⟩, ?_⟩
    intro outcome isAnswer failed
    rw [(ends.answer outcome isAnswer).mpr ⟨_, rfl⟩] at failed
    cases failed

/-! ### What is left of a document -/

theorem stored_eq_partOf (document : Json) : disk.stored document = partOf document disk.keeps := by
  rw [DiskBehavior.stored]
  cases disk.keeps <;> rfl

theorem unread_partOf_iff {document : Json} {part : Option Str} :
    (∀ found, readContent root (partOf document part) ≠ .ok found) ↔ part ≠ none := by
  cases part with
  | none => exact ⟨fun unread => absurd rfl (unread document), fun same => absurd rfl same⟩
  | some text => exact ⟨fun _ => nofun, fun _ => nofun⟩

theorem onlyReads_partOf {document : Json} {part : Option Str} {entry : TaskEntry}
    (decoded : decodeTask document = .ok entry) (isTask : entry.value = task) :
    OnlyReads root task (partOf document part) := by
  intro found readable
  cases part with
  | none =>
      cases readable
      exact ⟨entry, decoded, isTask⟩
  | some text => cases readable

theorem unread_empty (nothingEmpty : root.parseBytes [] = none) (document : Json) :
    readContent root (.bytes []) ≠ .ok document := by
  simp [readContent, nothingEmpty]

theorem prints_iff (opens : Opens root disk stop files task ifVersion) {version : UInt64}
    {existing : Option Json}
    (found : nextVersion root disk files (taskFile root task.associatedDag task.name).resolve
      ifVersion = .value (version, existing)) :
    Prints root disk stop files task blobId ifVersion metadata ↔
      stop ≠ some .opened ∧ (taskDocument version task blobId
        (chosenMetadata metadata existing)).dumpable = true := by
  constructor
  · intro prints
    exact ⟨prints.2.1, prints.2.2 version existing found⟩
  · intro printed
    refine ⟨opens, printed.1, ?_⟩
    intro otherVersion otherExisting otherFound
    cases found.symm.trans otherFound
    exact printed.2

theorem leavesNothing_iff_of_unopened (unopened : ¬ Opens root disk stop files task ifVersion) :
    LeavesNothing root disk stop files task blobId ifVersion metadata ↔
      files.fileAt (taskDirectory root task.associatedDag).resolve = none ∧
        InPlace root files task.associatedDag task.name := by
  have unprinted : ¬ Prints root disk stop files task blobId ifVersion metadata :=
    fun prints => unopened prints.1
  have unreplaced : ¬ Replaces root disk stop files task blobId ifVersion metadata :=
    fun replaces => unprinted replaces.1
  constructor
  · intro leaves
    exact ⟨leaves.directory, leaves.own unreplaced, leaves.only fun _ => unopened⟩
  · rintro ⟨noFile, inPlace⟩
    exact ⟨noFile, fun opens => absurd opens unopened, fun _ => inPlace.own, fun _ => inPlace.only,
      fun replaces => absurd replaces unreplaced, fun _ prints => absurd prints unprinted,
      fun _ prints => absurd prints unprinted⟩

/-- The part of the condition that is about the temporary file. -/
def Unfinished (root : StoreRoot) (disk : DiskBehavior) (stop : Option Stop) (files : Files)
    (task : ShyguyTask) (blobId : Option Str) (ifVersion : Option UInt64)
    (metadata : Option TaskMetadata) : Prop :=
  Prints root disk stop files task blobId ifVersion metadata → stop ≠ some (.written none) ∧
    ((∀ flushed, stop ≠ some (.written flushed)) → ¬ Moves disk stop → disk.keeps ≠ none)

theorem unfinished_iff_of_written {flushed : Option Str}
    (prints : Prints root disk (some (.written flushed)) files task blobId ifVersion metadata) :
    Unfinished root disk (some (.written flushed)) files task blobId ifVersion metadata ↔
      flushed ≠ none := by
  constructor
  · intro unfinished isNone
    exact (unfinished prints).1 (by rw [isNone])
  · intro part _
    refine ⟨fun same => ?_, fun unwritten => absurd rfl (unwritten flushed)⟩
    cases same
    exact part rfl

theorem unfinished_iff_of_unmoved
    (prints : Prints root disk stop files task blobId ifVersion metadata)
    (unwritten : ∀ flushed, stop ≠ some (.written flushed)) (unmoved : ¬ Moves disk stop) :
    Unfinished root disk stop files task blobId ifVersion metadata ↔ disk.keeps ≠ none :=
  ⟨fun unfinished => (unfinished prints).2 unwritten unmoved,
    fun part _ => ⟨unwritten none, fun _ _ => part⟩⟩

theorem leavesNothing_iff_of_unreplaced {unread : Prop}
    (key : InStore root inStore task.associatedDag task.name)
    (opens : Opens root disk stop files task ifVersion)
    (unreplaced : ¬ Replaces root disk stop files task blobId ifVersion metadata)
    (unread_iff : unread ↔ Unfinished root disk stop files task blobId ifVersion metadata) :
    LeavesNothing root disk stop files task blobId ifVersion metadata ↔
      Inside root task.associatedDag task.name ∧ OwnFile root files task.associatedDag task.name ∧
          unread ∨
        ¬ Inside root task.associatedDag task.name ∧
          files.fileAt (taskDirectory root task.associatedDag).resolve = none ∧
          (taskFile root task.associatedDag task.name).temporary ≠
            (taskDirectory root task.associatedDag).resolve ∧
          InPlace root files task.associatedDag task.name := by
  rw [unread_iff]
  constructor
  · intro leaves
    by_cases inside : Inside root task.associatedDag task.name
    · exact .inl ⟨inside, leaves.own unreplaced,
        fun prints => ⟨leaves.written inside prints, leaves.closed inside prints⟩⟩
    · exact .inr ⟨inside, leaves.directory, leaves.apart opens, leaves.own unreplaced,
        leaves.only fun isInside => absurd isInside inside⟩
  · rintro (⟨inside, own, unfinished⟩ | ⟨outside, noFile, apart, inPlace⟩)
    · exact ⟨noFile_of_opens opens inside, fun _ => temporary_ne_directory key inside,
        fun _ => own, fun unopened => absurd opens (unopened inside),
        fun replaces => absurd replaces unreplaced, fun _ prints => (unfinished prints).1,
        fun _ prints => (unfinished prints).2⟩
    · exact ⟨noFile, fun _ => apart, fun _ => inPlace.own, fun _ => inPlace.only,
        fun replaces => absurd replaces unreplaced, fun inside => absurd inside outside,
        fun inside => absurd inside outside⟩

theorem leavesNothing_iff_of_replaced (key : InStore root inStore task.associatedDag task.name)
    (replaces : Replaces root disk stop files task blobId ifVersion metadata) :
    LeavesNothing root disk stop files task blobId ifVersion metadata ↔
      Inside root task.associatedDag task.name ∧ disk.keeps = none := by
  have ⟨prints, unwritten, moves⟩ := replaces
  constructor
  · intro leaves
    exact leaves.whole replaces
  · rintro ⟨inside, keeps⟩
    exact ⟨noFile_of_opens prints.1 inside, fun _ => temporary_ne_directory key inside,
      fun unreplaced => absurd replaces unreplaced,
      fun unopened => absurd prints.1 (unopened inside), fun _ => ⟨inside, keeps⟩,
      fun _ _ => unwritten none, fun _ _ _ unmoved => absurd moves unmoved⟩

/-- Over all stores that updates and erasures lead to, whether or not they were
finished: an update is atomic exactly when it leaves no complete document in its
temporary file, moves no incomplete one, and its task is alone in its place. -/
theorem history_atomic_iff (history : TaskHistory root inStore files)
    (nothingEmpty : root.parseBytes [] = none)
    (key : InStore root inStore task.associatedDag task.name)
    (result : interruptedUpsertTask root disk stop files task blobId ifVersion metadata =
      (after, answer)) :
    Atomic root files after task blobId ifVersion metadata answer ↔
      LeavesNothing root disk stop files task blobId ifVersion metadata := by
  have holds := history.holds nothingEmpty
  have dagNoNul := key.dagDescends.noNul
  have noNul := key.nameDescends.noNul
  have afterHolds := holds.interruptedUpsertTask nothingEmpty dagNoNul noNul result
  rcases interruptedUpsertTask_cases dagNoNul noNul result with
      ⟨refused, rfl, _⟩ | ⟨version, existing, document, found, isDocument, ends⟩
  · have unopened : ¬ Opens root disk stop after task ifVersion := by
      rintro ⟨⟨next, isNext⟩, _⟩
      exact refused next isNext
    rw [atomic_iff_of_unmoved afterHolds nothingEmpty key rfl,
      leavesNothing_iff_of_unopened unopened]
  by_cases opens : Opens root disk stop files task ifVersion
  · obtain ⟨passed, streamOpens, isOpenable⟩ := (opens_iff found).mp opens
    obtain ⟨entry, decoded, isTask⟩ := decodeTask_taskDocument_over version task blobId metadata
      (holds.existing_decodes nothingEmpty dagNoNul noNul key.parent found)
    rw [← isDocument] at decoded
    rw [isOpenable] at ends
    by_cases prints : Prints root disk stop files task blobId ifVersion metadata
    · obtain ⟨notOpened, printable⟩ := (prints_iff opens found).mp prints
      rw [← isDocument] at printable
      by_cases written : ∃ flushed, stop = some (.written flushed)
      · obtain ⟨flushed, rfl⟩ := written
        have unreplaced : ¬ Replaces root disk (some (.written flushed)) files task blobId ifVersion
            metadata := fun replaces => replaces.2.1 flushed rfl
        rw [progress_written streamOpens printable] at ends
        exact (atomic_iff_of_left holds afterHolds nothingEmpty key opens
          (onlyReads_partOf decoded isTask) ends).trans
          (leavesNothing_iff_of_unreplaced key opens unreplaced
            (unread_partOf_iff.trans (unfinished_iff_of_written prints).symm)).symm
      · have unwritten := not_exists.mp written
        by_cases moves : Moves disk stop
        · rw [progress_moved passed streamOpens notOpened printable unwritten moves] at ends
          rw [atomic_iff_of_moved afterHolds nothingEmpty key opens found isDocument printable
            decoded isTask ends]
          exact (leavesNothing_iff_of_replaced key ⟨prints, unwritten, moves⟩).symm
        · have unreplaced : ¬ Replaces root disk stop files task blobId ifVersion metadata :=
            fun replaces => moves replaces.2.2
          rw [progress_unmoved passed streamOpens notOpened printable unwritten moves,
            stored_eq_partOf] at ends
          exact (atomic_iff_of_left holds afterHolds nothingEmpty key opens
            (onlyReads_partOf decoded isTask) ends).trans
            (leavesNothing_iff_of_unreplaced key opens unreplaced
              (unread_partOf_iff.trans
                (unfinished_iff_of_unmoved prints unwritten moves).symm)).symm
    · have unreplaced : ¬ Replaces root disk stop files task blobId ifVersion metadata :=
        fun replaces => prints replaces.1
      have unprinted := mt (prints_iff opens found).mpr prints
      rw [← isDocument] at unprinted
      rw [progress_unprinted passed streamOpens unprinted] at ends
      have unread := unread_empty nothingEmpty
      exact (atomic_iff_of_left holds afterHolds nothingEmpty key opens
        (fun found readable => absurd readable (unread found)) ends).trans
        (leavesNothing_iff_of_unreplaced key opens unreplaced
          (iff_of_true unread fun isPrinted => absurd isPrinted prints)).symm
  · rw [progress_unopened (mt (opens_iff found).mpr opens)] at ends
    have fileAt := fileAt_of_unopened ends
    have sameOwn : after.node (taskFile root task.associatedDag task.name).resolve =
        files.node (taskFile root task.associatedDag task.name).resolve := by
      rw [ends.node, Progress.node, (locations_of_fileName root dagNoNul noNul).1]
      exact node_makeParents_child disk files _ _ _
    rw [atomic_iff_of_unmoved afterHolds nothingEmpty key sameOwn,
      leavesNothing_iff_of_unopened opens, fileAt,
      inPlace_congr (fileAt _) fun _ => fileAt _]

/-! ### Updates of one task -/

/-- The directories that the program keeps its tasks in. -/
def BelowTasks (location : Location) : Prop := (taskDir dataRoot).resolve <:+ location

theorem taskHistory_freshFiles : TaskHistory dataRoot BelowTasks freshFiles := by
  apply TaskHistory.start
  intro directory child below
  have only : ∀ other ∈ freshFiles.nodes.keys, (taskDir dataRoot).resolve <:+ other →
      other = (taskDir dataRoot).resolve := by
    decide +kernel
  apply FileSystem.fileAt_of_absent
  cases present : freshFiles.node (child :: directory) with
  | none => rfl
  | some node =>
      have member : child :: directory ∈ freshFiles.nodes :=
        FileSystem.mem_nodes_iff.mpr ⟨node, present⟩
      have shorter := below.length_le
      have same := only _ (AList.mem_keys.mp member) (below.trans (List.suffix_cons _ _))
      rw [← same, List.length_cons] at shorter
      omega

/-- An update in the stores of the program, without blob, version and metadata. -/
def updateCut (disk : DiskBehavior) (stop : Option Stop) (files : Files) (task : ShyguyTask) :
    Files × Option (Outcome UInt64) :=
  interruptedUpsertTask dataRoot disk stop files task none none none

def AtomicCut (disk : DiskBehavior) (stop : Option Stop) (files : Files) (task : ShyguyTask) :
    Prop :=
  Atomic dataRoot files (updateCut disk stop files task).1 task none none none
    (updateCut disk stop files task).2

def extractTask : ShyguyTask := bareTask (ascii "etl") (ascii "extract")

def teamTask : ShyguyTask := bareTask (ascii "team/etl") (ascii "extract")

def teamFiles : Files := (updateCut .reliable none freshFiles teamTask).1

/-- A second update that stops before its whole text is on the disk is atomic,
in a directory of a directory too. -/
theorem history_atomic_team :
    AtomicCut .reliable (some (.written (some []))) teamFiles teamTask := by
  have key : InStore dataRoot BelowTasks teamTask.associatedDag teamTask.name := by
    refine ⟨by decide, by decide, ?_, ?_⟩ <;> unfold BelowTasks <;> decide +kernel
  have history : TaskHistory dataRoot BelowTasks teamFiles :=
    .upsert taskHistory_freshFiles key.dagDescends key.nameDescends (Prod.eta _).symm
  have named : (getTask dataRoot .reliable teamFiles teamTask.associatedDag teamTask.name).map
      (fun entry => entry.value.name) = .value teamTask.name := by decide +kernel
  have inside : Inside dataRoot teamTask.associatedDag teamTask.name := by
    unfold Inside
    decide +kernel
  have opens : Opens dataRoot .reliable (some (.written (some []))) teamFiles teamTask none :=
    ⟨⟨(2, some (taskDocument 1 teamTask none none)), by with_unfolding_all rfl⟩, by decide, rfl,
      .inl (by decide +kernel), by decide +kernel⟩
  have result := (Prod.eta (updateCut .reliable (some (.written (some []))) teamFiles
    teamTask)).symm
  apply (history_atomic_iff history rfl key result).mpr
  constructor
  · decide +kernel
  · intro _
    decide +kernel
  · intro _ entry held
    rw [getTask_eq_value.mpr held] at named
    exact ⟨Outcome.value.inj named, inside⟩
  · intro unopened
    exact absurd opens (unopened inside)
  · intro replaces
    exact absurd rfl (replaces.2.1 _)
  · intro _ _
    decide
  · intro _ _ unwritten
    exact absurd rfl (unwritten _)

/-- What a reader of a task finds, and what a list shows of the task. -/
def shown (files : Files) (task : ShyguyTask) : Outcome TaskEntry × Option (List TaskEntry) :=
  (getTask dataRoot .reliable files task.associatedDag task.name,
    match listTasks dataRoot .reliable files task.associatedDag with
    | .value entries => some (entries.filter fun entry => entry.value.name = task.name)
    | _ => none)

theorem not_atomicCut_of_get {disk : DiskBehavior} {stop : Option Stop} {files : Files}
    {task : ShyguyTask}
    (notOld : (shown (updateCut disk stop files task).1 task).1 ≠ (shown files task).1)
    (notNew : (shown (updateCut disk stop files task).1 task).1 ≠
      (shown (updateCut .reliable none files task).1 task).1) :
    ¬ AtomicCut disk stop files task := by
  intro atomic
  rcases atomic.oldOrNew with old | new
  · exact notOld old
  · apply notNew
    have whole : updateCut .reliable none files task = _ := interruptedUpsertTask_none
    rw [whole]
    exact new

theorem not_atomicCut_of_list {disk : DiskBehavior} {stop : Option Stop} {files : Files}
    {task : ShyguyTask}
    (differ : (shown (updateCut disk stop files task).1 task).2 ≠
      some (visible (shown (updateCut disk stop files task).1 task).1)) :
    ¬ AtomicCut disk stop files task := by
  intro atomic
  obtain ⟨entries, listed, same⟩ := atomic.listed .reliable DiskBehavior.reliable_reliable
  apply differ
  rw [shown, listed]
  exact congrArg some same

/-- Closing a stream loses its text. -/
def lossyDisk : DiskBehavior := { DiskBehavior.reliable with keeps := some [] }

def unmovableDisk : DiskBehavior := { DiskBehavior.reliable with renames := false }

/-- Updates that are not atomic: a text that gets lost when the stream is closed
replaces the document; a process that stops before the rename, or a rename that
fails, leaves a temporary file that lists take for a document; and a name with
a separator or a NUL in it is no file of its DAG's directory. -/
theorem updates_not_atomic :
    ¬ AtomicCut lossyDisk none freshFiles extractTask ∧
    ¬ AtomicCut .reliable (some .closed) freshFiles extractTask ∧
    ¬ AtomicCut unmovableDisk none freshFiles extractTask ∧
    ¬ AtomicCut .reliable none freshFiles (bareTask (ascii "etl") (ascii "a/b")) ∧
    ¬ AtomicCut .reliable (some .opened)
      (updateCut .reliable none freshFiles (bareTask (ascii "etl") [97, 0])).1
      (bareTask (ascii "etl") [97, 0]) := by
  refine ⟨not_atomicCut_of_get ?_ ?_, not_atomicCut_of_list ?_, not_atomicCut_of_list ?_,
    not_atomicCut_of_list ?_, not_atomicCut_of_get ?_ ?_⟩
  all_goals decide +kernel

end Atomicity

end BabyLuigi.FsStorage
