import BabyLuigi.Storage.InterruptedWriteProperties
import BabyLuigi.Storage.ListedEntriesProperties
import BabyLuigi.Storage.StoreFaultProperties
import BabyLuigi.Storage.StoredDocumentsProperties

/-! The files that updates and erasures of tasks lead to, finished or not, and
what a list makes of them. -/

set_option autoImplicit false

namespace BabyLuigi.FsStorage

open FileSystem (KeptOnWay)

variable {root : StoreRoot} {disk : DiskBehavior} {inStore : Location → Prop}

/-! ### Where the files of tasks lie -/

def fileName (name : Str) : Str := (FsPath.pieces (name ++ ascii ".json")).getLast?.getD []

theorem locations_of_fileName (root : StoreRoot) {dag name : Str} (dagNoNul : nul ∉ dag)
    (noNul : nul ∉ name) :
    (taskFile root dag name).resolve = fileName name :: taskParent root dag name ∧
    (taskFile root dag name).temporary =
      (fileName name ++ ascii ".tmp") :: taskParent root dag name := by
  have document := isDocument_taskFile root dagNoNul noNul
  apply document.locations_of_last
  obtain ⟨_, front, stem, shape⟩ := document
  have isLast : (taskFile root dag name).getLast? = some (stem ++ ascii ".json") := by
    rw [shape, List.getLast?_concat]
  have samePieces := isLast.symm.trans (FsPath.getLast?_append_json (taskDirectory root dag) name)
  rw [isLast, fileName, ← samePieces, Option.getD_some]

/-- The location is that of the task's file or of its temporary file. -/
structure BelongsTo (root : StoreRoot) (location : Location) (task : ShyguyTask) : Prop where
  dagNoNul : nul ∉ task.associatedDag
  noNul : nul ∉ task.name
  isFile : location = (taskFile root task.associatedDag task.name).resolve ∨
    location = (taskFile root task.associatedDag task.name).temporary

theorem BelongsTo.child_or {child : Str} {directory : Location} {task : ShyguyTask}
    (belongs : BelongsTo root (child :: directory) task) :
    directory = taskParent root task.associatedDag task.name ∧
      (child = fileName task.name ∨ child = fileName task.name ++ ascii ".tmp") := by
  obtain ⟨dagNoNul, noNul, isFile⟩ := belongs
  obtain ⟨isTarget, isTemporary⟩ := locations_of_fileName root dagNoNul noNul
  rw [isTarget, isTemporary] at isFile
  rcases isFile with same | same
  · obtain ⟨rfl, rfl⟩ := List.cons.inj same
    exact ⟨rfl, .inl rfl⟩
  · obtain ⟨rfl, rfl⟩ := List.cons.inj same
    exact ⟨rfl, .inr rfl⟩

/-! ### Stores that updates lead to -/

/-- What the file of a task, or its temporary file, may hold. -/
def HoldsTask (root : StoreRoot) (location : Location) : FileContent → Prop
  | .json document => ∃ entry, decodeTask document = .ok entry ∧
      BelongsTo root location entry.value
  | .truncated _ => True
  | .bytes raw => raw = []

theorem holdsTask_stored {location : Location} {document : Json}
    (holds : HoldsTask root location (.json document)) :
    HoldsTask root location (disk.stored document) := by
  unfold DiskBehavior.stored
  split
  · exact holds
  · trivial

theorem holdsTask_progress (disk : DiskBehavior) {location : Location} {document : Json}
    (holds : HoldsTask root location (.json document))
    (stop : Option Stop) (openable : Bool) (content : FileContent)
    (reached : progress disk stop openable document = .left content ∨
      progress disk stop openable document = .moved content) :
    HoldsTask root location content := by
  unfold progress at reached
  split at reached
  · rcases reached with impossible | impossible <;> cases impossible
  split at reached
  · rcases reached with same | impossible
    · cases same
      rfl
    · cases impossible
  split at reached
  · rename_i flushed _ _
    rcases reached with same | impossible
    · cases same
      cases flushed with
      | none => exact holds
      | some text => trivial
    · cases impossible
  · split at reached
    · rcases reached with same | impossible
      · cases same
        exact holdsTask_stored holds
      · cases impossible
    · rcases reached with impossible | same
      · cases impossible
      · cases same
        exact holdsTask_stored holds

/-- The directories of the store hold files and temporary files of tasks, and
no other files. -/
def HoldsTasks (root : StoreRoot) (inStore : Location → Prop) (files : Files) : Prop :=
  ∀ directory child content, inStore directory →
    files.fileAt (child :: directory) = some content → HoldsTask root (child :: directory) content

theorem HoldsTasks.decodes {files : Files} (holds : HoldsTasks root inStore files)
    (nothingEmpty : root.parseBytes [] = none) {directory : Location} (known : inStore directory)
    {child : Str} {document : Json}
    (found : readJson root disk files (child :: directory) = .ok document) :
    ∃ entry, decodeTask document = .ok entry ∧
      BelongsTo root (child :: directory) entry.value := by
  obtain ⟨content, file, readable⟩ := exists_file_of_readJson found
  have holdsTask := holds directory child content known file
  cases content with
  | json document =>
      cases readable
      exact holdsTask
  | truncated text => cases readable
  | bytes raw =>
      obtain rfl : raw = [] := holdsTask
      simp [readContent, nothingEmpty] at readable

theorem HoldsTasks.belongs {files : Files} (holds : HoldsTasks root inStore files)
    (nothingEmpty : root.parseBytes [] = none) {directory : Location} (known : inStore directory)
    {child : Str} {entry : TaskEntry} (held : HoldsEntry root files (child :: directory) entry) :
    BelongsTo root (child :: directory) entry.value := by
  obtain ⟨document, found, decoded⟩ := held
  obtain ⟨other, otherDecoded, belongs⟩ := holds.decodes nothingEmpty known found
  cases decoded.symm.trans otherDecoded
  exact belongs

/-! ### Updates of such stores -/

/-- The version check reads the document that is there, if there is one. -/
theorem nextVersion_value {files : Files} {location : Location} {ifVersion : Option UInt64}
    {version : UInt64} {existing : Option Json}
    (found : nextVersion root disk files location ifVersion = .value (version, existing)) :
    nextVersion root .reliable files location ifVersion = .value (version, existing) ∧
    readJson root .reliable files location = existing.elim (.error .notFound) .ok := by
  unfold nextVersion at found ⊢
  split at found
  · cases found
  rw [show DiskBehavior.reliable.examines = true from rfl, Bool.not_true,
    if_neg Bool.false_ne_true]
  split at found
  · rename_i present
    split at found
    · cases found
    rename_i current currentFound
    rw [if_pos present, readJson_reliable currentFound]
    refine ⟨found, ?_⟩
    split at found
    · cases found
    split at found
    · cases found
    cases found
    rfl
  · rename_i absent
    rw [if_neg absent]
    refine ⟨found, ?_⟩
    split at found
    · cases found
    cases found
    have missing : files.node location = none := by
      simpa [FileSystem.isPresent] using absent
    rw [readJson, missing]
    rfl

/-- An update writes a document that can be read when the one it replaces can. -/
theorem decodeTask_taskDocument_over (version : UInt64) (task : ShyguyTask) (blobId : Option Str)
    (metadata : Option TaskMetadata) {existing : Option Json}
    (decodes : ∀ document, existing = some document →
      ∃ entry, decodeTask document = .ok entry) :
    ∃ entry, decodeTask (taskDocument version task blobId (chosenMetadata metadata existing)) =
      .ok entry ∧ entry.value = task := by
  cases metadata with
  | some given =>
      exact ⟨_, decodeTask_of_metadata version task blobId
        (Json.metadataFromJson_metadataToJson given), rfl⟩
  | none =>
      cases existing with
      | none => exact ⟨_, decodeTask_of_metadata version task blobId rfl, rfl⟩
      | some document =>
          obtain ⟨entry, decoded⟩ := decodes document rfl
          obtain ⟨_, _, extras, _, _, extrasFound, _⟩ := decodeEntry_eq_ok decoded
          exact ⟨_, decodeTask_of_metadata version task blobId
            (metadata_of_decodeTaskExtras extrasFound), rfl⟩

theorem nextVersion_notDirectory {files : Files} {location : Location} {ifVersion : Option UInt64}
    {next : UInt64 × Option Json}
    (found : nextVersion root disk files location ifVersion = .value next) :
    files.node location ≠ some .directory := by
  intro directory
  obtain ⟨version, existing⟩ := next
  have read := (nextVersion_value found).2
  have corrupt : readJson root .reliable files location = .error .corrupt := by
    rw [readJson, directory]
    rfl
  cases existing <;> cases read.symm.trans corrupt

section Update

variable {stop : Option Stop} {files after : Files} {task : ShyguyTask} {blobId : Option Str}
  {ifVersion : Option UInt64} {metadata : Option TaskMetadata} {answer : Option (Outcome UInt64)}

theorem isDirectory_makeParents (disk : DiskBehavior) (files : Files) (path : FsPath) :
    (makeParents disk files path).isDirectory path.parentPath.resolve = true ↔
      DirectoryThere disk files path.parentPath.resolve := by
  unfold makeParents DirectoryThere
  split
  · rename_i creates
    rw [FileSystem.isDirectory_createDirectories_iff, creates]
    simp
  · rename_i fails
    simp [fails]

theorem node_makeParents_child (disk : DiskBehavior) (files : Files) (dag name child : Str) :
    (makeParents disk files (taskFile root dag name)).node (child :: taskParent root dag name) =
      files.node (child :: taskParent root dag name) :=
  (keptOnWay_makeParents disk files (taskFile root dag name) _).node fun above =>
    absurd above.length_le (by simp [taskParent])

/-- Whether the temporary file of a task can be opened. -/
def openable (root : StoreRoot) (disk : DiskBehavior) (files : Files) (task : ShyguyTask) : Bool :=
  (makeParents disk files (taskFile root task.associatedDag task.name)).isDirectory
      (taskParent root task.associatedDag task.name) &&
    !files.isDirectory (taskFile root task.associatedDag task.name).temporary

/-- An update is refused and changes nothing, or it sets out to write a
document. -/
theorem interruptedUpsertTask_cases (dagNoNul : nul ∉ task.associatedDag) (noNul : nul ∉ task.name)
    (result : interruptedUpsertTask root disk stop files task blobId ifVersion metadata =
      (after, answer)) :
    ((∀ next, nextVersion root disk files (taskFile root task.associatedDag task.name).resolve
        ifVersion ≠ .value next) ∧
      after = files ∧ ∀ outcome, answer = some outcome → outcome.isValue = false) ∨
    ∃ version existing document,
      nextVersion root disk files (taskFile root task.associatedDag task.name).resolve ifVersion =
        .value (version, existing) ∧
      document = taskDocument version task blobId (chosenMetadata metadata existing) ∧
      (progress disk stop (openable root disk files task) document).Ends
        (makeParents disk files (taskFile root task.associatedDag task.name)) after
        (taskFile root task.associatedDag task.name).resolve
        (taskFile root task.associatedDag task.name).temporary answer := by
  obtain ⟨isTarget, isTemporary⟩ := locations_of_fileName root dagNoNul noNul
  unfold interruptedUpsertTask at result
  dsimp only at result
  split at result
  · rename_i refused
    cases result
    refine .inl ⟨?_, rfl, by rintro _ ⟨⟩; rfl⟩
    rw [refused]
    nofun
  · rename_i refused
    cases result
    refine .inl ⟨?_, rfl, by rintro _ ⟨⟩; rfl⟩
    rw [refused]
    nofun
  rename_i version existing found
  cases result
  refine .inr ⟨version, existing, _, found, rfl, ?_⟩
  have notDirectory := nextVersion_notDirectory found
  rw [isTarget] at notDirectory
  have targetFree : (makeParents disk files (taskFile root task.associatedDag task.name)).node
      (fileName task.name :: taskParent root task.associatedDag task.name) ≠ some .directory := by
    rw [node_makeParents_child]
    exact notDirectory
  have sameOpenable : openable root disk files task =
      ((makeParents disk files (taskFile root task.associatedDag task.name)).isDirectory
          (taskParent root task.associatedDag task.name) &&
        !(makeParents disk files (taskFile root task.associatedDag task.name)).isDirectory
          ((fileName task.name ++ ascii ".tmp") ::
            taskParent root task.associatedDag task.name)) := by
    rw [openable, isTemporary]
    congr 2
    rw [FileSystem.isDirectory, ← node_makeParents_child disk, ← FileSystem.isDirectory]
  rw [sameOpenable, isTarget, isTemporary]
  exact (interruptedWrite_ends (by rfl) isTarget isTemporary targetFree).map _

/-- A file after a write was there before, or the write put it into one of its
two places. -/
theorem Progress.Ends.file_cases {Value : Type} {progress : Progress} {made : Files}
    {target temporary other : Location} {answer : Option (Outcome Value)} {content : FileContent}
    (ends : progress.Ends made after target temporary answer)
    (file : after.fileAt other = some content) :
    made.fileAt other = some content ∨ (other = target ∨ other = temporary) ∧
      (progress = .left content ∨ progress = .moved content) := by
  rw [FileSystem.fileAt_eq_some, ends.node] at file
  rw [FileSystem.fileAt_eq_some]
  cases progress with
  | unopened => exact .inl file
  | left known =>
      rw [Progress.node] at file
      split at file
      · cases file
        exact .inr ⟨.inr ‹_›, .inl rfl⟩
      · exact .inl file
  | moved known =>
      rw [Progress.node] at file
      split at file
      · cases file
        exact .inr ⟨.inl ‹_›, .inr rfl⟩
      · split at file
        · cases file
        · exact .inl file

theorem holdsTask_taskDocument (dagNoNul : nul ∉ task.associatedDag) (noNul : nul ∉ task.name)
    (version : UInt64) {existing : Option Json} {location : Location}
    (isFile : location = (taskFile root task.associatedDag task.name).resolve ∨
      location = (taskFile root task.associatedDag task.name).temporary)
    (decodes : ∀ document, existing = some document →
      ∃ entry, decodeTask document = .ok entry) :
    HoldsTask root location
      (.json (taskDocument version task blobId (chosenMetadata metadata existing))) := by
  obtain ⟨entry, decoded, isTask⟩ :=
    decodeTask_taskDocument_over version task blobId metadata decodes
  exact ⟨entry, decoded, isTask ▸ ⟨dagNoNul, noNul, isFile⟩⟩

/-- The document that an update in the store replaces can be decoded. -/
theorem HoldsTasks.existing_decodes (holds : HoldsTasks root inStore files)
    (nothingEmpty : root.parseBytes [] = none) (dagNoNul : nul ∉ task.associatedDag)
    (noNul : nul ∉ task.name) (known : inStore (taskParent root task.associatedDag task.name))
    {version : UInt64} {existing : Option Json}
    (found : nextVersion root disk files (taskFile root task.associatedDag task.name).resolve
      ifVersion = .value (version, existing)) (document : Json)
    (isExisting : existing = some document) : ∃ entry, decodeTask document = .ok entry := by
  have read := (nextVersion_value found).2
  rw [(locations_of_fileName root dagNoNul noNul).1, isExisting] at read
  obtain ⟨entry, decoded, _⟩ := holds.decodes nothingEmpty known read
  exact ⟨entry, decoded⟩

theorem HoldsTasks.interruptedUpsertTask (holds : HoldsTasks root inStore files)
    (nothingEmpty : root.parseBytes [] = none) (dagNoNul : nul ∉ task.associatedDag)
    (noNul : nul ∉ task.name)
    (result : interruptedUpsertTask root disk stop files task blobId ifVersion metadata =
      (after, answer)) : HoldsTasks root inStore after := by
  obtain ⟨isTarget, isTemporary⟩ := locations_of_fileName root dagNoNul noNul
  rcases interruptedUpsertTask_cases dagNoNul noNul result with
      ⟨_, rfl, _⟩ | ⟨version, existing, document, found, rfl, ends⟩
  · exact holds
  intro directory child content known file
  rcases ends.file_cases file with old | ⟨isFile, reached⟩
  · rw [(keptOnWay_makeParents disk files _ _).fileAt] at old
    exact holds directory child content known old
  · have sameParent : directory = taskParent root task.associatedDag task.name := by
      rw [isTarget, isTemporary] at isFile
      exact isFile.elim (fun same => (List.cons.inj same).2) fun same => (List.cons.inj same).2
    exact holdsTask_progress disk (holdsTask_taskDocument dagNoNul noNul version isFile
      (holds.existing_decodes nothingEmpty dagNoNul noNul (sameParent ▸ known) found)) stop _ content reached

end Update

theorem HoldsTasks.eraseTask {files after : Files} {dag name : Str} {ifVersion : Option UInt64}
    {outcome : Outcome Unit} (holds : HoldsTasks root inStore files)
    (result : eraseTask root disk files dag name ifVersion = (after, outcome)) :
    HoldsTasks root inStore after := by
  rcases eraseTask_cases result with ⟨_, rfl⟩ | ⟨_, _, _, nodes⟩
  · exact holds
  intro directory child content known file
  rw [FileSystem.fileAt_eq_some, nodes] at file
  split at file
  · cases file
  · exact holds directory child content known (FileSystem.fileAt_eq_some.mpr file)

theorem TaskHistory.holds {files : Files} (history : TaskHistory root inStore files)
    (nothingEmpty : root.parseBytes [] = none) : HoldsTasks root inStore files := by
  induction history with
  | start nothing =>
      intro directory child content known file
      cases (nothing directory child known).symm.trans file
  | upsert _ dagDescends nameDescends result ih =>
      exact ih.interruptedUpsertTask nothingEmpty dagDescends.noNul nameDescends.noNul result
  | erase _ _ _ result ih => exact ih.eraseTask result
  | aside _ same ih =>
      intro directory child content known file
      exact ih directory child content known ((same directory child known).symm.trans file)

/-! ### What a list shows -/

/-- Lists without repetitions give the same entries when every name that has
one is in both. -/
theorem filterMap_perm {Name Entry : Type} {names others : List Name}
    {entryAt : Name → Option Entry} (nodup : names.Nodup) (othersNodup : others.Nodup)
    (inBoth : ∀ name entry, entryAt name = some entry → name ∈ names ∧ name ∈ others) :
    (names.filterMap entryAt).Perm (others.filterMap entryAt) := by
  have found : ∀ list : List Name, list.filterMap entryAt =
      (list.filter fun name => (entryAt name).isSome).filterMap entryAt := by
    intro list
    rw [List.filterMap_filter]
    apply List.filterMap_congr
    intro name _
    cases entryAt name <;> rfl
  rw [found names, found others]
  apply List.Perm.filterMap
  apply (List.perm_ext_iff_of_nodup (nodup.filter _) (othersNodup.filter _)).mpr
  intro name
  rw [List.mem_filter, List.mem_filter]
  apply and_congr_left
  intro isEntry
  obtain ⟨entry, entryFound⟩ := Option.isSome_iff_exists.mp isEntry
  obtain ⟨inNames, inOthers⟩ := inBoth name entry entryFound
  exact ⟨fun _ => inOthers, fun _ => inNames⟩

/-- The entry that one file of a directory adds to its list. -/
def entryOf (root : StoreRoot) (files : Files) (directory : Location) (child : Str) :
    Option TaskEntry :=
  listedEntry decodeTask (readJson root .reliable files (child :: directory))

theorem entryOf_eq_some {files : Files} {directory : Location} {child : Str} {entry : TaskEntry} :
    entryOf root files directory child = some entry ↔
      HoldsEntry root files (child :: directory) entry := listedEntry_eq_some

/-- The task's file lies in its DAG's directory and holds the task, if it holds
one; and no other file of the directory does. -/
structure InPlace (root : StoreRoot) (files : Files) (dag name : Str) : Prop where
  own : OwnFile root files dag name
  only : OnlyFile root files dag name

section Listing

variable {files : Files} {dag name : Str}

theorem exists_file_of_holdsEntry {location : Location} {entry : TaskEntry}
    (held : HoldsEntry root files location entry) :
    (files.fileAt location).isSome = true := by
  obtain ⟨document, found, _⟩ := held
  obtain ⟨content, file, _⟩ := exists_file_of_readJson found
  exact Option.isSome_iff_exists.mpr ⟨content, file⟩

/-- A list has the entries of the files of its directory. -/
theorem HoldsTasks.listTasks_iff (holds : HoldsTasks root inStore files)
    (nothingEmpty : root.parseBytes [] = none) (reliable : disk.Reliable)
    (known : inStore (taskDirectory root dag).resolve) :
    ∃ names : List Str, names.Nodup ∧
      (∀ child, (files.fileAt (child :: (taskDirectory root dag).resolve)).isSome = true →
        child ∈ names) ∧
      ∀ entries, listTasks root disk files dag = .value entries ↔
        files.fileAt (taskDirectory root dag).resolve = none ∧
        entries = names.filterMap (entryOf root files (taskDirectory root dag).resolve) := by
  refine ⟨(disk.order (files.children (taskDirectory root dag).resolve)).filter
    fun child => (files.fileAt (child :: (taskDirectory root dag).resolve)).isSome,
    nodup_listed _, fun child file => mem_listed_iff.mpr ⟨?_, file⟩, fun entries => ?_⟩
  · obtain ⟨content, file⟩ := Option.isSome_iff_exists.mp file
    exact ⟨_, FileSystem.fileAt_eq_some.mp file⟩
  · have sameRead : ∀ location,
        readJson root disk files location = readJson root .reliable files location := by
      intro location
      rw [readJson, readJson, reliable.reads]
      rfl
    refine (listTasks_eq_value_iff reliable).trans (and_congr_right fun _ => ?_)
    simp only [sameRead]
    refine and_iff_right ?_
    intro child document found
    obtain ⟨entry, decoded, _⟩ := holds.decodes nothingEmpty known found
    obtain ⟨version, value, extras, versionFound, valueFound, extrasFound, _⟩ :=
      decodeEntry_eq_ok decoded
    exact ⟨⟨version, versionFound⟩, fun _ _ => ⟨extras, extrasFound⟩⟩

theorem visible_getTask (dagNoNul : nul ∉ dag) (noNul : nul ∉ name) :
    visible (getTask root .reliable files dag name) =
      (entryOf root files (taskParent root dag name) (fileName name)).toList := by
  rw [getTask, entryOf, listedEntry, (locations_of_fileName root dagNoNul noNul).1]
  cases readJson root .reliable files (fileName name :: taskParent root dag name) with
  | error error => rfl
  | ok document =>
      dsimp only [Except.toOption, Option.bind_some]
      cases decodeTask document <;> rfl

/-- The entries of a list that have the name. -/
def entryNamed (root : StoreRoot) (files : Files) (dag name child : Str) : Option TaskEntry :=
  (entryOf root files (taskDirectory root dag).resolve child).filter
    fun entry => entry.value.name = name

theorem entryNamed_eq_some {child : Str} {entry : TaskEntry} :
    entryNamed root files dag name child = some entry ↔
      HoldsEntry root files (child :: (taskDirectory root dag).resolve) entry ∧
        entry.value.name = name := by
  rw [entryNamed, Option.filter_eq_some_iff, entryOf_eq_some, decide_eq_true_eq]

theorem filter_entryOf (names : List Str) :
    ((names.filterMap (entryOf root files (taskDirectory root dag).resolve)).filter
      fun entry => entry.value.name = name) = names.filterMap (entryNamed root files dag name) := by
  rw [List.filter_filterMap]
  rfl

theorem InPlace.shown (inPlace : InPlace root files dag name) (dagNoNul : nul ∉ dag)
    (noNul : nul ∉ name) {names : List Str} (nodup : names.Nodup)
    (members : ∀ child,
      (files.fileAt (child :: (taskDirectory root dag).resolve)).isSome = true → child ∈ names) :
    names.filterMap (entryNamed root files dag name) =
      visible (getTask root .reliable files dag name) := by
  obtain ⟨isTarget, _⟩ := locations_of_fileName root dagNoNul noNul
  rw [visible_getTask dagNoNul noNul]
  have ofTask : ∀ child entry, entryNamed root files dag name child = some entry →
      child = fileName name ∧ taskParent root dag name = (taskDirectory root dag).resolve := by
    intro child entry found
    obtain ⟨held, named⟩ := entryNamed_eq_some.mp found
    have sameFile := (inPlace.only child entry held named).trans isTarget
    exact ⟨(List.cons.inj sameFile).1, (List.cons.inj sameFile).2.symm⟩
  cases found : entryOf root files (taskParent root dag name) (fileName name) with
  | none =>
      apply List.filterMap_eq_nil_iff.mpr
      intro child _
      cases shown : entryNamed root files dag name child with
      | none => rfl
      | some entry =>
          obtain ⟨rfl, sameParent⟩ := ofTask child entry shown
          have held := (entryNamed_eq_some.mp shown).1
          rw [← sameParent, ← entryOf_eq_some, found] at held
          cases held
  | some entry =>
      have held := entryOf_eq_some.mp found
      obtain ⟨named, sameParent⟩ := inPlace.own entry (isTarget ▸ held)
      have shown : entryNamed root files dag name (fileName name) = some entry :=
        entryNamed_eq_some.mpr ⟨sameParent ▸ held, named⟩
      have same : (names.filterMap (entryNamed root files dag name)).Perm
          ([fileName name].filterMap (entryNamed root files dag name)) := by
        apply filterMap_perm nodup (List.nodup_singleton _)
        intro child other otherShown
        exact ⟨members child (exists_file_of_holdsEntry (entryNamed_eq_some.mp otherShown).1),
          List.mem_singleton.mpr (ofTask child other otherShown).1⟩
      rw [List.filterMap_cons, shown, List.filterMap_nil] at same
      exact List.perm_singleton.mp same

theorem HoldsTasks.inPlace (holds : HoldsTasks root inStore files)
    (nothingEmpty : root.parseBytes [] = none) (key : InStore root inStore dag name)
    {names : List Str} (members : ∀ child,
      (files.fileAt (child :: (taskDirectory root dag).resolve)).isSome = true → child ∈ names)
    (shown : names.filterMap (entryNamed root files dag name) =
      visible (getTask root .reliable files dag name)) : InPlace root files dag name := by
  obtain ⟨isTarget, _⟩ := locations_of_fileName root key.dagDescends.noNul key.nameDescends.noNul
  rw [visible_getTask key.dagDescends.noNul key.nameDescends.noNul] at shown
  have own : OwnFile root files dag name := by
    intro entry held
    rw [isTarget] at held
    rw [entryOf_eq_some.mpr held, Option.toList_some] at shown
    have member : entry ∈ names.filterMap (entryNamed root files dag name) := by simp [shown]
    obtain ⟨child, _, found⟩ := List.mem_filterMap.mp member
    obtain ⟨heldInDirectory, named⟩ := entryNamed_eq_some.mp found
    have sameParent := (holds.belongs nothingEmpty key.parent held).child_or.1
    have sameDirectory := (holds.belongs nothingEmpty key.directory heldInDirectory).child_or.1
    exact ⟨named, sameParent.trans sameDirectory.symm⟩
  refine ⟨own, ?_⟩
  intro child entry held named
  have found := entryNamed_eq_some.mpr ⟨held, named⟩
  have member := List.mem_filterMap.mpr ⟨child, members child (exists_file_of_holdsEntry held), found⟩
  rw [shown, Option.mem_toList] at member
  have heldOwn := entryOf_eq_some.mp member
  obtain ⟨_, inside⟩ := own entry (isTarget ▸ heldOwn)
  have sameParent : taskParent root dag name = (taskDirectory root dag).resolve := inside
  rw [isTarget, sameParent]
  -- Otherwise the list has the task twice.
  have foundOwn : entryNamed root files dag name (fileName name) = some entry :=
    entryNamed_eq_some.mpr ⟨sameParent ▸ heldOwn, named⟩
  have once : (names.filter fun child => (entryNamed root files dag name child).isSome).length = 1 := by
    rw [← List.countP_eq_length_filter, ← List.length_filterMap_eq_countP, shown, member]
    rfl
  obtain ⟨single, isSingle⟩ := List.length_eq_one_iff.mp once
  have isOnly : ∀ other, entryNamed root files dag name other = some entry → other = single := by
    intro other otherFound
    rw [← List.mem_singleton, ← isSingle, List.mem_filter]
    exact ⟨members other (exists_file_of_holdsEntry (entryNamed_eq_some.mp otherFound).1),
      by rw [otherFound]; rfl⟩
  rw [isOnly child found, isOnly _ foundOwn]

/-- A list agrees with `get_task` on a task exactly when it returns and the task
is in its place. -/
theorem HoldsTasks.listed_iff (holds : HoldsTasks root inStore files)
    (nothingEmpty : root.parseBytes [] = none) (key : InStore root inStore dag name) :
    (∀ listDisk : DiskBehavior, listDisk.Reliable → ∃ entries,
      FsStorage.listTasks root listDisk files dag = .value entries ∧
      (entries.filter fun entry => entry.value.name = name) =
        visible (getTask root .reliable files dag name)) ↔
    files.fileAt (taskDirectory root dag).resolve = none ∧ InPlace root files dag name := by
  constructor
  · intro agrees
    obtain ⟨entries, listed, same⟩ := agrees .reliable DiskBehavior.reliable_reliable
    obtain ⟨names, _, members, value_iff⟩ :=
      holds.listTasks_iff nothingEmpty DiskBehavior.reliable_reliable key.directory
    obtain ⟨noFile, rfl⟩ := (value_iff entries).mp listed
    rw [filter_entryOf] at same
    exact ⟨noFile, holds.inPlace nothingEmpty key members same⟩
  · rintro ⟨noFile, inPlace⟩ listDisk reliable
    obtain ⟨names, nodup, members, value_iff⟩ := holds.listTasks_iff nothingEmpty reliable key.directory
    refine ⟨_, (value_iff _).mpr ⟨noFile, rfl⟩, ?_⟩
    rw [filter_entryOf]
    exact inPlace.shown key.dagDescends.noNul key.nameDescends.noNul nodup members

end Listing

end BabyLuigi.FsStorage
