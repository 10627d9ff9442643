import BabyLuigi.Storage.StoredDocumentsProperties
import BabyLuigi.Storage.TaskHistoryProperties

/-! The task store by what was last stored under each key, as its readers see it. -/

set_option autoImplicit false

namespace BabyLuigi.FsStorage

variable {root : StoreRoot} {disk : DiskBehavior} {files after : Files}
  {documents : StoreKey → Option Json}

theorem StoresDocuments.frame (stores : StoresDocuments root files documents)
    (same : ∀ location, ascii "metadata" :: root.path.resolve <:+ location →
      after.node location = files.node location) : StoresDocuments root after documents := by
  have below : ∀ key : StoreKey,
      ascii "metadata" :: root.path.resolve <:+ (key.directory root).resolve := by
    intro key
    cases key with
    | dag name =>
        rw [StoreKey.directory, resolve_dagDir]
        exact List.suffix_cons _ _
    | task dag name =>
        rw [StoreKey.directory, resolve_taskDir]
        exact List.suffix_cons _ _
  have belowParent := fun key : StoreKey =>
    (below key).trans (List.suffix_cons key.parent _)
  refine ⟨?_, ?_, ?_, ?_⟩
  · intro key
    exact (same _ (below key)).trans (stores.directory key)
  · intro key
    rw [FileSystem.fileAt, same _ (belowParent key), ← FileSystem.fileAt]
    exact stores.noFile key
  · intro key document held
    exact (same _ ((belowParent key).trans (List.suffix_cons _ _))).trans
      (stores.document key document held)
  · intro key child node present
    rw [same _ ((belowParent key).trans (List.suffix_cons _ _))] at present
    exact stores.only key child node present

theorem StoresDocuments.putBlob (stores : StoresDocuments root files documents) {bytes : Str}
    {outcome : Outcome Str} (result : putBlob root disk files bytes = (after, outcome)) :
    StoresDocuments root after documents :=
  stores.frame fun _ below => putBlob_aside result below

/-- An update that throws nothing has written a document over the one held. -/
theorem StoresDocuments.upsertAt_returned (stores : StoresDocuments root files documents)
    (reliable : disk.Reliable) {key : StoreKey} (plain : key.Plain)
    {make : UInt64 → Option Json → Json} {outcome : Outcome UInt64}
    (result : FsStorage.upsertAt root disk files (key.file root) none make = (after, outcome))
    (noFault : ∀ fault, outcome ≠ .exception fault) :
    ∃ version, StoresDocuments root after
      (Function.update documents key (some (make version (documents key)))) := by
  obtain ⟨version, found⟩ : ∃ version, FsStorage.nextVersion root disk files
      (key.file root).resolve none = .value (version, documents key) := by
    have next := stores.nextVersion reliable plain none
    cases held : documents key with
    | none =>
        rw [held] at next
        exact ⟨1, next⟩
    | some current =>
        simp only [held] at next
        cases versionFound : current.version with
        | error fault =>
            simp only [versionFound] at next
            simp only [FsStorage.upsertAt, next] at result
            exact absurd (Prod.mk.inj result).2.symm (noFault fault)
        | ok version =>
            simp only [versionFound] at next
            exact ⟨version + 1, next⟩
  have dumpable : (make version (documents key)).dumpable = true := by
    obtain ⟨inDirectory, targetFree, temporaryFree⟩ := stores.writable reliable plain
    obtain ⟨rfl, _⟩ := upsertAt_reliable reliable result noFault found
      (StoreKey.resolve_file plain) (StoreKey.temporary_file plain) inDirectory targetFree
      temporaryFree
    rcases upsertAt_cases result with ⟨failed, _⟩ | ⟨_, _, same, _, dumpable, _⟩
    · exact absurd rfl (failed version)
    · cases found.symm.trans same
      exact dumpable
  obtain ⟨written, success, stored⟩ := stores.upsertAt reliable plain found dumpable
  obtain ⟨rfl, _⟩ := Prod.mk.inj (success.symm.trans result)
  exact ⟨version, stored⟩

theorem StoresDocuments.eraseTask_returned (stores : StoresDocuments root files documents)
    (reliable : disk.Reliable) {dag name : Str} (plain : StoreKey.Plain (.task dag name))
    {outcome : Outcome Unit}
    (result : FsStorage.eraseTask root disk files dag name none = (after, outcome)) :
    StoresDocuments root after (Function.update documents (.task dag name) none) := by
  cases held : documents (.task dag name) with
  | some document =>
      have unchecked : FsStorage.checkVersion root disk files
          (StoreKey.location root (.task dag name)) none = .value () := rfl
      obtain ⟨less, success, stored⟩ := stores.eraseTask reliable plain held unchecked
      obtain ⟨rfl, _⟩ := Prod.mk.inj (success.symm.trans result)
      exact stored
  | none =>
      have isTarget : (taskFile root dag name).resolve = StoreKey.location root (.task dag name) :=
        StoreKey.resolve_file plain
      have absent := stores.isPresent (.task dag name)
      rw [held] at absent
      simp only [FsStorage.eraseTask, isTarget, reliable.examines, absent] at result
      cases result
      rwa [← held, Function.update_eq_self]

theorem StoresDocuments.eraseDag_returned (stores : StoresDocuments root files documents)
    (reliable : disk.Reliable) {name : Str} (plain : StoreKey.Plain (.dag name))
    {outcome : Outcome Unit}
    (result : FsStorage.eraseDag root disk files name none = (after, outcome)) :
    StoresDocuments root after (Function.update documents (.dag name) none) := by
  cases held : documents (.dag name) with
  | some document =>
      have unchecked : FsStorage.checkVersion root disk files
          (StoreKey.location root (.dag name)) none = .value () := rfl
      obtain ⟨less, success, stored⟩ := stores.eraseDag reliable plain held unchecked
      obtain ⟨rfl, _⟩ := Prod.mk.inj (success.symm.trans result)
      exact stored
  | none =>
      have isTarget : (dagFile root name).resolve = StoreKey.location root (.dag name) :=
        StoreKey.resolve_file plain
      have absent := stores.isPresent (.dag name)
      rw [held] at absent
      simp only [FsStorage.eraseDag, isTarget, reliable.examines, absent] at result
      cases result
      rwa [← held, Function.update_eq_self]

/-! ### What was last stored -/

/-- Each task is held in a document that is read as the task, and no other
document is in the task store. -/
structure StoresLast (root : StoreRoot) (files : Files) (last : Str × Str → Option ShyguyTask) :
    Prop where
  documents : ∃ documents, StoresDocuments root files documents ∧
    ∀ dag name, (documents (.task dag name)).map
        (fun document => (decodeTask document).toOption.map TaskEntry.value) =
      (last (dag, name)).map some

theorem decodeTask_of_last {last : Option ShyguyTask} {held : Option Json}
    (same : held.map (fun document => (decodeTask document).toOption.map TaskEntry.value) =
      last.map some) {document : Json} (present : held = some document) :
    ∃ entry, decodeTask document = .ok entry ∧ last = some entry.value := by
  rw [present] at same
  obtain ⟨task, isLast, decoded⟩ := Option.map_eq_some_iff.mp same.symm
  obtain ⟨entry, found, rfl⟩ := Option.map_eq_some_iff.mp decoded.symm
  exact ⟨entry, toOption_eq_some.mp found, isLast⟩

variable {last : Str × Str → Option ShyguyTask}

theorem StoresLast.getTask_absent (stores : StoresLast root files last) (reliable : disk.Reliable)
    {dag name : Str} (plain : StoreKey.Plain (.task dag name)) (absent : last (dag, name) = none) :
    getTask root disk files dag name = .error .notFound := by
  obtain ⟨documents, stored, lasts⟩ := stores
  have isTarget : (taskFile root dag name).resolve = StoreKey.location root (.task dag name) :=
    StoreKey.resolve_file plain
  have isLast := lasts dag name
  rw [absent] at isLast
  rw [getTask, isTarget, stored.readJson reliable, Option.map_eq_none_iff.mp isLast]

theorem StoresLast.getTask_stored (stores : StoresLast root files last) (reliable : disk.Reliable)
    {dag name : Str} (plain : StoreKey.Plain (.task dag name)) {task : ShyguyTask}
    (held : last (dag, name) = some task) :
    ∃ entry, getTask root disk files dag name = .value entry ∧ entry.value = task := by
  obtain ⟨documents, stored, lasts⟩ := stores
  have isTarget : (taskFile root dag name).resolve = StoreKey.location root (.task dag name) :=
    StoreKey.resolve_file plain
  have isLast := lasts dag name
  rw [held] at isLast
  obtain ⟨document, present, _⟩ := Option.map_eq_some_iff.mp isLast
  obtain ⟨entry, decoded, same⟩ := decodeTask_of_last (lasts dag name) present
  refine ⟨entry, ?_, Option.some.inj (same.symm.trans held)⟩
  have read := stored.readJson reliable (.task dag name)
  rw [present] at read
  simp only [getTask, isTarget, read, decoded]

theorem StoresLast.putBlob (stores : StoresLast root files last) {bytes : Str}
    {outcome : Outcome Str} (result : putBlob root disk files bytes = (after, outcome)) :
    StoresLast root after last := by
  obtain ⟨documents, stored, lasts⟩ := stores
  exact ⟨documents, stored.putBlob result, lasts⟩

theorem StoresLast.upsertDag (stores : StoresLast root files last) (reliable : disk.Reliable)
    {dag : ShyguyDag} (plain : PlainName dag.name) {outcome : Outcome UInt64}
    (result : upsertDag root disk files dag none = (after, outcome))
    (noFault : ∀ fault, outcome ≠ .exception fault) : StoresLast root after last := by
  obtain ⟨documents, stored, lasts⟩ := stores
  have plainKey : StoreKey.Plain (.dag dag.name) := plain
  obtain ⟨version, written⟩ := stored.upsertAt_returned reliable plainKey result noFault
  refine ⟨_, written, fun dagName name => ?_⟩
  rw [Function.update_of_ne (by simp)]
  exact lasts dagName name

theorem StoresLast.eraseDag (stores : StoresLast root files last) (reliable : disk.Reliable)
    {dag : Str} (plain : PlainName dag) {outcome : Outcome Unit}
    (result : eraseDag root disk files dag none = (after, outcome)) :
    StoresLast root after last := by
  obtain ⟨documents, stored, lasts⟩ := stores
  refine ⟨_, stored.eraseDag_returned reliable plain result, fun dagName name => ?_⟩
  rw [Function.update_of_ne (by simp)]
  exact lasts dagName name

/-- What a changed key holds is the only change. -/
theorem lasts_update {documents : StoreKey → Option Json} {dag name : Str} {entry : Option Json}
    {task : Option ShyguyTask}
    (lasts : ∀ dagName taskName, (documents (.task dagName taskName)).map
        (fun document => (decodeTask document).toOption.map TaskEntry.value) =
      (last (dagName, taskName)).map some)
    (changed : entry.map (fun document => (decodeTask document).toOption.map TaskEntry.value) =
      task.map some) (dagName taskName : Str) :
    (Function.update documents (.task dag name) entry (.task dagName taskName)).map
        (fun document => (decodeTask document).toOption.map TaskEntry.value) =
      (Function.update last (dag, name) task (dagName, taskName)).map some := by
  by_cases same : (dagName, taskName) = (dag, name)
  · obtain ⟨rfl, rfl⟩ := Prod.mk.inj same
    rwa [Function.update_self, Function.update_self]
  · have different : StoreKey.task dagName taskName ≠ .task dag name := by
      simpa using same
    rw [Function.update_of_ne same, Function.update_of_ne different]
    exact lasts dagName taskName

theorem StoresLast.upsertTask (stores : StoresLast root files last) (reliable : disk.Reliable)
    {task : ShyguyTask} (plain : StoreKey.Plain (.task task.associatedDag task.name))
    {blobId : Option Str} {metadata : Option TaskMetadata} {outcome : Outcome UInt64}
    (result : upsertTask root disk files task blobId none metadata = (after, outcome))
    (noFault : ∀ fault, outcome ≠ .exception fault) :
    StoresLast root after
      (Function.update last (task.associatedDag, task.name) (some task)) := by
  obtain ⟨documents, stored, lasts⟩ := stores
  obtain ⟨version, written⟩ := stored.upsertAt_returned reliable plain result noFault
  refine ⟨_, written, lasts_update lasts ?_⟩
  have decodes : ∀ document,
      documents (.task task.associatedDag task.name) = some document →
      ∃ entry, decodeTask document = .ok entry :=
    fun _ held => (decodeTask_of_last (lasts _ _) held).imp fun _ => And.left
  obtain ⟨entry, decoded, isTask⟩ := decodeTask_taskDocument_over version task blobId metadata decodes
  rw [Option.map_some, decoded, Except.toOption, Option.map_some, isTask]
  rfl

theorem StoresLast.eraseTask (stores : StoresLast root files last) (reliable : disk.Reliable)
    {dag name : Str} (plain : StoreKey.Plain (.task dag name)) {outcome : Outcome Unit}
    (result : eraseTask root disk files dag name none = (after, outcome)) :
    StoresLast root after (Function.update last (dag, name) none) := by
  obtain ⟨documents, stored, lasts⟩ := stores
  exact ⟨_, stored.eraseTask_returned reliable plain result, lasts_update lasts rfl⟩

end BabyLuigi.FsStorage
