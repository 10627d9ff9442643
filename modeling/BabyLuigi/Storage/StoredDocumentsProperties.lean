import BabyLuigi.Storage.KeyIsolationProperties
import BabyLuigi.Storage.StoredNamesProperties
import BabyLuigi.Support.VersionedMap

/-! The two stores as one map from keys to documents, and what the calls on
reliable disks do to this map. -/

set_option autoImplicit false

namespace BabyLuigi.FsStorage

open FileSystem (KeptOnWay)

variable {root : StoreRoot} {disk : DiskBehavior} {files after : Files}

namespace StoreKey

def fileName : StoreKey → Str
  | .dag _ => ascii "dag.json"
  | .task _ name => name ++ ascii ".json"

def parent : StoreKey → Str
  | .dag name => name
  | .task associatedDag _ => associatedDag

/-- Where the document of a key lies. -/
def location (root : StoreRoot) (key : StoreKey) : Location :=
  key.fileName :: key.parent :: (key.directory root).resolve

def temporary (root : StoreRoot) (key : StoreKey) : Location :=
  (key.fileName ++ ascii ".tmp") :: key.parent :: (key.directory root).resolve

theorem resolve_file {key : StoreKey} (plain : key.Plain) :
    (key.file root).resolve = key.location root := by
  cases key with
  | dag name => exact (dagFile_locations root plain).1
  | task dag name => exact (taskFile_locations root plain.1 plain.2).1

theorem temporary_file {key : StoreKey} (plain : key.Plain) :
    (key.file root).temporary = key.temporary root := by
  cases key with
  | dag name => exact (dagFile_locations root plain).2.1
  | task dag name => exact (taskFile_locations root plain.1 plain.2).2.1

theorem parentPath_file {key : StoreKey} (plain : key.Plain) :
    (key.file root).parentPath.resolve = key.parent :: (key.directory root).resolve := by
  cases key with
  | dag name => exact (dagFile_locations root plain).2.2
  | task dag name => exact (taskFile_locations root plain.1 plain.2).2.2

theorem location_injective {first second : StoreKey}
    (same : first.location root = second.location root) : first = second := by
  obtain ⟨sameFile, sameRest⟩ := List.cons.inj same
  obtain ⟨sameParent, sameDirectory⟩ := List.cons.inj sameRest
  cases first with
  | dag name =>
      cases second with
      | dag other => exact congrArg StoreKey.dag sameParent
      | task dag other => exact absurd sameDirectory (dagDir_ne_taskDir root)
  | task dag name =>
      cases second with
      | dag other => exact absurd sameDirectory.symm (dagDir_ne_taskDir root)
      | task otherDag other =>
          obtain rfl := List.append_cancel_right sameFile
          obtain rfl : dag = otherDag := sameParent
          rfl

theorem getLast?_fileName (key : StoreKey) : key.fileName.getLast? = some 110 := by
  cases key with
  | dag name => rfl
  | task dag name => simp [fileName, ascii, List.getLast?_append]

/-- No document has the name of a temporary file. -/
theorem location_ne_temporary (key other : StoreKey) :
    key.location root ≠ other.temporary root := by
  intro same
  have lastBytes := congrArg List.getLast? (List.cons.inj same).1
  rw [getLast?_fileName] at lastBytes
  simp [ascii, List.getLast?_append] at lastBytes

theorem directory_ne_location (key other : StoreKey) :
    (key.directory root).resolve ≠ other.location root := by
  intro same
  have depth := congrArg List.length same
  simp only [location, List.length_cons, length_directory] at depth
  omega

theorem parent_ne_location (key other : StoreKey) :
    key.parent :: (key.directory root).resolve ≠ other.location root := by
  intro same
  have depth := congrArg List.length same
  simp only [location, List.length_cons, length_directory] at depth
  omega

theorem directory_ne_parent (key other : StoreKey) :
    (key.directory root).resolve ≠ other.parent :: (other.directory root).resolve := by
  intro same
  have depth := congrArg List.length same
  simp only [List.length_cons, length_directory] at depth
  omega

theorem not_above_parent (key other : StoreKey) (child : Str) :
    ¬ child :: key.parent :: (key.directory root).resolve <:+
      other.parent :: (other.directory root).resolve := by
  intro above
  have shorter := above.length_le
  simp only [List.length_cons, length_directory] at shorter
  omega

end StoreKey

/-- The stores hold exactly these documents, each under its key. -/
structure StoresDocuments (root : StoreRoot) (files : Files) (documents : StoreKey → Option Json) :
    Prop where
  directory : ∀ key : StoreKey, files.node (key.directory root).resolve = some .directory
  noFile : ∀ key : StoreKey, files.fileAt (key.parent :: (key.directory root).resolve) = none
  document : ∀ key document, documents key = some document →
    files.node (key.location root) = some (.file (.json document))
  only : ∀ (key : StoreKey) child node,
    files.node (child :: key.parent :: (key.directory root).resolve) = some node →
    ∃ other document, documents other = some document ∧
      other.location root = child :: key.parent :: (key.directory root).resolve

theorem storesDocuments_construct (reliable : disk.Reliable) (start : EmptyRoot root files) :
    StoresDocuments root (construct root disk files) fun _ => none := by
  obtain ⟨dags, tasks⟩ := construct_stores reliable start
  refine ⟨?_, ?_, ?_, ?_⟩
  · intro key
    cases key with
    | dag name => exact dags.directory
    | task dag name => exact tasks.directory
  · intro key
    cases key with
    | dag name => exact dags.noFile name
    | task dag name => exact tasks.noFile dag
  · intro _ _ impossible
    cases impossible
  · intro key child node present
    cases key with
    | dag name => exact (dags.only name child node present).1.elim
    | task dag name =>
        obtain ⟨_, impossible, _⟩ := tasks.only dag child node present
        exact impossible.elim

variable {documents : StoreKey → Option Json}

theorem StoresDocuments.absent (stores : StoresDocuments root files documents) {key : StoreKey}
    (missing : documents key = none) : files.node (key.location root) = none := by
  cases present : files.node (key.location root) with
  | none => rfl
  | some node =>
      obtain ⟨other, document, held, same⟩ := stores.only key _ node present
      obtain rfl := StoreKey.location_injective same
      cases missing.symm.trans held

theorem StoresDocuments.noTemporary (stores : StoresDocuments root files documents)
    (key : StoreKey) : files.node (key.temporary root) = none := by
  cases present : files.node (key.temporary root) with
  | none => rfl
  | some node =>
      obtain ⟨other, _, _, same⟩ := stores.only key _ node present
      exact absurd same (other.location_ne_temporary key)

theorem StoresDocuments.isPresent (stores : StoresDocuments root files documents)
    (key : StoreKey) : files.isPresent (key.location root) = (documents key).isSome := by
  rw [FileSystem.isPresent]
  cases held : documents key with
  | none => rw [stores.absent held]; rfl
  | some document => rw [stores.document key document held]; rfl

theorem StoresDocuments.readJson (stores : StoresDocuments root files documents)
    (reliable : disk.Reliable) (key : StoreKey) :
    readJson root disk files (key.location root) =
      match documents key with
      | none => .error .notFound
      | some document => .ok document := by
  cases held : documents key with
  | none => simp [FsStorage.readJson, reliable.reads, stores.absent held]
  | some document => exact readJson_document reliable (stores.document key document held)

/-! ### Changing -/

/-- A change of one document that leaves the rest of the stores in place. -/
theorem StoresDocuments.change (stores : StoresDocuments root files documents) {key : StoreKey}
    {entry : Option Json}
    (changed : after.node (key.location root) = entry.map fun document => .file (.json document))
    (directories : ∀ other : StoreKey, after.node (other.directory root).resolve = some .directory)
    (parents : ∀ other : StoreKey,
      after.fileAt (other.parent :: (other.directory root).resolve) = none)
    (kept : ∀ (other : StoreKey) child,
      child :: other.parent :: (other.directory root).resolve ≠ key.location root →
      after.node (child :: other.parent :: (other.directory root).resolve) =
        files.node (child :: other.parent :: (other.directory root).resolve)) :
    StoresDocuments root after (Function.update documents key entry) where
  directory := directories
  noFile := parents
  document other document held := by
    by_cases same : other = key
    · subst other
      rw [Function.update_self] at held
      rw [changed, held]
      rfl
    · rw [Function.update_of_ne same] at held
      exact (kept other other.fileName (mt StoreKey.location_injective same)).trans
        (stores.document other document held)
  only other child node present := by
    by_cases same : child :: other.parent :: (other.directory root).resolve = key.location root
    · rw [same, changed] at present
      obtain ⟨document, held, _⟩ := Option.map_eq_some_iff.mp present
      exact ⟨key, document, (Function.update_self ..).trans held, same.symm⟩
    · rw [kept other child same] at present
      obtain ⟨owner, document, held, located⟩ := stores.only other child node present
      have different : owner ≠ key := by
        rintro rfl
        exact same located.symm
      exact ⟨owner, document, (Function.update_of_ne different ..).trans held, located⟩

theorem StoresDocuments.change_onWay (stores : StoresDocuments root files documents)
    {key : StoreKey} {entry : Option Json}
    (changed : after.node (key.location root) = entry.map fun document => .file (.json document))
    (kept : ∀ other, other ≠ key.location root →
      KeptOnWay files after (key.parent :: (key.directory root).resolve) other) :
    StoresDocuments root after (Function.update documents key entry) := by
  apply stores.change changed
  · intro other
    exact (kept _ (other.directory_ne_location key)).directory (stores.directory other)
  · intro other
    exact (kept _ (other.parent_ne_location key)).fileAt.trans (stores.noFile other)
  · intro other child different
    exact (kept _ different).node (other.not_above_parent key child)

theorem StoresDocuments.nextVersion (stores : StoresDocuments root files documents)
    (reliable : disk.Reliable) {key : StoreKey} (plain : key.Plain) (ifVersion : Option UInt64) :
    nextVersion root disk files (key.file root).resolve ifVersion =
      match documents key with
      | none =>
        if ifVersion.any fun expected => expected != 0 then .error .conflict else .value (1, none)
      | some current =>
        match current.version with
        | .error fault => .exception fault
        | .ok version =>
          if ifVersion.any fun expected => version != expected then .error .conflict
          else .value (version + 1, some current) := by
  rw [FsStorage.nextVersion, StoreKey.resolve_file plain, stores.isPresent key,
    stores.readJson reliable key, reliable.examines, Bool.not_true, if_neg Bool.false_ne_true]
  cases documents key with
  | none => rfl
  | some current => rfl

/-- Once the parents are made, nothing stands in the way of writing a document. -/
theorem StoresDocuments.writable (stores : StoresDocuments root files documents)
    (reliable : disk.Reliable) {key : StoreKey} (plain : key.Plain) :
    (makeParents disk files (key.file root)).node (key.parent :: (key.directory root).resolve) =
        some .directory ∧
      (makeParents disk files (key.file root)).node (key.location root) ≠ some .directory ∧
      (makeParents disk files (key.file root)).node (key.temporary root) ≠ some .directory := by
  have isParent : (key.file root).parentPath.resolve =
      key.parent :: (key.directory root).resolve := StoreKey.parentPath_file plain
  have aside := node_makeParents_grandchild disk files isParent
  have targetFree : files.node (key.location root) ≠ some .directory := by
    cases held : documents key with
    | none => rw [stores.absent held]; nofun
    | some document => rw [stores.document key document held]; nofun
  refine ⟨node_makeParents reliable.createsDirectories isParent (stores.directory key)
    (stores.noFile key), ?_, ?_⟩
  · intro directory
    exact targetFree ((aside key.fileName).symm.trans directory)
  · intro directory
    cases (stores.noTemporary key).symm.trans ((aside _).symm.trans directory)

theorem StoresDocuments.upsertAt (stores : StoresDocuments root files documents)
    (reliable : disk.Reliable) {key : StoreKey} (plain : key.Plain) {ifVersion : Option UInt64}
    {make : UInt64 → Option Json → Json} {version : UInt64} {existing : Option Json}
    (found : FsStorage.nextVersion root disk files (key.file root).resolve ifVersion =
      .value (version, existing))
    (dumpable : (make version existing).dumpable = true) :
    ∃ after, upsertAt root disk files (key.file root) ifVersion make = (after, .value version) ∧
      StoresDocuments root after
        (Function.update documents key (some (make version existing))) := by
  have isTarget : (key.file root).resolve = key.location root := StoreKey.resolve_file plain
  have isTemporary : (key.file root).temporary = key.temporary root :=
    StoreKey.temporary_file plain
  have isParent : (key.file root).parentPath.resolve =
      key.parent :: (key.directory root).resolve := StoreKey.parentPath_file plain
  obtain ⟨inDirectory, targetFree, temporaryFree⟩ := stores.writable reliable plain
  obtain ⟨after, success⟩ := writeJsonAtomic_reliable reliable isTarget isTemporary inDirectory
    targetFree temporaryFree dumpable
  have stored : disk.stored (make version existing) = .json (make version existing) := by
    simp only [DiskBehavior.stored, reliable.keeps]
  rcases writeJsonAtomic_cases success with ⟨failed, _⟩ | ⟨_, _, nodes⟩
  · exact absurd rfl failed
  rw [isTarget, isTemporary, stored] at nodes
  refine ⟨after, by simp only [FsStorage.upsertAt, found, writeVersion, success], ?_⟩
  apply stores.change_onWay
  · exact (nodes _).trans (if_pos rfl)
  · intro other different
    rw [KeptOnWay, nodes other, if_neg different]
    split
    · subst other
      exact .inl (stores.noTemporary key).symm
    · exact isParent ▸ keptOnWay_makeParents disk files (key.file root) other

theorem upsertAt_refused {path : FsPath} {ifVersion : Option UInt64}
    {make : UInt64 → Option Json → Json} {error : StorageError}
    (found : nextVersion root disk files path.resolve ifVersion = .error error) :
    upsertAt root disk files path ifVersion make = (files, .error error) := by
  simp only [upsertAt, found]

theorem StoresDocuments.checkVersion (stores : StoresDocuments root files documents)
    (reliable : disk.Reliable) {key : StoreKey} {document : Json} {version : UInt64}
    (held : documents key = some document) (versionFound : document.version = .ok version)
    (ifVersion : Option UInt64) :
    checkVersion root disk files (key.location root) ifVersion =
      if ifVersion.any fun expected => version != expected then .error .conflict
      else .value () := by
  cases ifVersion with
  | none => rfl
  | some expected =>
      simp only [FsStorage.checkVersion, stores.readJson reliable key, held, versionFound]
      rfl

theorem StoresDocuments.eraseTask (stores : StoresDocuments root files documents)
    (reliable : disk.Reliable) {dag name : Str} (plain : StoreKey.Plain (.task dag name))
    {document : Json} (held : documents (.task dag name) = some document)
    {ifVersion : Option UInt64}
    (checked : FsStorage.checkVersion root disk files (StoreKey.location root (.task dag name))
      ifVersion = .value ()) :
    ∃ after, eraseTask root disk files dag name ifVersion = (after, .value ()) ∧
      StoresDocuments root after (Function.update documents (.task dag name) none) := by
  have isTarget : (taskFile root dag name).resolve = StoreKey.location root (.task dag name) :=
    StoreKey.resolve_file plain
  have file := FileSystem.fileAt_eq_some.mpr (stores.document _ document held)
  obtain ⟨after, removed⟩ := FileSystem.exists_remove_file file
  have nodes := FileSystem.node_remove removed
  refine ⟨after, ?_, ?_⟩
  · rw [FsStorage.eraseTask, isTarget, reliable.examines, FileSystem.isPresent_of_fileAt file,
      checked, reliable.removesFile, if_pos rfl, removed]
    rfl
  · apply stores.change_onWay
    · exact (nodes _).trans (if_pos rfl)
    · exact fun other different => .inl ((nodes other).trans (if_neg different))

theorem StoresDocuments.eraseDag (stores : StoresDocuments root files documents)
    (reliable : disk.Reliable) {name : Str} (plain : StoreKey.Plain (.dag name))
    {document : Json} (held : documents (.dag name) = some document)
    {ifVersion : Option UInt64}
    (checked : FsStorage.checkVersion root disk files (StoreKey.location root (.dag name))
      ifVersion = .value ()) :
    ∃ after, eraseDag root disk files name ifVersion = (after, .value ()) ∧
      StoresDocuments root after (Function.update documents (.dag name) none) := by
  have isTarget : (dagFile root name).resolve = StoreKey.location root (.dag name) :=
    StoreKey.resolve_file plain
  have isDirectory : (dagDirectory root name).resolve = name :: (dagDir root).resolve :=
    resolve_dagDirectory root plain
  have file := FileSystem.fileAt_eq_some.mpr (stores.document _ document held)
  have succeeded : (FsStorage.eraseDag root disk files name ifVersion).2 = .value () := by
    rw [FsStorage.eraseDag, isTarget, reliable.examines, FileSystem.isPresent_of_fileAt file,
      checked]
    rfl
  obtain ⟨failed, _⟩ | ⟨_, _, _, removed, directory, kept⟩ :=
    eraseDag_cases (Prod.eta (FsStorage.eraseDag root disk files name ifVersion)).symm
  · exact absurd succeeded failed
  obtain ⟨less, lessRemoved⟩ := FileSystem.exists_remove_file file
  rw [isTarget, isDirectory] at kept removed
  rw [isDirectory] at directory
  refine ⟨_, Prod.ext rfl succeeded, ?_⟩
  apply stores.change
  · have gone := removed reliable.removesFile less lessRemoved _
      (StoreKey.parent_ne_location (.dag name) (.dag name)).symm
    exact gone.trans ((FileSystem.node_remove lessRemoved _).trans (if_pos rfl))
  · intro other
    exact (kept _ (other.directory_ne_location _) (other.directory_ne_parent (.dag name))).trans
      (stores.directory other)
  · intro other
    by_cases same : other.parent :: (other.directory root).resolve = name :: (dagDir root).resolve
    · rw [same, FileSystem.fileAt]
      rcases directory with none | unchanged
      · rw [none]
      · rw [unchanged]
        exact stores.noFile (.dag name)
    · rw [FileSystem.fileAt, kept _ (other.parent_ne_location _) same]
      exact stores.noFile other
  · intro other child different
    refine kept _ different ?_
    intro same
    apply other.not_above_parent (.dag name) child
    rw [same]
    exact List.suffix_rfl

/-! ### Listing -/

/-- A list of the entries that some names of a directory lead to. -/
theorem lists_filterMap {Entry : Type} {names : List Str} {entryAt : Str → Option Entry}
    {map : Str → Option Entry} (nodup : names.Nodup) (nameOf : Entry → Str)
    (named : ∀ name entry, entryAt name = some entry → nameOf entry = name)
    (exact : ∀ entry, (∃ name ∈ names, entryAt name = some entry) ↔
      ∃ name, map name = some entry) :
    Lists map (names.filterMap entryAt) where
  once := by
    refine List.Nodup.filterMap ?_ nodup
    intro first second entry fromFirst fromSecond
    exact (named first entry fromFirst).symm.trans (named second entry fromSecond)
  exact entry := List.mem_filterMap.trans (exact entry)

/-- A list has no name twice, because the name leads to the document. -/
theorem nodup_names {Entry : Type} {decode : Json → Except Fault Entry} {nameOf : Entry → Str}
    {documents : Str → Option Json} {entries : List Entry}
    (lists : Lists (fun name => (documents name).bind fun document =>
      (decode document).toOption) entries)
    (decodes : ∀ name document, documents name = some document →
      ∃ entry, decode document = .ok entry ∧ nameOf entry = name) :
    (entries.map nameOf).Nodup := by
  have named : ∀ name entry, ((documents name).bind fun document =>
      (decode document).toOption) = some entry → nameOf entry = name := by
    intro name entry found
    obtain ⟨document, held, decoded⟩ := Option.bind_eq_some_iff.mp found
    obtain ⟨known, knownDecoded, isNamed⟩ := decodes name document held
    cases (toOption_eq_some.mp decoded).symm.trans knownDecoded
    exact isNamed
  refine (List.nodup_map_iff_inj_on lists.once).mpr ?_
  intro first firstMember second secondMember same
  obtain ⟨firstName, firstFound⟩ := (lists.exact first).mp firstMember
  obtain ⟨secondName, secondFound⟩ := (lists.exact second).mp secondMember
  obtain rfl := named _ _ firstFound
  obtain rfl := named _ _ secondFound
  rw [same, secondFound] at firstFound
  exact (Option.some.inj firstFound).symm

theorem StoresDocuments.listDags (stores : StoresDocuments root files documents)
    (reliable : disk.Reliable) (decodable : ∀ name document,
      documents (.dag name) = some document →
        ∃ entry, decodeDag document = .ok entry ∧ entry.value.name = name) :
    ∃ entries, listDags root disk files = .value entries ∧
      Lists (fun name => (documents (.dag name)).bind fun document =>
        (decodeDag document).toOption) entries := by
  have found : ∀ name, FsStorage.readJson root disk files
      (ascii "dag.json" :: name :: (dagDir root).resolve) =
        match documents (.dag name) with
        | none => .error .notFound
        | some document => .ok document := fun name => stores.readJson reliable (.dag name)
  have owner : ∀ name document, FsStorage.readJson root disk files
      (ascii "dag.json" :: name :: (dagDir root).resolve) = .ok document →
        documents (.dag name) = some document := by
    intro name document result
    rw [found] at result
    split at result
    · cases result
    · cases result
      assumption
  obtain ⟨names, nodup, members, listed⟩ := listDags_eq reliable (stores.directory (.dag []))
    fun name document result => (decodable name document (owner name document result)).imp
      fun _ => And.left
  have entryAt : ∀ name, listedEntry decodeDag (FsStorage.readJson root disk files
        (ascii "dag.json" :: name :: (dagDir root).resolve)) =
      (documents (.dag name)).bind fun document => (decodeDag document).toOption := by
    intro name
    rw [found]
    cases documents (.dag name) <;> rfl
  refine ⟨_, listed, lists_filterMap nodup (fun entry => entry.value.name) ?_ ?_⟩
  · intro name entry isEntry
    obtain ⟨document, result, decoded⟩ := listedEntry_eq_some.mp isEntry
    obtain ⟨known, knownDecoded, named⟩ := decodable name document (owner name document result)
    cases decoded.symm.trans knownDecoded
    exact named
  · intro entry
    constructor
    · intro listed
      obtain ⟨name, _, isEntry⟩ := listed
      exact ⟨name, (entryAt name).symm.trans isEntry⟩
    · intro mapped
      obtain ⟨name, isEntry⟩ := mapped
      refine ⟨name, (members name).mpr ?_, (entryAt name).trans isEntry⟩
      obtain ⟨document, held, _⟩ := Option.bind_eq_some_iff.mp isEntry
      exact FileSystem.node_parent (stores.document _ document held)

theorem StoresDocuments.listTasks (stores : StoresDocuments root files documents)
    (reliable : disk.Reliable) {dag : Str} (plain : PlainName dag)
    (decodable : ∀ name document, documents (.task dag name) = some document →
      ∃ entry, decodeTask document = .ok entry ∧ entry.value.name = name) :
    ∃ entries, listTasks root disk files dag = .value entries ∧
      Lists (fun name => (documents (.task dag name)).bind fun document =>
        (decodeTask document).toOption) entries := by
  have owner : ∀ child document,
      FsStorage.readJson root disk files (child :: dag :: (taskDir root).resolve) =
        .ok document →
      ∃ name, documents (.task dag name) = some document ∧ child = name ++ ascii ".json" := by
    intro child document found
    obtain ⟨content, file, _⟩ := exists_file_of_readJson found
    obtain ⟨other, known, held, same⟩ :=
      stores.only (.task dag []) child _ (FileSystem.fileAt_eq_some.mp file)
    cases document_of_readJson reliable (same ▸ found) (stores.document other known held)
    obtain ⟨sameChild, sameRest⟩ := List.cons.inj same
    obtain ⟨sameParent, sameDirectory⟩ := List.cons.inj sameRest
    cases other with
    | dag name => exact absurd sameDirectory (dagDir_ne_taskDir root)
    | task otherDag name =>
        obtain rfl : otherDag = dag := sameParent
        exact ⟨name, held, sameChild.symm⟩
  have decodes : ∀ child document,
      FsStorage.readJson root disk files (child :: dag :: (taskDir root).resolve) =
        .ok document → ∃ entry, decodeTask document = .ok entry := by
    intro child document found
    obtain ⟨name, held, _⟩ := owner child document found
    exact (decodable name document held).imp fun _ => And.left
  obtain ⟨names, nodup, members, listed⟩ :=
    listTasks_eq reliable plain (stores.noFile (.task dag [])) decodes
  have entryAt : ∀ child entry, listedEntry decodeTask
        (FsStorage.readJson root disk files (child :: dag :: (taskDir root).resolve)) =
          some entry →
      ∃ name, child = name ++ ascii ".json" ∧ entry.value.name = name ∧
        ((documents (.task dag name)).bind fun document =>
          (decodeTask document).toOption) = some entry := by
    intro child entry isEntry
    obtain ⟨document, found, decoded⟩ := listedEntry_eq_some.mp isEntry
    obtain ⟨name, held, isChild⟩ := owner child document found
    obtain ⟨known, knownDecoded, named⟩ := decodable name document held
    cases decoded.symm.trans knownDecoded
    exact ⟨name, isChild, named, by rw [held]; exact toOption_eq_some.mpr decoded⟩
  refine ⟨_, listed, lists_filterMap nodup (fun entry => entry.value.name ++ ascii ".json") ?_ ?_⟩
  · intro child entry isEntry
    obtain ⟨name, isChild, named, _⟩ := entryAt child entry isEntry
    rw [named, isChild]
  · intro entry
    constructor
    · intro listed
      obtain ⟨child, _, isEntry⟩ := listed
      obtain ⟨name, _, _, mapped⟩ := entryAt child entry isEntry
      exact ⟨name, mapped⟩
    · intro mapped
      obtain ⟨name, isEntry⟩ := mapped
      obtain ⟨document, held, decoded⟩ := Option.bind_eq_some_iff.mp isEntry
      have node := stores.document _ document held
      refine ⟨name ++ ascii ".json", (members _).mpr ?_, ?_⟩
      · exact Option.isSome_iff_exists.mpr ⟨_, FileSystem.fileAt_eq_some.mpr node⟩
      · exact listedEntry_eq_some.mpr
          ⟨document, readJson_document reliable node, toOption_eq_some.mp decoded⟩

end BabyLuigi.FsStorage
