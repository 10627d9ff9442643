import BabyLuigi.Storage.FsStorageProperties
import BabyLuigi.Storage.JsonProperties

/-! Which names the two stores hold, as a set of names each, and what the calls
of the server on a reliable disk do to these sets. -/

set_option autoImplicit false

namespace BabyLuigi.FsStorage

open FileSystem (KeptOnWay)

variable {root : StoreRoot} {disk : DiskBehavior}

/-- The DAG store holds documents of exactly the given names, and nothing else. -/
structure StoresDags (root : StoreRoot) (files : Files) (stored : Str → Prop) : Prop where
  directory : files.node (dagDir root).resolve = some .directory
  noFile : ∀ name, files.fileAt (name :: (dagDir root).resolve) = none
  document : ∀ name, stored name → ∃ document entry,
    files.node (ascii "dag.json" :: name :: (dagDir root).resolve) =
      some (.file (.json document)) ∧
    decodeDag document = .ok entry ∧ entry.value.name = name
  only : ∀ name child node, files.node (child :: name :: (dagDir root).resolve) = some node →
    stored name ∧ child = ascii "dag.json"

/-- The task store holds documents of exactly the given DAGs and names, and
nothing else. -/
structure StoresTasks (root : StoreRoot) (files : Files) (stored : Str → Str → Prop) : Prop where
  directory : files.node (taskDir root).resolve = some .directory
  noFile : ∀ dag, files.fileAt (dag :: (taskDir root).resolve) = none
  document : ∀ dag name, stored dag name → ∃ document entry,
    files.node ((name ++ ascii ".json") :: dag :: (taskDir root).resolve) =
      some (.file (.json document)) ∧
    decodeTask document = .ok entry ∧ entry.value.name = name
  only : ∀ dag child node, files.node (child :: dag :: (taskDir root).resolve) = some node →
    ∃ name, stored dag name ∧ child = name ++ ascii ".json"

theorem StoresDags.congr {files : Files} {stored other : Str → Prop}
    (stores : StoresDags root files stored) (same : ∀ name, stored name ↔ other name) :
    StoresDags root files other :=
  (funext fun name => propext (same name) : stored = other) ▸ stores

theorem StoresTasks.congr {files : Files} {stored other : Str → Str → Prop}
    (stores : StoresTasks root files stored) (same : ∀ dag name, stored dag name ↔ other dag name) :
    StoresTasks root files other :=
  (funext₂ fun dag name => propext (same dag name) : stored = other) ▸ stores

theorem StoresDags.frame {files after : Files} {stored : Str → Prop}
    (stores : StoresDags root files stored)
    (same : ∀ location, (dagDir root).resolve <:+ location →
      after.node location = files.node location) : StoresDags root after stored where
  directory := (same _ List.suffix_rfl).trans stores.directory
  noFile name := by
    rw [FileSystem.fileAt, same _ (List.suffix_cons _ _), ← FileSystem.fileAt]
    exact stores.noFile name
  document name member := by
    rw [same _ ((List.suffix_cons _ _).trans (List.suffix_cons _ _))]
    exact stores.document name member
  only name child node present := by
    rw [same _ ((List.suffix_cons _ _).trans (List.suffix_cons _ _))] at present
    exact stores.only name child node present

theorem StoresTasks.frame {files after : Files} {stored : Str → Str → Prop}
    (stores : StoresTasks root files stored)
    (same : ∀ location, (taskDir root).resolve <:+ location →
      after.node location = files.node location) : StoresTasks root after stored where
  directory := (same _ List.suffix_rfl).trans stores.directory
  noFile dag := by
    rw [FileSystem.fileAt, same _ (List.suffix_cons _ _), ← FileSystem.fileAt]
    exact stores.noFile dag
  document dag name member := by
    rw [same _ ((List.suffix_cons _ _).trans (List.suffix_cons _ _))]
    exact stores.document dag name member
  only dag child node present := by
    rw [same _ ((List.suffix_cons _ _).trans (List.suffix_cons _ _))] at present
    exact stores.only dag child node present

/-! ### Listing -/

theorem readJson_document (reliable : disk.Reliable) {files : Files} {location : Location}
    {document : Json} (file : files.node location = some (.file (.json document))) :
    readJson root disk files location = .ok document := by
  simp [readJson, reliable.reads, file, readContent]

theorem document_of_readJson (reliable : disk.Reliable) {files : Files} {location : Location}
    {document known : Json} (result : readJson root disk files location = .ok document)
    (file : files.node location = some (.file (.json known))) : document = known :=
  Except.ok.inj (result.symm.trans (readJson_document reliable file))

/-- The entry that one document adds to a list. -/
def listedEntry {Entry : Type} (decode : Json → Except Fault Entry)
    (result : Except StorageError Json) : Option Entry :=
  result.toOption.bind fun document => (decode document).toOption

theorem listedEntry_eq_some {Entry : Type} {decode : Json → Except Fault Entry}
    {result : Except StorageError Json} {entry : Entry} :
    listedEntry decode result = some entry ↔
      ∃ document, result = .ok document ∧ decode document = .ok entry := by
  simp only [listedEntry, Option.bind_eq_some_iff, toOption_eq_some]

/-- A list holds what its readable documents are decoded to, in their order. -/
theorem collect_eq {Value Extras Entry : Type} (decodeValue : Json → Except Fault Value)
    (decodeExtras : Json → Except Fault Extras) (makeEntry : UInt64 → Value → Extras → Entry)
    {results : List (Except StorageError Json)}
    (decodable : ∀ document, .ok document ∈ results →
      ∃ entry, decodeEntry decodeValue decodeExtras makeEntry document = .ok entry) :
    collect decodeValue decodeExtras makeEntry results = .value
      (results.filterMap (listedEntry (decodeEntry decodeValue decodeExtras makeEntry))) := by
  induction results with
  | nil => rfl
  | cons result rest ih =>
      have collected := ih fun document member => decodable document (List.mem_cons_of_mem _ member)
      cases result with
      | error error => exact collected
      | ok document =>
          obtain ⟨entry, decoded⟩ := decodable document List.mem_cons_self
          obtain ⟨version, value, extras, versionFound, valueFound, extrasFound, rfl⟩ :=
            decodeEntry_eq_ok decoded
          simp only [collect, versionFound, valueFound, extrasFound, collected, Outcome.map_value]
          rw [List.filterMap_cons_some (listedEntry_eq_some.mpr ⟨document, rfl, decoded⟩)]

section Listing

variable {files : Files}

/-- A list of DAGs has one entry for each directory with a document. -/
theorem listDags_eq (reliable : disk.Reliable)
    (directory : files.node (dagDir root).resolve = some .directory)
    (decodable : ∀ name document,
      readJson root disk files (ascii "dag.json" :: name :: (dagDir root).resolve) =
        .ok document → ∃ entry, decodeDag document = .ok entry) :
    ∃ names : List Str, names.Nodup ∧
      (∀ name, name ∈ names ↔
        files.node (name :: (dagDir root).resolve) = some .directory) ∧
      listDags root disk files = .value (names.filterMap fun name => listedEntry decodeDag
        (readJson root disk files (ascii "dag.json" :: name :: (dagDir root).resolve))) := by
  have present : files.isPresent (dagDir root).resolve = true := by
    rw [FileSystem.isPresent, directory]
    rfl
  refine ⟨(disk.order (files.children (dagDir root).resolve)).filter fun name =>
    files.isDirectory (name :: (dagDir root).resolve), ?_, ?_, ?_⟩
  · exact ((disk.order_perm _).nodup_iff.mpr (files.nodup_children _)).filter _
  · intro name
    rw [List.mem_filter, (disk.order_perm _).mem_iff, FileSystem.mem_children,
      FileSystem.isDirectory_iff]
    exact and_iff_right_of_imp fun isDirectory => ⟨_, isDirectory⟩
  · simp only [listDags, reliable.examines, reliable.reads, present,
      FileSystem.isDirectory_iff.mpr directory]
    refine (collect_eq decodeDagValue (fun _ => .ok ()) dagEntry ?_).trans ?_
    · intro document member
      obtain ⟨name, _, result⟩ := List.mem_map.mp member
      exact decodable name document result
    · rw [List.filterMap_map]
      rfl

/-- A list of tasks has one entry for each document in the DAG's directory. -/
theorem listTasks_eq (reliable : disk.Reliable) {dag : Str} (plain : PlainName dag)
    (noFile : files.fileAt (dag :: (taskDir root).resolve) = none)
    (decodable : ∀ child document,
      readJson root disk files (child :: dag :: (taskDir root).resolve) = .ok document →
        ∃ entry, decodeTask document = .ok entry) :
    ∃ names : List Str, names.Nodup ∧
      (∀ child, child ∈ names ↔
        (files.fileAt (child :: dag :: (taskDir root).resolve)).isSome = true) ∧
      listTasks root disk files dag = .value (names.filterMap fun child =>
        listedEntry decodeTask
          (readJson root disk files (child :: dag :: (taskDir root).resolve))) := by
  have located := resolve_taskDirectory root plain
  cases inStore : files.node (dag :: (taskDir root).resolve) with
  | none =>
      refine ⟨[], .nil, ?_, ?_⟩
      · intro child
        rw [Option.isSome_iff_exists]
        refine ⟨fun member => absurd member List.not_mem_nil, ?_⟩
        intro found
        obtain ⟨content, file⟩ := found
        cases inStore.symm.trans (FileSystem.node_parent (FileSystem.fileAt_eq_some.mp file))
      · simp [listTasks, located, FileSystem.isPresent, inStore]
  | some node =>
      have directory : files.node (dag :: (taskDir root).resolve) = some .directory := by
        cases node with
        | directory => exact inStore
        | file content => cases noFile.symm.trans (FileSystem.fileAt_eq_some.mpr inStore)
      have present : files.isPresent (dag :: (taskDir root).resolve) = true := by
        rw [FileSystem.isPresent, directory]
        rfl
      refine ⟨(disk.order (files.children (dag :: (taskDir root).resolve))).filter fun child =>
        (files.fileAt (child :: dag :: (taskDir root).resolve)).isSome, ?_, ?_, ?_⟩
      · exact ((disk.order_perm _).nodup_iff.mpr (files.nodup_children _)).filter _
      · intro child
        rw [List.mem_filter, (disk.order_perm _).mem_iff, FileSystem.mem_children]
        refine and_iff_right_of_imp ?_
        intro isFile
        obtain ⟨content, file⟩ := Option.isSome_iff_exists.mp isFile
        exact ⟨_, FileSystem.fileAt_eq_some.mp file⟩
      · simp only [listTasks, located, reliable.examines, reliable.reads, present,
          FileSystem.isDirectory_iff.mpr directory]
        refine (collect_eq decodeTaskValue decodeTaskExtras taskEntry ?_).trans ?_
        · intro document member
          obtain ⟨child, _, result⟩ := List.mem_map.mp member
          exact decodable child document result
        · rw [List.filterMap_map]
          rfl

end Listing

theorem StoresDags.listDags (reliable : disk.Reliable) {files : Files} {stored : Str → Prop}
    (stores : StoresDags root files stored) :
    ∃ entries, listDags root disk files = .value entries ∧
      ∀ name, name ∈ entries.map (fun entry => entry.value.name) ↔ stored name := by
  have owner : ∀ name document,
      readJson root disk files (ascii "dag.json" :: name :: (dagDir root).resolve) = .ok document →
        stored name ∧ ∃ entry, decodeDag document = .ok entry ∧ entry.value.name = name := by
    intro name document result
    obtain ⟨content, file, _⟩ := exists_file_of_readJson result
    have held := (stores.only name _ _ (FileSystem.fileAt_eq_some.mp file)).1
    obtain ⟨known, entry, node, decoded, named⟩ := stores.document name held
    cases document_of_readJson reliable result node
    exact ⟨held, entry, decoded, named⟩
  obtain ⟨names, _, members, listed⟩ := listDags_eq reliable stores.directory
    fun name document result => (owner name document result).2.imp fun _ => And.left
  refine ⟨_, listed, ?_⟩
  intro name
  rw [List.mem_map]
  constructor
  · intro found
    obtain ⟨entry, member, rfl⟩ := found
    obtain ⟨name, _, isEntry⟩ := List.mem_filterMap.mp member
    obtain ⟨document, result, decoded⟩ := listedEntry_eq_some.mp isEntry
    obtain ⟨held, known, knownDecoded, named⟩ := owner name document result
    cases decoded.symm.trans knownDecoded
    rw [named]
    exact held
  · intro held
    obtain ⟨document, entry, node, decoded, named⟩ := stores.document name held
    refine ⟨entry, List.mem_filterMap.mpr ⟨name, ?_, ?_⟩, named⟩
    · exact (members name).mpr (FileSystem.node_parent node)
    · exact listedEntry_eq_some.mpr ⟨document, readJson_document reliable node, decoded⟩

theorem StoresTasks.listTasks (reliable : disk.Reliable) {files : Files}
    {stored : Str → Str → Prop} (stores : StoresTasks root files stored) {dag : Str}
    (plain : PlainName dag) :
    ∃ entries, listTasks root disk files dag = .value entries ∧
      ∀ name, name ∈ entries.map (fun entry => entry.value.name) ↔ stored dag name := by
  have owner : ∀ child document,
      readJson root disk files (child :: dag :: (taskDir root).resolve) = .ok document →
        ∃ entry, decodeTask document = .ok entry ∧ stored dag entry.value.name := by
    intro child document result
    obtain ⟨content, file, _⟩ := exists_file_of_readJson result
    obtain ⟨name, held, rfl⟩ := stores.only dag child _ (FileSystem.fileAt_eq_some.mp file)
    obtain ⟨known, entry, node, decoded, rfl⟩ := stores.document dag name held
    cases document_of_readJson reliable result node
    exact ⟨entry, decoded, held⟩
  obtain ⟨names, _, members, listed⟩ := listTasks_eq reliable plain (stores.noFile dag)
    fun child document result => (owner child document result).imp fun _ => And.left
  refine ⟨_, listed, ?_⟩
  intro name
  rw [List.mem_map]
  constructor
  · intro found
    obtain ⟨entry, member, rfl⟩ := found
    obtain ⟨child, _, isEntry⟩ := List.mem_filterMap.mp member
    obtain ⟨document, result, decoded⟩ := listedEntry_eq_some.mp isEntry
    obtain ⟨known, knownDecoded, held⟩ := owner child document result
    cases decoded.symm.trans knownDecoded
    exact held
  · intro held
    obtain ⟨document, entry, node, decoded, named⟩ := stores.document dag name held
    refine ⟨entry, List.mem_filterMap.mpr ⟨name ++ ascii ".json", ?_, ?_⟩, named⟩
    · exact (members _).mpr
        (Option.isSome_iff_exists.mpr ⟨_, FileSystem.fileAt_eq_some.mpr node⟩)
    · exact listedEntry_eq_some.mpr ⟨document, readJson_document reliable node, decoded⟩

/-! ### Changing -/

theorem eq_of_common {first second location : Location} (depth : first.length = second.length)
    (belowFirst : first <:+ location) (belowSecond : second <:+ location) : first = second :=
  (List.suffix_of_suffix_length_le belowFirst belowSecond depth.le).eq_of_length depth

theorem ne_grandchild (location : Location) (child name : Str) :
    location ≠ child :: name :: location := fun same => by
  have depth := congrArg List.length same
  simp only [List.length_cons] at depth
  omega

theorem taskDocument_inj {directory : Location} {name other dag otherDag : Str} :
    (name ++ ascii ".json") :: dag :: directory =
      (other ++ ascii ".json") :: otherDag :: directory ↔ dag = otherDag ∧ name = other := by
  simp [and_comm]

theorem length_dagDir_eq (root : StoreRoot) :
    (dagDir root).resolve.length = (taskDir root).resolve.length := by
  rw [resolve_dagDir, resolve_taskDir]
  rfl

theorem node_makeParents (creates : disk.createsDirectories = true) {files : Files} {path : FsPath}
    {name : Str} {directory : Location} (located : path.parentPath.resolve = name :: directory)
    (held : files.node directory = some .directory)
    (free : files.fileAt (name :: directory) = none) :
    (makeParents disk files path).node (name :: directory) = some .directory := by
  rw [makeParents, if_pos creates, located]
  exact FileSystem.node_createDirectories_cons
    ((FileSystem.keptOnWay_createDirectories _ _).directory held) free

theorem upsertAt_absent (reliable : disk.Reliable) {files after : Files} {path : FsPath}
    {document : UInt64 → Option Json → Json} {outcome : Outcome UInt64} {target name : Str}
    {directory : Location}
    (result : upsertAt root disk files path none document = (after, outcome))
    (noFault : ∀ fault, outcome ≠ .exception fault)
    (isTarget : path.resolve = target :: name :: directory)
    (isTemporary : path.temporary = (target ++ ascii ".tmp") :: name :: directory)
    (isParent : path.parentPath.resolve = name :: directory)
    (held : files.node directory = some .directory)
    (free : files.fileAt (name :: directory) = none)
    (targetAbsent : files.node (target :: name :: directory) = none)
    (temporaryAbsent : files.node ((target ++ ascii ".tmp") :: name :: directory) = none) :
    after.node (target :: name :: directory) = some (.file (.json (document 1 none))) ∧
    ∀ other, other ≠ target :: name :: directory → KeptOnWay files after (name :: directory) other := by
  have aside := node_makeParents_grandchild disk files isParent
  obtain ⟨_, nodes⟩ := upsertAt_reliable reliable result noFault
    (nextVersion_absent reliable (by rw [isTarget]; exact targetAbsent)) isTarget isTemporary
    (node_makeParents reliable.createsDirectories isParent held free)
    (by rw [aside, targetAbsent]; nofun)
    (by rw [aside, temporaryAbsent]; nofun)
  rw [isTarget, isTemporary] at nodes
  refine ⟨(nodes _).trans (if_pos rfl), ?_⟩
  intro other different
  rw [KeptOnWay, nodes other, if_neg different]
  split
  · subst other
    exact .inl temporaryAbsent.symm
  · exact isParent ▸ keptOnWay_makeParents disk files path other

theorem node_below_other {files after : Files} {target name : Str} {directory other : Location}
    (kept : ∀ location, location ≠ target :: name :: directory →
      KeptOnWay files after (name :: directory) location)
    (depth : directory.length = other.length) (different : directory ≠ other) (location : Location)
    (below : other <:+ location) : after.node location = files.node location := by
  have apart : ∀ names, ¬ location <:+ names ++ directory := fun names above =>
    different (eq_of_common depth (List.suffix_append names directory) (below.trans above))
  exact (kept location fun same => apart [target, name] (same ▸ List.suffix_rfl)).node
    (apart [name])

theorem StoresDags.upsertDag (reliable : disk.Reliable) {files after : Files}
    {stored : Str → Prop} (stores : StoresDags root files stored) {dag : ShyguyDag}
    {outcome : Outcome UInt64} (plain : PlainName dag.name) (absent : ¬ stored dag.name)
    (result : upsertDag root disk files dag none = (after, outcome))
    (noFault : ∀ fault, outcome ≠ .exception fault) :
    StoresDags root after (fun name => stored name ∨ name = dag.name) ∧
    ∀ location, (taskDir root).resolve <:+ location →
      after.node location = files.node location := by
  obtain ⟨isTarget, isTemporary, isParent⟩ := dagFile_locations root plain
  have missing : ∀ child, files.node (child :: dag.name :: (dagDir root).resolve) = none := by
    intro child
    cases present : files.node (child :: dag.name :: (dagDir root).resolve) with
    | none => rfl
    | some node => exact absurd (stores.only _ _ _ present).1 absent
  obtain ⟨written, kept⟩ := upsertAt_absent reliable result noFault isTarget isTemporary isParent
    stores.directory (stores.noFile dag.name) (missing _) (missing _)
  have keptChild : ∀ name child, name ≠ dag.name →
      after.node (child :: name :: (dagDir root).resolve) =
        files.node (child :: name :: (dagDir root).resolve) := by
    intro name child different
    refine (kept _ ?_).node (not_grandchild_above _ _ _ _)
    exact fun same => different (List.cons.inj (List.cons.inj same).2).1
  refine ⟨⟨?_, ?_, ?_, ?_⟩, node_below_other kept (length_dagDir_eq root) (dagDir_ne_taskDir root)⟩
  · exact (kept _ (ne_grandchild _ _ _)).directory stores.directory
  · intro name
    exact (kept _ (by simp)).fileAt.trans (stores.noFile name)
  · intro name held
    by_cases same : name = dag.name
    · subst name
      obtain ⟨entry, decoded, named⟩ := decodeDag_dagDocument 1 dag
      exact ⟨_, entry, written, decoded, by rw [named]⟩
    · obtain ⟨document, entry, node, decoded, named⟩ :=
        stores.document name (held.resolve_right same)
      exact ⟨document, entry, (keptChild name _ same).trans node, decoded, named⟩
  · intro name child node present
    by_cases same : name = dag.name
    · subst name
      by_cases isDocument : child = ascii "dag.json"
      · exact ⟨.inr rfl, isDocument⟩
      · rw [(kept _ (by simp [isDocument])).node (not_grandchild_above _ _ _ _), missing child]
          at present
        cases present
    · rw [keptChild name child same] at present
      exact (stores.only name child node present).imp_left .inl

theorem StoresDags.eraseDag (reliable : disk.Reliable) {files after : Files}
    {stored : Str → Prop} (stores : StoresDags root files stored) {name : Str}
    {outcome : Outcome Unit} (plain : PlainName name) (held : stored name)
    (result : eraseDag root disk files name none = (after, outcome)) :
    StoresDags root after (fun other => stored other ∧ other ≠ name) ∧
    ∀ location, (taskDir root).resolve <:+ location →
      after.node location = files.node location := by
  obtain ⟨isTarget, _, _⟩ := dagFile_locations root plain
  have isDirectory := resolve_dagDirectory root plain
  obtain ⟨document, _, node, _⟩ := stores.document name held
  have file : files.fileAt (dagFile root name).resolve = some (.json document) := by
    rw [isTarget]
    exact FileSystem.fileAt_eq_some.mpr node
  obtain ⟨erased, directory, kept⟩ := eraseDag_reliable reliable plain file result
  rw [isTarget] at erased
  rw [isDirectory] at directory
  rw [isTarget, isDirectory] at kept
  have keptChild : ∀ other child, other ≠ name ∨ child ≠ ascii "dag.json" →
      after.node (child :: other :: (dagDir root).resolve) =
        files.node (child :: other :: (dagDir root).resolve) := by
    intro other child different
    refine kept _ ?_ (by simp)
    intro same
    obtain ⟨sameChild, sameRest⟩ := List.cons.inj same
    exact different.elim (fun apart => apart (List.cons.inj sameRest).1)
      fun apart => apart sameChild
  have apart : ∀ names location, (taskDir root).resolve <:+ location →
      location ≠ names ++ (dagDir root).resolve := by
    intro names _ below equal
    subst equal
    exact dagDir_ne_taskDir root
      (eq_of_common (length_dagDir_eq root) (List.suffix_append _ _) below)
  refine ⟨⟨?_, ?_, ?_, ?_⟩, fun location below => kept location (apart [_, _] location below) (apart
      [_] location below)⟩
  · exact (kept _ (ne_grandchild _ _ _) (by simp)).trans stores.directory
  · intro other
    by_cases same : other = name
    · subst other
      rw [FileSystem.fileAt]
      rcases directory with none | same
      · rw [none]
      · rw [same]
        exact stores.noFile name
    · rw [FileSystem.fileAt, kept _ (by simp) (by simpa using same)]
      exact stores.noFile other
  · intro other member
    obtain ⟨document, entry, node, decoded, named⟩ := stores.document other member.1
    exact ⟨document, entry, (keptChild _ _ (.inl member.2)).trans node, decoded, named⟩
  · intro other child node present
    by_cases same : other = name
    · subst other
      by_cases isDocument : child = ascii "dag.json"
      · cases (isDocument ▸ erased).symm.trans present
      · rw [keptChild _ _ (.inr isDocument)] at present
        exact absurd (stores.only _ _ _ present).2 isDocument
    · rw [keptChild _ _ (.inl same)] at present
      obtain ⟨member, isDocument⟩ := stores.only _ _ _ present
      exact ⟨⟨member, same⟩, isDocument⟩

theorem StoresTasks.upsertTask (reliable : disk.Reliable) {files after : Files}
    {stored : Str → Str → Prop} (stores : StoresTasks root files stored) {task : ShyguyTask}
    {blobId : Option Str} {metadata : Option TaskMetadata} {outcome : Outcome UInt64}
    (dagPlain : PlainName task.associatedDag) (plain : PlainName task.name)
    (absent : ¬ stored task.associatedDag task.name)
    (result : upsertTask root disk files task blobId none metadata = (after, outcome))
    (noFault : ∀ fault, outcome ≠ .exception fault) :
    StoresTasks root after
      (fun dag name => stored dag name ∨ dag = task.associatedDag ∧ name = task.name) ∧
    ∀ location, (dagDir root).resolve <:+ location →
      after.node location = files.node location := by
  obtain ⟨isTarget, isTemporary, isParent⟩ := taskFile_locations root dagPlain plain
  have missing : files.node ((task.name ++ ascii ".json") :: task.associatedDag ::
      (taskDir root).resolve) = none := by
    cases present : files.node ((task.name ++ ascii ".json") :: task.associatedDag ::
        (taskDir root).resolve) with
    | none => rfl
    | some node =>
        obtain ⟨name, held, same⟩ := stores.only _ _ _ present
        exact absurd (List.append_cancel_right same ▸ held) absent
  have noTemporary : files.node ((task.name ++ ascii ".json" ++ ascii ".tmp") ::
      task.associatedDag :: (taskDir root).resolve) = none := by
    cases present : files.node ((task.name ++ ascii ".json" ++ ascii ".tmp") ::
        task.associatedDag :: (taskDir root).resolve) with
    | none => rfl
    | some node =>
        obtain ⟨name, _, same⟩ := stores.only _ _ _ present
        have lastBytes := congrArg List.getLast? same
        simp [ascii, List.getLast?_append] at lastBytes
  obtain ⟨written, kept⟩ := upsertAt_absent reliable result noFault isTarget isTemporary isParent
    stores.directory (stores.noFile _) missing noTemporary
  have keptChild : ∀ dag child,
      child :: dag :: (taskDir root).resolve ≠
        (task.name ++ ascii ".json") :: task.associatedDag :: (taskDir root).resolve →
      after.node (child :: dag :: (taskDir root).resolve) =
        files.node (child :: dag :: (taskDir root).resolve) := fun dag child different =>
    (kept _ different).node (not_grandchild_above _ _ _ _)
  refine ⟨⟨?_, ?_, ?_, ?_⟩, node_below_other kept (length_dagDir_eq root).symm (dagDir_ne_taskDir
      root).symm⟩
  · exact (kept _ (ne_grandchild _ _ _)).directory stores.directory
  · intro dag
    exact (kept _ (by simp)).fileAt.trans (stores.noFile dag)
  · intro dag name held
    by_cases same : dag = task.associatedDag ∧ name = task.name
    · obtain ⟨rfl, rfl⟩ := same
      obtain ⟨entry, decoded, named⟩ := decodeTask_taskDocument 1 task blobId metadata
      exact ⟨_, entry, written, decoded, by rw [named]⟩
    · obtain ⟨document, entry, node, decoded, named⟩ :=
        stores.document dag name (held.resolve_right same)
      have kept := keptChild dag (name ++ ascii ".json") (mt taskDocument_inj.mp same)
      exact ⟨document, entry, kept.trans node, decoded, named⟩
  · intro dag child node present
    by_cases same : child :: dag :: (taskDir root).resolve =
        (task.name ++ ascii ".json") :: task.associatedDag :: (taskDir root).resolve
    · obtain ⟨sameChild, sameRest⟩ := List.cons.inj same
      exact ⟨task.name, .inr ⟨(List.cons.inj sameRest).1, rfl⟩, sameChild⟩
    · rw [keptChild _ _ same] at present
      obtain ⟨name, held, isChild⟩ := stores.only _ _ _ present
      exact ⟨name, .inl held, isChild⟩

theorem StoresTasks.eraseTask (reliable : disk.Reliable) {files after : Files}
    {stored : Str → Str → Prop} (stores : StoresTasks root files stored) {dag name : Str}
    {outcome : Outcome Unit} (dagPlain : PlainName dag) (plain : PlainName name)
    (result : eraseTask root disk files dag name none = (after, outcome)) :
    StoresTasks root after
      (fun otherDag other => stored otherDag other ∧ ¬ (otherDag = dag ∧ other = name)) ∧
    ∀ location, (dagDir root).resolve <:+ location →
      after.node location = files.node location := by
  obtain ⟨isTarget, _, _⟩ := taskFile_locations root dagPlain plain
  have nodes := eraseTask_reliable reliable result (by
    rw [isTarget]
    intro directory
    obtain ⟨known, held, same⟩ := stores.only _ _ _ directory
    obtain ⟨document, _, file, _⟩ := stores.document _ _ held
    cases directory.symm.trans (same ▸ file))
  rw [isTarget] at nodes
  have apart : ∀ location, (dagDir root).resolve <:+ location →
      location ≠ (name ++ ascii ".json") :: dag :: (taskDir root).resolve := by
    intro _ below equal
    subst equal
    exact dagDir_ne_taskDir root (eq_of_common (length_dagDir_eq root) below
      (List.suffix_append [_, _] (taskDir root).resolve))
  refine ⟨⟨?_, ?_, ?_, ?_⟩, fun location below => (nodes location).trans (if_neg (apart location
      below))⟩
  · rw [nodes, if_neg (ne_grandchild _ _ _)]
    exact stores.directory
  · intro other
    rw [FileSystem.fileAt, nodes, if_neg (by simp)]
    exact stores.noFile other
  · intro otherDag other held
    obtain ⟨document, entry, node, decoded, named⟩ := stores.document otherDag other held.1
    refine ⟨document, entry, ?_, decoded, named⟩
    rw [nodes, if_neg (mt taskDocument_inj.mp held.2), node]
  · intro other child node present
    rw [nodes] at present
    split at present
    · cases present
    · rename_i different
      obtain ⟨known, held, rfl⟩ := stores.only _ _ _ present
      refine ⟨known, ⟨held, ?_⟩, rfl⟩
      intro found
      obtain ⟨rfl, rfl⟩ := found
      exact different rfl

/-! ### Blobs and the start -/

theorem resolve_blobsDir (root : StoreRoot) :
    (blobsDir root).resolve = ascii "blobs" :: root.path.resolve :=
  FsPath.resolve_append_plainName root.nulFree (by constructor <;> decide)

theorem nulFree_blobsDir (root : StoreRoot) : (blobsDir root).NulFree :=
  root.nulFree.append (by decide)

theorem le_hexDigit : ∀ value < 16, 48 ≤ hexDigit value := by decide

theorem plainName_blob (bytes : Str) : PlainName (fnv1aHex bytes ++ ascii ".bin") := by
  have digits : ∀ char ∈ fnv1aHex bytes, 48 ≤ char := by
    intro char member
    obtain ⟨position, _, rfl⟩ := List.mem_map.mp member
    exact le_hexDigit _ (Nat.mod_lt _ (by decide))
  exact FsPath.plainName_append (fun member => absurd (digits _ member) (by decide))
    (fun member => absurd (digits _ member) (by decide)) (by decide) (by decide) (by decide)

theorem putBlob_aside {files after : Files} {bytes : Str} {outcome : Outcome Str}
    (result : putBlob root disk files bytes = (after, outcome)) {location : Location}
    (below : ascii "metadata" :: root.path.resolve <:+ location) :
    after.node location = files.node location := by
  have blob : (blobFile root (fnv1aHex bytes)).resolve = _ :=
    FsPath.resolve_append_plainName (nulFree_blobsDir root) (plainName_blob bytes)
  apply putBlob_frame result
  intro same
  rw [blob, resolve_blobsDir] at same
  subst same
  have common : ascii "metadata" :: root.path.resolve = ascii "blobs" :: root.path.resolve :=
    eq_of_common rfl below (List.suffix_cons _ _)
  exact absurd (List.head_eq_of_cons_eq common) (by decide)

theorem StoresDags.putBlob {files after : Files} {stored : Str → Prop}
    (stores : StoresDags root files stored) {bytes : Str} {outcome : Outcome Str}
    (result : putBlob root disk files bytes = (after, outcome)) : StoresDags root after stored := by
  refine stores.frame fun location below => putBlob_aside result ?_
  rw [resolve_dagDir] at below
  exact (List.suffix_cons _ _).trans below

theorem StoresTasks.putBlob {files after : Files} {stored : Str → Str → Prop}
    (stores : StoresTasks root files stored) {bytes : Str} {outcome : Outcome Str}
    (result : putBlob root disk files bytes = (after, outcome)) :
    StoresTasks root after stored := by
  refine stores.frame fun location below => putBlob_aside result ?_
  rw [resolve_taskDir] at below
  exact (List.suffix_cons _ _).trans below

/-- Nothing is in the root directory, and no file is in the way of making it. -/
structure EmptyRoot (root : StoreRoot) (files : Files) : Prop where
  top : files.node [] = some .directory
  free : ∀ location, location <:+ root.path.resolve → files.fileAt location = none
  empty : ∀ name, files.node (name :: root.path.resolve) = none

theorem emptyRoot_empty (root : StoreRoot) : EmptyRoot root .empty := by
  have nodes : ∀ location : Location, (FileSystem.empty : Files).node location =
      if location = [] then some .directory else none := by
    intro location
    split
    · subst location
      exact AList.lookup_insert _
    · exact AList.lookup_insert_ne ‹_›
  refine ⟨nodes [], ?_, fun name => nodes _⟩
  intro location _
  rw [FileSystem.fileAt, nodes]
  split
  · rename_i file
    split at file <;> cases file
  · rfl

theorem EmptyRoot.node_below {files : Files} (empty : EmptyRoot root files) (name : Str)
    (names : List Str) : files.node (names ++ name :: root.path.resolve) = none := by
  induction names with
  | nil => exact empty.empty name
  | cons first rest ih =>
      cases present : files.node (first :: rest ++ name :: root.path.resolve) with
      | none => rfl
      | some node => cases ih.symm.trans (FileSystem.node_parent present)

theorem EmptyRoot.free_below {files : Files} (empty : EmptyRoot root files) {child name : Str}
    {location : Location} (above : location <:+ child :: name :: root.path.resolve) :
    files.fileAt location = none := by
  rcases List.suffix_cons_iff.mp above with rfl | above
  · exact FileSystem.fileAt_of_absent (empty.node_below name [child])
  · rcases List.suffix_cons_iff.mp above with rfl | above
    · exact FileSystem.fileAt_of_absent (empty.empty name)
    · exact empty.free location above

/-- The constructors make the two directories and put nothing into them. -/
theorem construct_stores (reliable : disk.Reliable) {files : Files} (empty : EmptyRoot root files) :
    StoresDags root (construct root disk files) (fun _ => False) ∧
    StoresTasks root (construct root disk files) fun _ _ => False := by
  rw [construct, if_pos reliable.createsDirectories]
  generalize madeBlobs : files.createDirectories (blobsDir root).resolve = blobs
  generalize madeDags : blobs.createDirectories (dagDir root).resolve = dags
  generalize madeTasks : dags.createDirectories (taskDir root).resolve = tasks
  have keptBlobs : ∀ location, KeptOnWay files blobs (blobsDir root).resolve location :=
    madeBlobs ▸ FileSystem.keptOnWay_createDirectories _
  have keptDags : ∀ location, KeptOnWay blobs dags (dagDir root).resolve location :=
    madeDags ▸ FileSystem.keptOnWay_createDirectories _
  have keptTasks : ∀ location, KeptOnWay dags tasks (taskDir root).resolve location :=
    madeTasks ▸ FileSystem.keptOnWay_createDirectories _
  have dagsDirectory : dags.node (dagDir root).resolve = some .directory := by
    rw [← madeDags]
    apply FileSystem.node_createDirectories ((keptBlobs _).directory empty.top)
    intro other above
    rw [resolve_dagDir] at above
    exact (keptBlobs other).fileAt.trans (empty.free_below above)
  have tasksDirectory : tasks.node (taskDir root).resolve = some .directory := by
    rw [← madeTasks]
    refine FileSystem.node_createDirectories ((keptDags _).directory ((keptBlobs _).directory
        empty.top)) ?_
    intro other above
    rw [resolve_taskDir] at above
    exact (keptDags other).fileAt.trans ((keptBlobs other).fileAt.trans (empty.free_below above))
  have nothing : ∀ names child name, tasks.node
      (names ++ child :: name :: ascii "metadata" :: root.path.resolve) = none := by
    intro names child name
    have deep : ∀ way : Location, way.length ≤ root.path.resolve.length + 2 →
        ¬ names ++ child :: name :: ascii "metadata" :: root.path.resolve <:+ way := by
      intro way short above
      have depth := above.length_le
      simp only [List.length_append, List.length_cons] at depth
      omega
    rw [(keptTasks _).node (deep _ (by rw [resolve_taskDir]; rfl)),
      (keptDags _).node (deep _ (by rw [resolve_dagDir]; rfl)),
      (keptBlobs _).node (deep _ (by rw [resolve_blobsDir]; simp))]
    have absent := empty.node_below (ascii "metadata") (names ++ [child, name])
    rwa [List.append_assoc] at absent
  refine ⟨⟨(keptTasks _).directory dagsDirectory, ?_, nofun, ?_⟩, ⟨tasksDirectory, ?_, nofun, ?_⟩⟩
  · intro name
    rw [resolve_dagDir]
    exact FileSystem.fileAt_of_absent (nothing [] name _)
  · intro name child node present
    rw [resolve_dagDir] at present
    cases (nothing [child] name _).symm.trans present
  · intro dag
    rw [resolve_taskDir]
    exact FileSystem.fileAt_of_absent (nothing [] dag _)
  · intro dag child node present
    rw [resolve_taskDir] at present
    cases (nothing [child] dag _).symm.trans present

end BabyLuigi.FsStorage
