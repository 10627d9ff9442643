import BabyLuigi.Storage.StoredNamesProperties

/-! What the list functions return on any tree: which documents make a list
throw, and the entries of a list that returns. -/

set_option autoImplicit false

namespace BabyLuigi.FsStorage

variable {root : StoreRoot} {disk : DiskBehavior}

section Collecting

variable {Value Extras Entry : Type} {decodeValue : Json → Except Fault Value}
  {decodeExtras : Json → Except Fault Extras} {makeEntry : UInt64 → Value → Extras → Entry}

/-- Nothing outside of the `try` throws on the document. -/
structure Listable (decodeValue : Json → Except Fault Value)
    (decodeExtras : Json → Except Fault Extras) (document : Json) : Prop where
  version : ∃ version, document.version = .ok version
  extras : ∀ value, decodeValue document = .ok value →
    ∃ extras, decodeExtras document = .ok extras

theorem listedEntry_of_undecodable {document : Json} {fault : Fault}
    (undecodable : decodeValue document = .error fault) :
    listedEntry (decodeEntry decodeValue decodeExtras makeEntry) (.ok document) = none := by
  rw [Option.eq_none_iff_forall_not_mem]
  intro entry found
  obtain ⟨same, isDocument, decoded⟩ := listedEntry_eq_some.mp found
  cases isDocument
  obtain ⟨_, value, _, _, valueFound, _⟩ := decodeEntry_eq_ok decoded
  cases undecodable.symm.trans valueFound

theorem collect_of_listable {results : List (Except StorageError Json)}
    (listable : ∀ document, .ok document ∈ results → Listable decodeValue decodeExtras document) :
    collect decodeValue decodeExtras makeEntry results = .value
      (results.filterMap (listedEntry (decodeEntry decodeValue decodeExtras makeEntry))) := by
  induction results with
  | nil => rfl
  | cons result rest ih =>
      have collected := ih fun document member => listable document (List.mem_cons_of_mem _ member)
      cases result with
      | error error => exact collected
      | ok document =>
          obtain ⟨⟨version, versionFound⟩, readable⟩ := listable document List.mem_cons_self
          cases valueFound : decodeValue document with
          | error fault =>
              simp only [collect, versionFound, valueFound, collected]
              rw [List.filterMap_cons_none (listedEntry_of_undecodable valueFound)]
          | ok value =>
              obtain ⟨extras, extrasFound⟩ := readable value valueFound
              have decoded : decodeEntry decodeValue decodeExtras makeEntry document =
                  .ok (makeEntry version value extras) := by
                rw [decodeEntry, bind_of_ok versionFound, bind_of_ok valueFound,
                  bind_of_ok extrasFound]
                rfl
              simp only [collect, versionFound, valueFound, extrasFound, collected,
                Outcome.map_value]
              rw [List.filterMap_cons_some (listedEntry_eq_some.mpr ⟨document, rfl, decoded⟩)]

theorem listable_of_collect {results : List (Except StorageError Json)} {entries : List Entry}
    (collected : collect decodeValue decodeExtras makeEntry results = .value entries) :
    ∀ document, .ok document ∈ results → Listable decodeValue decodeExtras document := by
  induction results generalizing entries with
  | nil => simp
  | cons result rest ih =>
      cases result with
      | error error =>
          intro document member
          rcases List.mem_cons.mp member with impossible | later
          · cases impossible
          · exact ih collected document later
      | ok first =>
          simp only [collect] at collected
          cases versionFound : first.version with
          | error fault => simp [versionFound] at collected
          | ok version =>
              simp only [versionFound] at collected
              intro document member
              cases valueFound : decodeValue first with
              | error fault =>
                  simp only [valueFound] at collected
                  rcases List.mem_cons.mp member with same | later
                  · cases same
                    exact ⟨⟨version, versionFound⟩, by simp [valueFound]⟩
                  · exact ih collected document later
              | ok value =>
                  simp only [valueFound] at collected
                  cases extrasFound : decodeExtras first with
                  | error fault => simp [extrasFound] at collected
                  | ok extras =>
                      simp only [extrasFound] at collected
                      obtain ⟨others, rest, _⟩ := Outcome.map_eq_value.mp collected
                      rcases List.mem_cons.mp member with same | later
                      · cases same
                        exact ⟨⟨version, versionFound⟩, fun _ _ => ⟨extras, extrasFound⟩⟩
                      · exact ih rest document later

theorem collect_eq_value_iff {results : List (Except StorageError Json)} {entries : List Entry} :
    collect decodeValue decodeExtras makeEntry results = .value entries ↔
      (∀ document, .ok document ∈ results → Listable decodeValue decodeExtras document) ∧
      entries =
        results.filterMap (listedEntry (decodeEntry decodeValue decodeExtras makeEntry)) := by
  constructor
  · intro collected
    have listable := listable_of_collect collected
    exact ⟨listable, Outcome.value.inj (collected.symm.trans (collect_of_listable listable))⟩
  · intro both
    obtain ⟨listable, rfl⟩ := both
    exact collect_of_listable listable

end Collecting

/-! ### Directories -/

section Directories

variable {Entry : Type} {files : Files} {directory : Location}

theorem children_of_not_directory (noDirectory : files.isDirectory directory = false) :
    files.children directory = [] := by
  rw [List.eq_nil_iff_forall_not_mem]
  intro child member
  obtain ⟨node, present⟩ := FileSystem.mem_children.mp member
  have isDirectory := FileSystem.isDirectory_iff.mpr (FileSystem.node_parent present)
  cases noDirectory.symm.trans isDirectory

/-- What both list functions do before they collect: an absent directory is an
empty one, and a file in its place makes them throw. -/
theorem listing_eq_collect (files : Files) (directory : Location) (reliable : disk.Reliable)
    (keeps : Str → Bool) (read : Str → Except StorageError Json)
    (collects : List (Except StorageError Json) → Outcome (List Entry))
    (empty : collects [] = .value []) :
    (if !disk.examines || !files.isPresent directory then .value []
      else if !disk.reads || !files.isDirectory directory then .exception .filesystemError
      else collects (((disk.order (files.children directory)).filter keeps).map read)) =
    if (files.fileAt directory).isSome = true then .exception .filesystemError
    else collects (((disk.order (files.children directory)).filter keeps).map read) := by
  cases held : files.node directory with
  | none =>
      have noDirectory : files.isDirectory directory = false := by
        simp [FileSystem.isDirectory, held]
      have nothing : disk.order (files.children directory) = [] := by
        rw [children_of_not_directory noDirectory]
        exact List.perm_nil.mp (disk.order_perm [])
      simp [FileSystem.isPresent, FileSystem.fileAt, held, nothing, empty]
  | some node =>
      cases node with
      | directory =>
          simp [FileSystem.isPresent, FileSystem.fileAt, FileSystem.isDirectory, held,
            reliable.examines, reliable.reads]
      | file content =>
          simp [FileSystem.isPresent, FileSystem.fileAt, FileSystem.isDirectory, held,
            reliable.examines, reliable.reads]

theorem mem_listed_iff {keeps : Str → Bool} {child : Str} :
    child ∈ (disk.order (files.children directory)).filter keeps ↔
      (∃ node, files.node (child :: directory) = some node) ∧ keeps child = true := by
  rw [List.mem_filter, (disk.order_perm _).mem_iff, FileSystem.mem_children]

theorem nodup_listed (keeps : Str → Bool) :
    ((disk.order (files.children directory)).filter keeps).Nodup :=
  ((disk.order_perm _).nodup_iff.mpr (files.nodup_children _)).filter _

end Directories

section Listing

variable {files : Files}

/-- The task list returns iff no file stands in place of the directory and every
document in it is listable; it has one entry for each that can be decoded. -/
theorem listTasks_eq_value_iff (reliable : disk.Reliable) {dag : Str} {entries : List TaskEntry} :
    listTasks root disk files dag = .value entries ↔
      files.fileAt (taskDirectory root dag).resolve = none ∧
      (∀ child document,
        readJson root disk files (child :: (taskDirectory root dag).resolve) = .ok document →
          Listable decodeTaskValue decodeTaskExtras document) ∧
      entries = ((disk.order (files.children (taskDirectory root dag).resolve)).filter
        fun child => (files.fileAt (child :: (taskDirectory root dag).resolve)).isSome).filterMap
          fun child => listedEntry decodeTask
            (readJson root disk files (child :: (taskDirectory root dag).resolve)) := by
  have listing := listing_eq_collect files (taskDirectory root dag).resolve reliable
    (fun child => (files.fileAt (child :: (taskDirectory root dag).resolve)).isSome)
    (fun child => readJson root disk files (child :: (taskDirectory root dag).resolve))
    (collect decodeTaskValue decodeTaskExtras taskEntry) rfl
  unfold listTasks
  dsimp only
  rw [listing]
  split
  · rename_i isFile
    rw [Option.isSome_iff_ne_none] at isFile
    simp [isFile]
  · rename_i noFile
    rw [collect_eq_value_iff, List.filterMap_map]
    have free : files.fileAt (taskDirectory root dag).resolve = none := by simpa using noFile
    rw [eq_true free, true_and]
    refine and_congr_left' ?_
    constructor
    · intro listable child document found
      obtain ⟨content, file, _⟩ := exists_file_of_readJson found
      refine listable document (List.mem_map.mpr ⟨child, mem_listed_iff.mpr ⟨?_, ?_⟩, found⟩)
      · exact ⟨_, FileSystem.fileAt_eq_some.mp file⟩
      · rw [file]
        rfl
    · intro listable document member
      obtain ⟨child, _, found⟩ := List.mem_map.mp member
      exact listable child document found

theorem mem_listTasks_iff (reliable : disk.Reliable) {dag : Str} {entries : List TaskEntry}
    (listed : listTasks root disk files dag = .value entries) (entry : TaskEntry) :
    entry ∈ entries ↔ ∃ child document,
      readJson root disk files (child :: (taskDirectory root dag).resolve) = .ok document ∧
      decodeTask document = .ok entry := by
  obtain ⟨_, _, rfl⟩ := (listTasks_eq_value_iff reliable).mp listed
  rw [List.mem_filterMap]
  constructor
  · intro found
    obtain ⟨child, _, isEntry⟩ := found
    exact ⟨child, listedEntry_eq_some.mp isEntry⟩
  · intro found
    obtain ⟨child, document, readable, decoded⟩ := found
    obtain ⟨content, file, _⟩ := exists_file_of_readJson readable
    refine ⟨child, mem_listed_iff.mpr ⟨⟨_, FileSystem.fileAt_eq_some.mp file⟩, ?_⟩,
      listedEntry_eq_some.mpr ⟨document, readable, decoded⟩⟩
    rw [file]
    rfl

end Listing

end BabyLuigi.FsStorage
