import BabyLuigi.Storage.BlobHistoryProperties
import BabyLuigi.Storage.KeyIsolationProperties

/-! The blobs of a store next to its other files: the contents that were put,
each under its own id, and nothing else. -/

set_option autoImplicit false

namespace BabyLuigi.FsStorage

open FileSystem (KeptOnWay)

variable {root : StoreRoot} {disk : DiskBehavior} {files after : Files} {contents : List Str}

/-- The directory of the blobs holds a file for each content, which stands for
every content of its id, and no other file. -/
structure KeepsBlobs (root : StoreRoot) (files : Files) (contents : List Str) : Prop where
  directory : files.node (blobsDir root).resolve = some .directory
  stored : ∀ bytes ∈ contents, ∃ node, files.node (blobLocation root bytes) = some node
  only : ∀ child node, files.node (child :: (blobsDir root).resolve) = some node →
    ∃ bytes ∈ contents, child :: (blobsDir root).resolve = blobLocation root bytes ∧
      node = .file (.bytes bytes)

theorem KeepsBlobs.frame (keeps : KeepsBlobs root files contents)
    (same : ∀ location, (blobsDir root).resolve <:+ location →
      after.node location = files.node location) : KeepsBlobs root after contents where
  directory := (same _ List.suffix_rfl).trans keeps.directory
  stored bytes member := by
    rw [same _ (by rw [blobLocation_eq]; exact List.suffix_cons _ _)]
    exact keeps.stored bytes member
  only child node present := by
    rw [same _ (List.suffix_cons _ _)] at present
    exact keeps.only child node present

theorem KeepsBlobs.at_location (keeps : KeepsBlobs root files contents) {bytes : Str}
    {node : Node FileContent} (present : files.node (blobLocation root bytes) = some node) :
    ∃ held ∈ contents, fnv1aHex held = fnv1aHex bytes ∧ node = .file (.bytes held) := by
  rw [blobLocation_eq] at present
  obtain ⟨held, member, located, isFile⟩ := keeps.only _ _ present
  rw [← blobLocation_eq] at located
  exact ⟨held, member, (fnv1aHex_eq_of_blobLocation located).symm, isFile⟩

/-- On a reliable disk a blob is always stored. -/
theorem KeepsBlobs.putBlob (keeps : KeepsBlobs root files contents) (reliable : disk.Reliable)
    {bytes : Str} {outcome : Outcome Str}
    (result : putBlob root disk files bytes = (after, outcome)) :
    outcome = .value (fnv1aHex bytes) ∧ KeepsBlobs root after (bytes :: contents) := by
  have returns : outcome = .value (fnv1aHex bytes) := by
    unfold FsStorage.putBlob at result
    simp only [reliable.examines, reliable.opens, reliable.keeps, reliable.accepts, Bool.true_and,
      Bool.not_true, if_true] at result
    rw [← blobLocation] at result
    split at result
    · exact (Prod.mk.inj result).2.symm
    · rename_i absent
      have free : files.node (blobLocation root bytes) = none := by
        simpa [FileSystem.isPresent] using absent
      have replaceable : files.isDirectory (blobLocation root bytes) = false := by
        simp [FileSystem.isDirectory, free]
      have written : ∃ made, files.write (blobLocation root bytes) (.bytes bytes) = some made := by
        rw [blobLocation_eq] at replaceable ⊢
        rw [FileSystem.write, dif_pos (FileSystem.isDirectory_iff.mpr keeps.directory),
          dif_pos replaceable]
        exact ⟨_, rfl⟩
      obtain ⟨made, written⟩ := written
      simp only [Bool.false_eq_true, if_false, written] at result
      exact (Prod.mk.inj result).2.symm
  subst returns
  refine ⟨rfl, ?_⟩
  obtain ⟨_, ⟨present, rfl⟩ | ⟨absent, nodes⟩⟩ := putBlob_cases reliable result
  · refine ⟨keeps.directory, List.forall_mem_cons.mpr ⟨present, keeps.stored⟩, ?_⟩
    intro child node held
    obtain ⟨earlier, member, made⟩ := keeps.only child node held
    exact ⟨earlier, List.mem_cons_of_mem _ member, made⟩
  · have kept : ∀ {location : Location} {node : Node FileContent},
        files.node location = some node → after.node location = some node := by
      intro location node held
      rw [nodes, if_neg]
      · exact held
      · rintro rfl
        cases absent.symm.trans held
    refine ⟨kept keeps.directory, ?_, ?_⟩
    · refine List.forall_mem_cons.mpr ⟨⟨_, (nodes _).trans (if_pos rfl)⟩, ?_⟩
      intro earlier member
      obtain ⟨node, held⟩ := keeps.stored earlier member
      exact ⟨node, kept held⟩
    · intro child node present
      rw [nodes] at present
      split at present
      · cases present
        exact ⟨bytes, List.mem_cons_self, ‹_›, rfl⟩
      · obtain ⟨earlier, member, made⟩ := keeps.only child node present
        exact ⟨earlier, List.mem_cons_of_mem _ member, made⟩

/-- Nothing lies below both directories. -/
theorem not_below_both {location : Location} (blobs : (blobsDir root).resolve <:+ location)
    (metadata : ascii "metadata" :: root.path.resolve <:+ location) : False := by
  rw [resolve_blobsDir] at blobs
  have common : ascii "metadata" :: root.path.resolve = ascii "blobs" :: root.path.resolve :=
    eq_of_common rfl metadata blobs
  exact absurd (List.head_eq_of_cons_eq common) (by decide)

theorem StoreKey.below_metadata (root : StoreRoot) (key : StoreKey) :
    ascii "metadata" :: root.path.resolve <:+ (key.directory root).resolve := by
  cases key with
  | dag name =>
      rw [directory, resolve_dagDir]
      exact List.suffix_cons _ _
  | task dag name =>
      rw [directory, resolve_taskDir]
      exact List.suffix_cons _ _

/-- A call on the other stores leaves the blobs. -/
theorem KeepsBlobs.apply (keeps : KeepsBlobs root files contents) (disk : DiskBehavior)
    {change : StoreChange} (plain : change.key.Plain) :
    KeepsBlobs root (change.apply root disk files).1 contents := by
  obtain ⟨fileName, name, file, temporary, parent⟩ := StoreKey.locations root plain
  have inside := (change.key.below_metadata root).trans (List.suffix_cons name _)
  refine keeps.frame fun location below => ?_
  refine (change.apply_frame root disk files plain ?_ ?_ ?_).node ?_
  · rintro rfl
    rw [file] at below
    exact not_below_both below (inside.trans (List.suffix_cons _ _))
  · rintro rfl
    rw [temporary] at below
    exact not_below_both below (inside.trans (List.suffix_cons _ _))
  · rintro rfl
    rw [parent] at below
    exact not_below_both below inside
  · intro above
    rw [parent] at above
    exact not_below_both (below.trans above) inside

theorem keepsBlobs_construct (reliable : disk.Reliable) (empty : EmptyRoot root files) :
    KeepsBlobs root (construct root disk files) [] := by
  rw [construct, if_pos reliable.createsDirectories]
  generalize madeBlobs : files.createDirectories (blobsDir root).resolve = blobs
  generalize madeDags : blobs.createDirectories (dagDir root).resolve = dags
  generalize madeTasks : dags.createDirectories (taskDir root).resolve = tasks
  have keptBlobs : ∀ location, KeptOnWay files blobs (blobsDir root).resolve location :=
    madeBlobs ▸ FileSystem.keptOnWay_createDirectories _
  have keptDags : ∀ location, KeptOnWay blobs dags (dagDir root).resolve location :=
    madeDags ▸ FileSystem.keptOnWay_createDirectories _
  have keptTasks : ∀ location, KeptOnWay dags tasks (taskDir root).resolve location :=
    madeTasks ▸ FileSystem.keptOnWay_createDirectories _
  refine ⟨?_, by simp, ?_⟩
  · refine (keptTasks _).directory ((keptDags _).directory ?_)
    rw [← madeBlobs]
    refine FileSystem.node_createDirectories empty.top ?_
    intro other above
    rw [resolve_blobsDir] at above
    rcases List.suffix_cons_iff.mp above with rfl | above
    · exact FileSystem.fileAt_of_absent (empty.empty _)
    · exact empty.free other above
  · intro child node present
    have notBlobs : ¬ child :: (blobsDir root).resolve <:+ (blobsDir root).resolve := by
      intro above
      have depth := above.length_le
      simp only [List.length_cons] at depth
      omega
    have below : (blobsDir root).resolve <:+ child :: (blobsDir root).resolve :=
      List.suffix_cons _ _
    have notDags : ¬ child :: (blobsDir root).resolve <:+ (dagDir root).resolve := by
      intro above
      refine not_below_both (below.trans above) ?_
      rw [resolve_dagDir]
      exact List.suffix_cons _ _
    have notTasks : ¬ child :: (blobsDir root).resolve <:+ (taskDir root).resolve := by
      intro above
      refine not_below_both (below.trans above) ?_
      rw [resolve_taskDir]
      exact List.suffix_cons _ _
    rw [(keptTasks _).node notTasks, (keptDags _).node notDags, (keptBlobs _).node notBlobs,
      resolve_blobsDir] at present
    cases (empty.node_below (ascii "blobs") [child]).symm.trans present

/-! ### Readers -/

theorem KeepsBlobs.hasBlob (keeps : KeepsBlobs root files contents) (reliable : disk.Reliable)
    {bytes : Str} (member : bytes ∈ contents) :
    hasBlob root disk files (fnv1aHex bytes) = .value true := by
  obtain ⟨node, present⟩ := keeps.stored bytes member
  rw [FsStorage.hasBlob, ← blobLocation, FileSystem.isPresent, present, reliable.examines]
  rfl

theorem KeepsBlobs.getBlob (keeps : KeepsBlobs root files contents) (reliable : disk.Reliable)
    (print : Json → Str) {bytes : Str} (member : bytes ∈ contents) :
    ∃ held ∈ contents, fnv1aHex held = fnv1aHex bytes ∧
      getBlob root disk print files (fnv1aHex bytes) = .value held := by
  obtain ⟨node, present⟩ := keeps.stored bytes member
  obtain ⟨held, heldMember, sameId, rfl⟩ := keeps.at_location present
  exact ⟨held, heldMember, sameId,
    (getBlob_eq_value_iff reliable).mpr ⟨_, present, rfl⟩⟩

end BabyLuigi.FsStorage
