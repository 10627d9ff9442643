import BabyLuigi.Storage.StoredNamesProperties

/-! Histories of blobs put into one store, and whether each can be got back
under its id. -/

set_option autoImplicit false

namespace BabyLuigi.FsStorage

variable {root : StoreRoot} {disk : DiskBehavior}

/-- A sequence of puts that return, on disks where every operation succeeds; the
contents are listed newest first. -/
inductive PutRun (root : StoreRoot) (start : Files) : Files → List Str → Prop where
  | start : PutRun root start start []
  | put {disk : DiskBehavior} {files after : Files} {contents : List Str} {bytes id : Str} :
      PutRun root start files contents → disk.Reliable →
      putBlob root disk files bytes = (after, .value id) →
      PutRun root start after (bytes :: contents)

def blobLocation (root : StoreRoot) (bytes : Str) : Location :=
  (blobFile root (fnv1aHex bytes)).resolve

theorem blobLocation_eq (root : StoreRoot) (bytes : Str) :
    blobLocation root bytes = (fnv1aHex bytes ++ ascii ".bin") :: (blobsDir root).resolve :=
  FsPath.resolve_append_plainName (nulFree_blobsDir root) (plainName_blob bytes)

theorem fnv1aHex_eq_of_blobLocation {first second : Str}
    (same : blobLocation root first = blobLocation root second) :
    fnv1aHex first = fnv1aHex second := by
  rw [blobLocation_eq, blobLocation_eq] at same
  exact List.append_cancel_right (List.cons.inj same).1

theorem putBlob_cases (reliable : disk.Reliable) {files after : Files} {bytes id : Str}
    (result : putBlob root disk files bytes = (after, .value id)) :
    id = fnv1aHex bytes ∧
    ((∃ node, files.node (blobLocation root bytes) = some node) ∧ after = files ∨
      files.node (blobLocation root bytes) = none ∧ ∀ other, after.node other =
        if other = blobLocation root bytes then some (.file (.bytes bytes))
        else files.node other) := by
  unfold putBlob at result
  simp only [reliable.examines, reliable.opens, reliable.keeps, reliable.accepts, Bool.true_and,
    Bool.not_true, if_true] at result
  rw [← blobLocation] at result
  cases held : files.node (blobLocation root bytes) with
  | some node =>
      have present : files.isPresent (blobLocation root bytes) = true := by
        simp [FileSystem.isPresent, held]
      rw [if_pos present] at result
      cases result
      exact ⟨rfl, .inl ⟨⟨node, rfl⟩, rfl⟩⟩
  | none =>
      have absent : ¬ files.isPresent (blobLocation root bytes) = true := by
        simp [FileSystem.isPresent, held]
      rw [if_neg absent] at result
      simp only [Bool.false_eq_true, if_false] at result
      split at result
      · cases result
      · rename_i written
        cases result
        exact ⟨rfl, .inr ⟨rfl, FileSystem.node_write written⟩⟩

/-- What a sequence of puts does to the tree: nodes stay, and each content has
a node, made for it or for another content that was put. -/
structure PutRun.Nodes (root : StoreRoot) (start after : Files) (contents : List Str) : Prop where
  kept : ∀ location node, start.node location = some node → after.node location = some node
  stored : ∀ bytes ∈ contents, ∃ node, after.node (blobLocation root bytes) = some node
  made : ∀ location node, start.node location = none → after.node location = some node →
    ∃ bytes ∈ contents, location = blobLocation root bytes ∧ node = .file (.bytes bytes)

theorem PutRun.nodes {start after : Files} {contents : List Str}
    (run : PutRun root start after contents) : PutRun.Nodes root start after contents := by
  induction run with
  | start =>
      refine ⟨fun _ _ => id, by simp, ?_⟩
      intro location node absent present
      cases absent.symm.trans present
  | put run reliable result ih =>
      rename_i disk files after contents bytes id
      obtain ⟨_, ⟨⟨node, held⟩, rfl⟩ | ⟨absent, nodes⟩⟩ := putBlob_cases reliable result
      · refine ⟨ih.kept, List.forall_mem_cons.mpr ⟨⟨node, held⟩, ih.stored⟩, ?_⟩
        intro location node absent present
        obtain ⟨earlier, member, made⟩ := ih.made location node absent present
        exact ⟨earlier, List.mem_cons_of_mem _ member, made⟩
      · have keeps : ∀ location node, files.node location = some node →
            after.node location = some node := by
          intro location node present
          rw [nodes, if_neg, present]
          rintro rfl
          cases absent.symm.trans present
        refine ⟨fun location node present => keeps location node (ih.kept location node present),
          List.forall_mem_cons.mpr ⟨⟨_, (nodes _).trans (if_pos rfl)⟩, ?_⟩, ?_⟩
        · intro earlier member
          obtain ⟨node, present⟩ := ih.stored earlier member
          exact ⟨node, keeps _ node present⟩
        · intro location node startAbsent present
          rw [nodes] at present
          split at present
          · cases present
            exact ⟨bytes, List.mem_cons_self, ‹_›, rfl⟩
          · obtain ⟨earlier, member, made⟩ := ih.made location node startAbsent present
            exact ⟨earlier, List.mem_cons_of_mem _ member, made⟩

theorem getBlob_eq_value_iff (reliable : disk.Reliable) {print : Json → Str} {files : Files}
    {bytes content : Str} :
    getBlob root disk print files (fnv1aHex bytes) = .value content ↔
      ∃ held, files.node (blobLocation root bytes) = some (.file held) ∧
        contentBytes print held = content := by
  unfold getBlob
  rw [← blobLocation, reliable.reads]
  simp only [Bool.not_true, Bool.false_eq_true, if_false]
  cases files.node (blobLocation root bytes) with
  | none => simp
  | some node => cases node <;> simp

/-- Every content put can be got back under its id. -/
def ReturnsBlobs (root : StoreRoot) (disk : DiskBehavior) (print : Json → Str) (files : Files)
    (contents : List Str) : Prop :=
  ∀ bytes ∈ contents, getBlob root disk print files (fnv1aHex bytes) = .value bytes

/-- Whether what stood at the place of a content is that content. -/
def StoodFor (root : StoreRoot) (print : Json → Str) (start : Files) (bytes : Str) : Prop :=
  ∀ node, start.node (blobLocation root bytes) = some node →
    ∃ held, node = .file held ∧ contentBytes print held = bytes

/-- At every point of every sequence of puts, all contents put so far can be got
back iff no two of them have one id and no file of another content stood there
before the first. -/
theorem run_returnsBlobs_iff {start after : Files} {contents : List Str}
    (run : PutRun root start after contents) (reliable : disk.Reliable) (print : Json → Str) :
    ReturnsBlobs root disk print after contents ↔
      (∀ first ∈ contents, ∀ second ∈ contents,
        fnv1aHex first = fnv1aHex second → first = second) ∧
      ∀ bytes ∈ contents, StoodFor root print start bytes := by
  have nodes := run.nodes
  constructor
  · intro returns
    constructor
    · intro first firstPut second secondPut same
      have got := returns second secondPut
      rw [← same, returns first firstPut] at got
      exact Outcome.value.inj got
    · intro bytes put node stood
      obtain ⟨held, present, same⟩ := (getBlob_eq_value_iff reliable).mp (returns bytes put)
      exact ⟨held, Option.some.inj ((nodes.kept _ node stood).symm.trans present), same⟩
  · intro both bytes put
    obtain ⟨injective, stood⟩ := both
    obtain ⟨node, present⟩ := nodes.stored bytes put
    cases before : start.node (blobLocation root bytes) with
    | some older =>
        obtain ⟨held, rfl, same⟩ := stood bytes put older before
        exact (getBlob_eq_value_iff reliable).mpr ⟨held, nodes.kept _ _ before, same⟩
    | none =>
        obtain ⟨maker, makerPut, located, rfl⟩ := nodes.made _ node before present
        obtain rfl := injective bytes put maker makerPut (fnv1aHex_eq_of_blobLocation located)
        exact (getBlob_eq_value_iff reliable).mpr ⟨_, present, rfl⟩

/-! ### One put after another -/

def putBoth (first second : Str) : Files × Outcome Str :=
  putBlob dataRoot .reliable (putBlob dataRoot .reliable freshFiles first).1 second

theorem putRun_putBoth {first second : Str}
    (firstPut : (putBlob dataRoot .reliable freshFiles first).2 = .value (fnv1aHex first))
    (secondPut : (putBoth first second).2 = .value (fnv1aHex second)) :
    PutRun dataRoot freshFiles (putBoth first second).1 [second, first] :=
  .put (.put .start DiskBehavior.reliable_reliable (Prod.ext rfl firstPut))
    DiskBehavior.reliable_reliable (Prod.ext rfl secondPut)

/-- Two contents with different ids are both got back, in a store without
documents to print. -/
theorem run_returnsBlobs_hello :
    ReturnsBlobs dataRoot .reliable (fun _ => [])
      (putBoth (ascii "hello world") (ascii "another content")).1
      [ascii "another content", ascii "hello world"] := by
  have run : PutRun dataRoot freshFiles
      (putBoth (ascii "hello world") (ascii "another content")).1 _ :=
    putRun_putBoth (by decide +kernel) (by decide +kernel)
  refine (run_returnsBlobs_iff run DiskBehavior.reliable_reliable _).mpr ⟨?_, ?_⟩
  · decide +kernel
  · intro bytes put node stood
    have absent : ∀ bytes ∈ [ascii "another content", ascii "hello world"],
        (freshFiles.node (blobLocation dataRoot bytes)).isNone = true := by decide +kernel
    have noNode := absent bytes put
    rw [stood] at noNode
    cases noNode

/-- Two contents with one id: the second put stores nothing, and only one of the
two can be got back. -/
theorem colliding_blob_is_lost :
    PutRun dataRoot freshFiles (putBoth (ascii "WMSC1qDCVoP") (ascii "IWc UpIMg7H")).1
      [ascii "IWc UpIMg7H", ascii "WMSC1qDCVoP"] ∧
    ∀ print, ¬ ReturnsBlobs dataRoot .reliable print
      (putBoth (ascii "WMSC1qDCVoP") (ascii "IWc UpIMg7H")).1
      [ascii "IWc UpIMg7H", ascii "WMSC1qDCVoP"] := by
  refine ⟨putRun_putBoth (by decide +kernel) (by decide +kernel), ?_⟩
  intro print returns
  have second := returns (ascii "IWc UpIMg7H") (by decide)
  have sameId : fnv1aHex (ascii "IWc UpIMg7H") = fnv1aHex (ascii "WMSC1qDCVoP") := by
    decide +kernel
  rw [sameId, returns (ascii "WMSC1qDCVoP") (by decide)] at second
  exact absurd (Outcome.value.inj second) (by decide)

end BabyLuigi.FsStorage
