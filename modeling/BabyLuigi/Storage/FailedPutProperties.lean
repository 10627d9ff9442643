import BabyLuigi.Storage.BlobHistoryProperties
import BabyLuigi.Support.Transition

/-! Histories of puts whose writes may stop half-way: what a file that one put
left behind means to the next put of its content. -/

set_option autoImplicit false

namespace BabyLuigi.FsStorage

variable {root : StoreRoot} {print : Json → Str}

/-- One call of `put_blob`, with the trees around it. -/
structure PutRecord where
  disk : DiskBehavior
  bytes : Str
  before : Files
  after : Files
  outcome : Outcome Str

/-- Existence checks succeed, and a write that stops after a part of the content
reports an error. -/
structure ReportsWrites (disk : DiskBehavior) (bytes : Str) : Prop where
  examines : disk.examines = true
  stops : ∀ text, disk.keeps = some text → text <+: bytes ∧ disk.accepts = false

/-- Puts of the contents one after another; records newest first. -/
inductive FailingPutRun (root : StoreRoot) (contents : Set Str) (start : Files) :
    Files → List PutRecord → Prop where
  | start : FailingPutRun root contents start start []
  | put {disk : DiskBehavior} {files after : Files} {history : List PutRecord} {bytes : Str}
      {outcome : Outcome Str} :
      FailingPutRun root contents start files history → bytes ∈ contents →
      ReportsWrites disk bytes → putBlob root disk files bytes = (after, outcome) →
      FailingPutRun root contents start after (⟨disk, bytes, files, after, outcome⟩ :: history)

/-- Some put of the content returned its id. -/
def PutSucceeded (history : List PutRecord) (bytes : Str) : Prop :=
  ∃ record ∈ history, record.bytes = bytes ∧ record.outcome = .value (fnv1aHex bytes)

/-- The put makes the file of its content, and its write stops before the whole
content is there. -/
structure PutRecord.StopsShort (root : StoreRoot) (record : PutRecord) : Prop where
  absent : record.before.node (blobLocation root record.bytes) = none
  inDirectory : record.before.isDirectory (blobsDir root).resolve = true
  opens : record.disk.opens = true
  partly : ∃ text, record.disk.keeps = some text ∧ text ≠ record.bytes

/-- Every content whose put succeeded is got back; no other content is got back
truncated. -/
def HarmlessPuts (root : StoreRoot) (print : Json → Str) (contents : Set Str) (files : Files)
    (history : List PutRecord) : Prop :=
  ∀ bytes ∈ contents, ∀ disk : DiskBehavior, disk.Reliable →
    (PutSucceeded history bytes → getBlob root disk print files (fnv1aHex bytes) = .value bytes) ∧
    (¬ PutSucceeded history bytes → ∀ part, part <+: bytes → part ≠ bytes →
      getBlob root disk print files (fnv1aHex bytes) ≠ .value part)

/-! ### One put -/

/-- What a put leaves at the place of its content. -/
inductive PutEffect (root : StoreRoot) (disk : DiskBehavior) (files : Files) (bytes : Str) :
    Files → Outcome Str → Prop where
  | present {node : Node FileContent} : files.node (blobLocation root bytes) = some node →
      PutEffect root disk files bytes files (.value (fnv1aHex bytes))
  | unopened : files.node (blobLocation root bytes) = none →
      ¬ (disk.opens = true ∧ files.isDirectory (blobsDir root).resolve = true) →
      PutEffect root disk files bytes files (.error .io)
  | written {after : Files} : files.node (blobLocation root bytes) = none →
      disk.opens = true → files.isDirectory (blobsDir root).resolve = true →
      (∀ other, after.node other =
        if other = blobLocation root bytes then some (.file (.bytes (disk.keeps.getD bytes)))
        else files.node other) →
      PutEffect root disk files bytes after
        (if disk.accepts then .value (fnv1aHex bytes) else .error .io)

theorem putBlob_effect {disk : DiskBehavior} {files after : Files} {bytes : Str}
    {outcome : Outcome Str} (examines : disk.examines = true)
    (result : putBlob root disk files bytes = (after, outcome)) :
    PutEffect root disk files bytes after outcome := by
  unfold putBlob at result
  simp only [examines, Bool.true_and] at result
  rw [← blobLocation] at result
  cases held : files.node (blobLocation root bytes) with
  | some node =>
      rw [if_pos (by simp [FileSystem.isPresent, held])] at result
      cases result
      exact .present held
  | none =>
      rw [if_neg (by simp [FileSystem.isPresent, held])] at result
      split at result
      · rename_i closed
        cases result
        exact .unopened held fun opened => by simp [opened.1] at closed
      · rename_i opened
        have opens : disk.opens = true := by simpa using opened
        have whenRefused (refused : files.write (blobLocation root bytes)
            (.bytes (disk.keeps.getD bytes)) = none) :
            PutEffect root disk files bytes files (.error .io) := by
          refine .unopened held fun inDirectory => ?_
          obtain ⟨written, isWritten⟩ := FileSystem.exists_write
            (FileSystem.isDirectory_iff.mp inDirectory.2) (by rw [← blobLocation_eq, held]; simp)
            (FileContent.bytes (disk.keeps.getD bytes))
          rw [← blobLocation_eq, refused] at isWritten
          cases isWritten
        have whenWritten {written : Files} (isWritten : files.write (blobLocation root bytes)
            (.bytes (disk.keeps.getD bytes)) = some written) :
            PutEffect root disk files bytes written
              (if disk.accepts then .value (fnv1aHex bytes) else .error .io) := by
          refine .written held opens ?_ (FileSystem.node_write isWritten)
          rw [blobLocation_eq] at isWritten
          exact (FileSystem.isDirectory_of_write isWritten).1
        cases kept : disk.keeps with
        | none =>
            rw [kept] at whenRefused whenWritten
            simp only [kept] at result
            split at result
            · cases result
              exact whenRefused ‹_›
            · cases result
              exact whenWritten ‹_›
        | some text =>
            rw [kept] at whenRefused whenWritten
            simp only [kept] at result
            split at result
            · cases result
              exact whenRefused ‹_›
            · cases result
              exact whenWritten ‹_›

theorem PutEffect.node {disk : DiskBehavior} {files after : Files} {bytes : Str}
    {outcome : Outcome Str} (effect : PutEffect root disk files bytes after outcome)
    {location : Location} {node : Node FileContent} (held : files.node location = some node) :
    after.node location = some node := by
  cases effect with
  | present => exact held
  | unopened => exact held
  | written absent _ _ nodes =>
      rw [nodes, if_neg, held]
      rintro rfl
      cases absent.symm.trans held

theorem PutEffect.present_of_returned {disk : DiskBehavior} {files after : Files} {bytes id : Str}
    {outcome : Outcome Str} (effect : PutEffect root disk files bytes after outcome)
    (returned : outcome = .value id) : ∃ node, after.node (blobLocation root bytes) = some node := by
  cases effect with
  | present held => exact ⟨_, held⟩
  | unopened => cases returned
  | written _ _ _ nodes => exact ⟨_, (nodes _).trans (if_pos rfl)⟩

theorem PutEffect.returned_of_present {disk : DiskBehavior} {files after : Files} {bytes : Str}
    {outcome : Outcome Str} {node : Node FileContent}
    (effect : PutEffect root disk files bytes after outcome)
    (held : files.node (blobLocation root bytes) = some node) : outcome = .value (fnv1aHex bytes) := by
  cases effect with
  | present => rfl
  | unopened absent => cases absent.symm.trans held
  | written absent => cases absent.symm.trans held

theorem PutEffect.node_written {disk : DiskBehavior} {files after : Files} {bytes : Str}
    {outcome : Outcome Str} (effect : PutEffect root disk files bytes after outcome)
    (absent : files.node (blobLocation root bytes) = none) (opens : disk.opens = true)
    (inDirectory : files.isDirectory (blobsDir root).resolve = true) :
    after.node (blobLocation root bytes) = some (.file (.bytes (disk.keeps.getD bytes))) := by
  cases effect with
  | present held => cases absent.symm.trans held
  | unopened _ closed => exact absurd ⟨opens, inDirectory⟩ closed
  | written _ _ _ nodes => exact (nodes _).trans (if_pos rfl)

variable {contents : Set Str}

/-- A put that does not stop short leaves nothing but whole contents. -/
theorem PutEffect.stoodFor {disk : DiskBehavior} {before after : Files} {bytes : Str}
    {outcome : Outcome Str} (distinct : Set.InjOn fnv1aHex contents)
    (effect : PutEffect root disk before bytes after outcome) (admitted : bytes ∈ contents)
    (stood : ∀ bytes ∈ contents, StoodFor root print before bytes)
    (whole : ¬ PutRecord.StopsShort root ⟨disk, bytes, before, after, outcome⟩) :
    ∀ bytes ∈ contents, StoodFor root print after bytes := by
  cases effect with
  | present => exact stood
  | unopened => exact stood
  | written absent opens inDirectory nodes =>
      intro other otherAdmitted node held
      rw [nodes] at held
      split at held
      · rename_i same
        obtain rfl := distinct otherAdmitted admitted (fnv1aHex_eq_of_blobLocation same)
        cases held
        refine ⟨_, rfl, ?_⟩
        cases kept : disk.keeps with
        | none => rfl
        | some text =>
            by_contra partly
            exact whole ⟨absent, inDirectory, opens, text, kept, partly⟩
      · exact stood other otherAdmitted node held

/-! ### Histories of puts -/

variable {start files : Files} {history : List PutRecord}

/-- Every record of a history is a put at the end of the history before it. -/
theorem FailingPutRun.split (run : FailingPutRun root contents start files history)
    {later earlier : List PutRecord} {record : PutRecord} (split : history = later ++ record :: earlier) :
    FailingPutRun root contents start record.before earlier ∧ record.bytes ∈ contents ∧
      ReportsWrites record.disk record.bytes ∧
      putBlob root record.disk record.before record.bytes = (record.after, record.outcome) := by
  induction run generalizing later with
  | start => cases later <;> cases split
  | put run admitted reports result ih =>
      cases later with
      | nil =>
          obtain ⟨rfl, rfl⟩ := List.cons.inj split
          exact ⟨run, admitted, reports, result⟩
      | cons _ rest => exact ih (List.cons.inj split).2

theorem FailingPutRun.present (run : FailingPutRun root contents start files history) {bytes : Str}
    (succeeded : PutSucceeded history bytes) :
    ∃ node, files.node (blobLocation root bytes) = some node := by
  induction run with
  | start =>
      obtain ⟨_, impossible, _⟩ := succeeded
      cases impossible
  | put _ _ reports result ih =>
      have effect := putBlob_effect reports.examines result
      obtain ⟨record, member, rfl, returned⟩ := succeeded
      rcases List.mem_cons.mp member with rfl | member
      · exact effect.present_of_returned returned
      · obtain ⟨node, held⟩ := ih ⟨record, member, rfl, returned⟩
        exact ⟨node, effect.node held⟩

theorem FailingPutRun.stoodFor (distinct : Set.InjOn fnv1aHex contents)
    (run : FailingPutRun root contents start files history)
    (stood : ∀ bytes ∈ contents, StoodFor root print start bytes)
    (whole : ∀ record ∈ history, ¬ record.StopsShort root) :
    ∀ bytes ∈ contents, StoodFor root print files bytes := by
  induction run with
  | start => exact stood
  | put _ admitted reports result ih =>
      obtain ⟨newest, others⟩ := List.forall_mem_cons.mp whole
      exact PutEffect.stoodFor distinct (putBlob_effect reports.examines result) admitted (ih others)
        newest

theorem FailingPutRun.harmless (run : FailingPutRun root contents start files history)
    (stood : ∀ bytes ∈ contents, StoodFor root print files bytes) :
    HarmlessPuts root print contents files history := by
  intro bytes admitted disk reliable
  constructor
  · intro succeeded
    obtain ⟨node, held⟩ := run.present succeeded
    obtain ⟨content, rfl, same⟩ := stood bytes admitted node held
    exact (getBlob_eq_value_iff reliable).mpr ⟨content, held, same⟩
  · intro _ part _ partly got
    obtain ⟨content, held, same⟩ := (getBlob_eq_value_iff reliable).mp got
    obtain ⟨_, isContent, whole⟩ := stood bytes admitted _ held
    cases isContent
    exact partly (same.symm.trans whole)

/-- A put that stops short is got back truncated at once. -/
theorem FailingPutRun.not_harmless {disk : DiskBehavior} {before after : Files} {bytes : Str}
    {outcome : Outcome Str} (run : FailingPutRun root contents start before history)
    (admitted : bytes ∈ contents) (reports : ReportsWrites disk bytes)
    (effect : PutEffect root disk before bytes after outcome)
    (short : PutRecord.StopsShort root ⟨disk, bytes, before, after, outcome⟩) :
    ¬ HarmlessPuts root print contents after (⟨disk, bytes, before, after, outcome⟩ :: history) := by
  obtain ⟨absent, inDirectory, opens, text, kept, partly⟩ := short
  obtain ⟨isPart, refused⟩ := reports.stops text kept
  intro harmless
  have truncated := effect.node_written absent opens inDirectory
  have unsuccessful :
      ¬ PutSucceeded (⟨disk, bytes, before, after, outcome⟩ :: history) bytes := by
    rintro ⟨record, member, same, returned⟩
    rcases List.mem_cons.mp member with rfl | member
    · cases effect with
      | present held => cases absent.symm.trans held
      | unopened => cases returned
      | written => simp [refused] at returned
    · obtain ⟨_, held⟩ := run.present ⟨record, member, same, returned⟩
      cases absent.symm.trans held
  refine (harmless bytes admitted .reliable DiskBehavior.reliable_reliable).2 unsuccessful text
    isPart partly ?_
  rw [kept] at truncated
  exact (getBlob_eq_value_iff DiskBehavior.reliable_reliable).mpr ⟨_, truncated, rfl⟩

/-- Of contents with different ids, every content whose put succeeded is got
back at every point of a history, and none is got back truncated, exactly if no
put stops short in the file it makes. -/
theorem run_harmless_iff (distinct : Set.InjOn fnv1aHex contents)
    (run : FailingPutRun root contents start files history)
    (stood : ∀ bytes ∈ contents, StoodFor root print start bytes) :
    Transition.EachEvent (fun record earlier =>
        HarmlessPuts root print contents record.after (record :: earlier)) history ↔
      ∀ record ∈ history, ¬ record.StopsShort root := by
  constructor
  · intro each record member short
    obtain ⟨later, earlier, split⟩ := List.append_of_mem member
    obtain ⟨before, admitted, reports, result⟩ := run.split split
    exact before.not_harmless admitted reports (putBlob_effect reports.examines result) short
      (each later record earlier split)
  · intro whole later record earlier split
    obtain ⟨before, admitted, reports, result⟩ := run.split split
    refine (FailingPutRun.put before admitted reports result).harmless ?_
    refine (FailingPutRun.put before admitted reports result).stoodFor distinct stood ?_
    intro other member
    refine whole other ?_
    rw [split]
    exact List.mem_append_right _ member

/-! ### A put after another -/

/-- A disk on which the write of a blob stops after the text. -/
def stoppingDisk (text : Str) : DiskBehavior :=
  { DiskBehavior.reliable with accepts := false, keeps := some text }

def helloWorld : Str := ascii "hello world"

theorem helloWorld_free :
    freshFiles.node (blobLocation dataRoot helloWorld) = none ∧
      freshFiles.isDirectory (blobsDir dataRoot).resolve = true := by
  refine ⟨Option.isNone_iff_eq_none.mp ?_, ?_⟩
  · decide +kernel
  · decide +kernel

theorem stoodFor_freshFiles (print : Json → Str) :
    ∀ bytes ∈ ({helloWorld} : Set Str), StoodFor dataRoot print freshFiles bytes := by
  intro bytes isHello node held
  cases isHello
  cases helloWorld_free.1.symm.trans held

/-- A put that fails because the file cannot be opened does no harm to the
second one, in a store without documents to print. -/
theorem run_harmless_iff_unopened : ∃ files history,
    FailingPutRun dataRoot {helloWorld} freshFiles files history ∧ history.length = 2 ∧
      PutSucceeded history helloWorld ∧
      Transition.EachEvent (fun record earlier =>
        HarmlessPuts dataRoot (fun _ => []) {helloWorld} record.after (record :: earlier)) history := by
  have closed : ReportsWrites { DiskBehavior.reliable with opens := false } helloWorld :=
    ⟨rfl, by simp [DiskBehavior.reliable]⟩
  have whole : ReportsWrites DiskBehavior.reliable helloWorld :=
    ⟨rfl, by simp [DiskBehavior.reliable]⟩
  let between := putBlob dataRoot { DiskBehavior.reliable with opens := false } freshFiles helloWorld
  have run : FailingPutRun dataRoot {helloWorld} freshFiles
      (putBlob dataRoot .reliable between.1 helloWorld).1 _ :=
    .put (.put .start rfl closed rfl) rfl whole rfl
  refine ⟨_, _, run, rfl, ⟨_, List.mem_cons_self, rfl, ?_⟩, ?_⟩
  · decide +kernel
  · refine (run_harmless_iff (Set.injOn_singleton _ _) run (stoodFor_freshFiles _)).mpr ?_
    intro record member short
    obtain ⟨_, _, opens, text, kept, _⟩ := short
    rcases List.mem_pair.mp member with rfl | rfl
    · cases kept
    · cases opens

/-- The second put of a content whose first write stopped half-way finds its
file, returns the id and leaves the content truncated. -/
theorem truncated_blob_is_kept : ∃ files history,
    FailingPutRun dataRoot {helloWorld} freshFiles files history ∧
      PutSucceeded history helloWorld ∧ ∀ print,
        getBlob dataRoot .reliable print files (fnv1aHex helloWorld) = .value (ascii "hello") := by
  obtain ⟨absent, inDirectory⟩ := helloWorld_free
  have stops : ReportsWrites (stoppingDisk (ascii "hello")) helloWorld := by
    refine ⟨rfl, ?_⟩
    rintro text ⟨⟩
    exact ⟨by decide, rfl⟩
  have whole : ReportsWrites DiskBehavior.reliable helloWorld :=
    ⟨rfl, by simp [DiskBehavior.reliable]⟩
  let stopped := putBlob dataRoot (stoppingDisk (ascii "hello")) freshFiles helloWorld
  let retried := putBlob dataRoot .reliable stopped.1 helloWorld
  have run : FailingPutRun dataRoot {helloWorld} freshFiles retried.1 _ :=
    .put (.put .start rfl stops rfl) rfl whole rfl
  have truncated : stopped.1.node (blobLocation dataRoot helloWorld) =
      some (.file (.bytes (ascii "hello"))) :=
    (putBlob_effect stops.examines rfl).node_written absent rfl inDirectory
  have kept : PutEffect dataRoot .reliable stopped.1 helloWorld retried.1 retried.2 :=
    putBlob_effect rfl rfl
  refine ⟨_, _, run, ⟨_, List.mem_cons_self, rfl, kept.returned_of_present truncated⟩, fun print => ?_⟩
  exact (getBlob_eq_value_iff DiskBehavior.reliable_reliable).mpr ⟨_, kept.node truncated, rfl⟩

end BabyLuigi.FsStorage
