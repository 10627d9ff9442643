import BabyLuigi.Storage.FsStorage
import BabyLuigi.Storage.PathProperties
import BabyLuigi.Support.Except

/-! What one call on a store does to the tree: where the documents of the keys
lie, the one file a write replaces, and the one file an erase takes away. -/

set_option autoImplicit false

namespace BabyLuigi.FsStorage

open FileSystem (KeptOnWay)

variable {root : StoreRoot} {disk : DiskBehavior}

/-! ### Locations -/

theorem nulFree_dagDir (root : StoreRoot) : (dagDir root).NulFree :=
  (root.nulFree.append (by decide)).append (by decide)

theorem nulFree_taskDir (root : StoreRoot) : (taskDir root).NulFree :=
  (root.nulFree.append (by decide)).append (by decide)

theorem isDocument_dagFile (root : StoreRoot) {name : Str} (noNul : nul ∉ name) :
    (dagFile root name).IsDocument :=
  FsPath.isDocument_append ((nulFree_dagDir root).append noNul) (ascii "dag") (by decide)

theorem isDocument_taskFile (root : StoreRoot) {dag name : Str} (dagNoNul : nul ∉ dag)
    (noNul : nul ∉ name) : (taskFile root dag name).IsDocument :=
  FsPath.isDocument_append ((nulFree_taskDir root).append dagNoNul) name noNul

theorem plainName_dagJson : PlainName (ascii "dag.json") where
  nonempty := by decide
  noSeparator := by decide
  noNul := by decide
  notDot := by decide
  notDotDot := by decide

theorem resolve_dagFile (root : StoreRoot) {name : Str} (noNul : nul ∉ name) :
    (dagFile root name).resolve = ascii "dag.json" :: (dagDirectory root name).resolve :=
  FsPath.resolve_append_plainName ((nulFree_dagDir root).append noNul) plainName_dagJson

theorem resolve_dagDir (root : StoreRoot) :
    (dagDir root).resolve = ascii "dags" :: ascii "metadata" :: root.path.resolve := by
  have metadataNulFree : (root.path.append (ascii "metadata")).NulFree :=
    root.nulFree.append (by decide)
  rw [dagDir, FsPath.resolve_append_plainName metadataNulFree (by constructor <;> decide),
    FsPath.resolve_append_plainName root.nulFree (by constructor <;> decide)]

theorem resolve_taskDir (root : StoreRoot) :
    (taskDir root).resolve = ascii "tasks" :: ascii "metadata" :: root.path.resolve := by
  have metadataNulFree : (root.path.append (ascii "metadata")).NulFree :=
    root.nulFree.append (by decide)
  rw [taskDir, FsPath.resolve_append_plainName metadataNulFree (by constructor <;> decide),
    FsPath.resolve_append_plainName root.nulFree (by constructor <;> decide)]

theorem resolve_dagDirectory (root : StoreRoot) {name : Str} (plain : PlainName name) :
    (dagDirectory root name).resolve = name :: (dagDir root).resolve :=
  FsPath.resolve_append_plainName (nulFree_dagDir root) plain

theorem resolve_taskDirectory (root : StoreRoot) {dag : Str} (plain : PlainName dag) :
    (taskDirectory root dag).resolve = dag :: (taskDir root).resolve :=
  FsPath.resolve_append_plainName (nulFree_taskDir root) plain

theorem dagFile_locations (root : StoreRoot) {name : Str} (plain : PlainName name) :
    (dagFile root name).resolve = ascii "dag.json" :: name :: (dagDir root).resolve ∧
    (dagFile root name).temporary =
      (ascii "dag.json" ++ ascii ".tmp") :: name :: (dagDir root).resolve ∧
    (dagFile root name).parentPath.resolve = name :: (dagDir root).resolve := by
  have file := resolve_dagFile root plain.noNul
  rw [resolve_dagDirectory root plain] at file
  obtain ⟨stem, located, temporary⟩ := (isDocument_dagFile root plain.noNul).locations
  obtain ⟨stemEq, parentEq⟩ := List.cons.inj (located.symm.trans file)
  exact ⟨file, by rw [temporary, stemEq, parentEq], parentEq⟩

theorem taskFile_locations (root : StoreRoot) {dag name : Str} (dagPlain : PlainName dag)
    (plain : PlainName name) :
    (taskFile root dag name).resolve = (name ++ ascii ".json") :: dag :: (taskDir root).resolve ∧
    (taskFile root dag name).temporary =
      (name ++ ascii ".json" ++ ascii ".tmp") :: dag :: (taskDir root).resolve ∧
    (taskFile root dag name).parentPath.resolve = dag :: (taskDir root).resolve := by
  have filePlain : PlainName (name ++ ascii ".json") :=
    FsPath.plainName_append plain.noSeparator plain.noNul (by decide) (by decide) (by decide)
  have file : (taskFile root dag name).resolve = _ :=
    FsPath.resolve_append_plainName ((nulFree_taskDir root).append dagPlain.noNul) filePlain
  rw [← taskDirectory, resolve_taskDirectory root dagPlain] at file
  obtain ⟨stem, located, temporary⟩ := (isDocument_taskFile root dagPlain.noNul plain.noNul).locations
  obtain ⟨stemEq, parentEq⟩ := List.cons.inj (located.symm.trans file)
  exact ⟨file, by rw [temporary, stemEq, parentEq], parentEq⟩

theorem dagDir_ne_taskDir (root : StoreRoot) : (dagDir root).resolve ≠ (taskDir root).resolve := by
  rw [resolve_dagDir, resolve_taskDir]
  intro same
  exact absurd (List.head_eq_of_cons_eq same) (by decide)

theorem not_grandchild_above (directory : Location) (child name other : Str) :
    ¬ child :: name :: directory <:+ other :: directory :=
  fun above => absurd above.length_le (by simp)

/-! ### Reading -/

theorem readJson_congr {files after : Files} {location : Location}
    (same : after.node location = files.node location) :
    readJson root disk after location = readJson root disk files location := by
  unfold readJson
  rw [same]

theorem exists_file_of_readJson {files : Files} {location : Location} {document : Json}
    (result : readJson root disk files location = .ok document) :
    ∃ content, files.fileAt location = some content ∧ readContent root content = .ok document := by
  unfold readJson at result
  split at result
  · cases result
  · split at result
    · cases result
    · cases result
    · rename_i content held
      exact ⟨content, FileSystem.fileAt_eq_some.mpr held, result⟩

theorem decodeEntry_eq_ok {Value Extras Entry : Type} {decodeValue : Json → Except Fault Value}
    {decodeExtras : Json → Except Fault Extras} {makeEntry : UInt64 → Value → Extras → Entry}
    {document : Json} {entry : Entry}
    (decoded : decodeEntry decodeValue decodeExtras makeEntry document = .ok entry) :
    ∃ version value extras, document.version = .ok version ∧ decodeValue document = .ok value ∧
      decodeExtras document = .ok extras ∧ entry = makeEntry version value extras := by
  obtain ⟨version, versionFound, afterVersion⟩ := bind_eq_ok.mp decoded
  obtain ⟨value, valueFound, afterValue⟩ := bind_eq_ok.mp afterVersion
  obtain ⟨extras, extrasFound, made⟩ := bind_eq_ok.mp afterValue
  cases made
  exact ⟨version, value, extras, versionFound, valueFound, extrasFound, rfl⟩

theorem getDag_eq_value {files : Files} {name : Str} {entry : DagEntry} :
    getDag root disk files name = .value entry ↔ ∃ document,
      readJson root disk files (dagFile root name).resolve = .ok document ∧
      decodeDag document = .ok entry := by
  unfold getDag
  cases readJson root disk files (dagFile root name).resolve with
  | error error => simp
  | ok document =>
      simp only [Except.ok.injEq, exists_eq_left']
      cases decodeDag document <;> simp

theorem getTask_eq_value {files : Files} {dag name : Str} {entry : TaskEntry} :
    getTask root disk files dag name = .value entry ↔ ∃ document,
      readJson root disk files (taskFile root dag name).resolve = .ok document ∧
      decodeTask document = .ok entry := by
  unfold getTask
  cases readJson root disk files (taskFile root dag name).resolve with
  | error error => simp
  | ok document =>
      simp only [Except.ok.injEq, exists_eq_left']
      cases decodeTask document <;> simp

/-! ### Writing -/

theorem keptOnWay_makeParents (disk : DiskBehavior) (files : Files) (path : FsPath)
    (other : Location) :
    KeptOnWay files (makeParents disk files path) path.parentPath.resolve other := by
  unfold makeParents
  split
  · exact FileSystem.keptOnWay_createDirectories _ _
  · exact .inl rfl

theorem node_makeParents_grandchild (disk : DiskBehavior) (files : Files) {path : FsPath}
    {name : Str} {directory : Location} (isParent : path.parentPath.resolve = name :: directory)
    (child : Str) :
    (makeParents disk files path).node (child :: name :: directory) =
      files.node (child :: name :: directory) := by
  apply (keptOnWay_makeParents disk files path _).node
  rw [isParent]
  exact not_grandchild_above directory child name name

/-- A write that does not succeed leaves at most its temporary file behind; one
that succeeds replaces the target and nothing else. -/
theorem writeJsonAtomic_cases {files after : Files} {path : FsPath} {document : Json}
    {outcome : Outcome Unit}
    (result : writeJsonAtomic disk files path document = (after, outcome)) :
    (outcome ≠ .value () ∧ ∀ other, other ≠ path.temporary →
      after.node other = (makeParents disk files path).node other) ∨
    (outcome = .value () ∧ document.dumpable = true ∧ ∀ other,
      after.node other =
        if other = path.resolve then some (.file (disk.stored document))
        else if other = path.temporary then none
        else (makeParents disk files path).node other) := by
  unfold writeJsonAtomic at result
  dsimp only at result
  split at result
  · cases result
    exact .inl ⟨nofun, fun _ _ => rfl⟩
  · split at result
    · cases result
      exact .inl ⟨nofun, fun _ _ => rfl⟩
    · rename_i opened openedAt
      have untouched : ∀ other, other ≠ path.temporary →
          opened.node other = (makeParents disk files path).node other :=
        fun other different => (FileSystem.node_write openedAt other).trans (if_neg different)
      split at result
      · cases result
        exact .inl ⟨nofun, untouched⟩
      · rename_i notThrown
        split at result
        · cases result
          exact .inl ⟨nofun, untouched⟩
        · rename_i closed closedAt
          have closedNodes := FileSystem.node_write_write openedAt closedAt
          have stillUntouched : ∀ other, other ≠ path.temporary →
              closed.node other = (makeParents disk files path).node other :=
            fun other different => (closedNodes other).trans (if_neg different)
          split at result
          · cases result
            exact .inl ⟨nofun, stillUntouched⟩
          · split at result
            · cases result
              exact .inl ⟨nofun, stillUntouched⟩
            · rename_i moved
              cases result
              exact .inr ⟨rfl, by simpa using notThrown,
                FileSystem.node_rename_written closedNodes moved⟩

/-- What `upsert` does: it fails and the documents stay, or it writes the
document made for the next version. -/
theorem upsertAt_cases {files after : Files} {path : FsPath} {ifVersion : Option UInt64}
    {document : UInt64 → Option Json → Json} {outcome : Outcome UInt64}
    (result : upsertAt root disk files path ifVersion document = (after, outcome)) :
    ((∀ version, outcome ≠ .value version) ∧ ∀ other, other ≠ path.temporary →
      KeptOnWay files after path.parentPath.resolve other) ∨
    (∃ version existing,
      nextVersion root disk files path.resolve ifVersion = .value (version, existing) ∧
      outcome = .value version ∧ (document version existing).dumpable = true ∧ ∀ other,
        after.node other =
          if other = path.resolve then some (.file (disk.stored (document version existing)))
          else if other = path.temporary then none
          else (makeParents disk files path).node other) := by
  unfold upsertAt at result
  split at result
  · cases result
    exact .inl ⟨by simp, fun _ _ => .inl rfl⟩
  · cases result
    exact .inl ⟨by simp, fun _ _ => .inl rfl⟩
  · rename_i version existing found
    have aside : ∀ {written : Files} {ending : Outcome Unit},
        writeJsonAtomic disk files path (document version existing) = (written, ending) →
        ending ≠ .value () → ∀ other, other ≠ path.temporary →
          KeptOnWay files written path.parentPath.resolve other := by
      intro written ending wrote failed other different
      rcases writeJsonAtomic_cases wrote with ⟨_, kept⟩ | ⟨succeeded, _⟩
      · rw [KeptOnWay, kept other different]
        exact keptOnWay_makeParents disk files path other
      · exact absurd succeeded failed
    unfold writeVersion at result
    split at result
    · rename_i wrote
      cases result
      rcases writeJsonAtomic_cases wrote with ⟨failed, _⟩ | ⟨_, dumpable, nodes⟩
      · exact absurd rfl failed
      · exact .inr ⟨version, existing, found, rfl, dumpable, nodes⟩
    · rename_i wrote
      cases result
      exact .inl ⟨by simp, aside wrote (by simp)⟩
    · rename_i wrote
      cases result
      exact .inl ⟨by simp, aside wrote (by simp)⟩

theorem upsertAt_frame {files after : Files} {path : FsPath} {ifVersion : Option UInt64}
    {document : UInt64 → Option Json → Json} {outcome : Outcome UInt64}
    (result : upsertAt root disk files path ifVersion document = (after, outcome))
    {other : Location} (notTarget : other ≠ path.resolve) (notTemporary : other ≠ path.temporary) :
    KeptOnWay files after path.parentPath.resolve other := by
  rcases upsertAt_cases result with ⟨_, kept⟩ | ⟨version, existing, _, _, _, nodes⟩
  · exact kept other notTemporary
  · rw [KeptOnWay, nodes other, if_neg notTarget, if_neg notTemporary]
    exact keptOnWay_makeParents disk files path other

theorem writeJsonAtomic_reliable (reliable : disk.Reliable) {files : Files} {path : FsPath}
    {document : Json} {target temporary : Str} {parent : Location}
    (isTarget : path.resolve = target :: parent) (isTemporary : path.temporary = temporary :: parent)
    (inDirectory : (makeParents disk files path).node parent = some .directory)
    (targetFree : (makeParents disk files path).node (target :: parent) ≠ some .directory)
    (temporaryFree : (makeParents disk files path).node (temporary :: parent) ≠ some .directory)
    (dumpable : document.dumpable = true) :
    ∃ after, writeJsonAtomic disk files path document = (after, .value ()) := by
  obtain ⟨opened, openedAt⟩ := FileSystem.exists_write inDirectory temporaryFree (.bytes [])
  obtain ⟨closed, closedAt⟩ := FileSystem.exists_write_again openedAt (disk.stored document)
  obtain ⟨moved, movedTo⟩ :=
    FileSystem.exists_rename_written (FileSystem.node_write_write openedAt closedAt) targetFree
  refine ⟨moved, ?_⟩
  simp only [writeJsonAtomic, isTarget, isTemporary, reliable.opens, reliable.accepts,
    reliable.renames, openedAt, closedAt, movedTo, dumpable, Bool.not_true, Bool.or_false]
  rfl

theorem upsertAt_reliable (reliable : disk.Reliable) {files after : Files} {path : FsPath}
    {ifVersion : Option UInt64} {document : UInt64 → Option Json → Json} {outcome : Outcome UInt64}
    {version : UInt64} {existing : Option Json} {target temporary : Str} {parent : Location}
    (result : upsertAt root disk files path ifVersion document = (after, outcome))
    (noFault : ∀ fault, outcome ≠ .exception fault)
    (found : nextVersion root disk files path.resolve ifVersion = .value (version, existing))
    (isTarget : path.resolve = target :: parent) (isTemporary : path.temporary = temporary :: parent)
    (inDirectory : (makeParents disk files path).node parent = some .directory)
    (targetFree : (makeParents disk files path).node (target :: parent) ≠ some .directory)
    (temporaryFree : (makeParents disk files path).node (temporary :: parent) ≠ some .directory) :
    outcome = .value version ∧ ∀ other, after.node other =
      if other = path.resolve then some (.file (.json (document version existing)))
      else if other = path.temporary then none
      else (makeParents disk files path).node other := by
  rcases upsertAt_cases result with ⟨failed, _⟩ | ⟨_, _, same, rfl, _, nodes⟩
  · exfalso
    simp only [upsertAt, found] at result
    cases dumpable : (document version existing).dumpable with
    | true =>
        obtain ⟨written, success⟩ := writeJsonAtomic_reliable reliable isTarget isTemporary
          inDirectory targetFree temporaryFree dumpable
        simp only [writeVersion, success] at result
        exact failed version (Prod.mk.inj result).2.symm
    | false =>
        obtain ⟨opened, openedAt⟩ :=
          FileSystem.exists_write inDirectory temporaryFree (.bytes [])
        simp only [writeVersion, writeJsonAtomic, isTemporary, reliable.opens, openedAt, dumpable]
          at result
        exact noFault _ (Prod.mk.inj result).2.symm
  · cases found.symm.trans same
    have stored : disk.stored (document version existing) = .json (document version existing) := by
      simp only [DiskBehavior.stored, reliable.keeps]
    rw [stored] at nodes
    exact ⟨rfl, nodes⟩

theorem nextVersion_absent (reliable : disk.Reliable) {files : Files} {location : Location}
    (absent : files.node location = none) :
    nextVersion root disk files location none = .value (1, none) := by
  simp [nextVersion, reliable.examines, FileSystem.isPresent, absent]

theorem putBlob_frame {files after : Files} {bytes : Str} {outcome : Outcome Str}
    (result : putBlob root disk files bytes = (after, outcome)) {other : Location}
    (different : other ≠ (blobFile root (fnv1aHex bytes)).resolve) :
    after.node other = files.node other := by
  unfold putBlob at result
  dsimp only at result
  split at result
  · cases result
    rfl
  · split at result
    · cases result
      rfl
    · split at result
      · cases result
        rfl
      · rename_i written
        cases result
        exact (FileSystem.node_write written other).trans (if_neg different)

/-! ### Erasing -/

theorem eraseDag_cases {files after : Files} {name : Str} {ifVersion : Option UInt64}
    {outcome : Outcome Unit} (result : eraseDag root disk files name ifVersion = (after, outcome)) :
    (outcome ≠ .value () ∧ after = files) ∨
    (outcome = .value () ∧ files.isPresent (dagFile root name).resolve = true ∧
      checkVersion root disk files (dagFile root name).resolve ifVersion = .value () ∧
      (disk.removesFile = true → ∀ less,
        files.remove (dagFile root name).resolve = some less →
        ∀ other, other ≠ (dagDirectory root name).resolve → after.node other = less.node other) ∧
      (after.node (dagDirectory root name).resolve = none ∨
        after.node (dagDirectory root name).resolve =
          files.node (dagDirectory root name).resolve) ∧
      ∀ other, other ≠ (dagFile root name).resolve → other ≠ (dagDirectory root name).resolve →
        after.node other = files.node other) := by
  unfold eraseDag at result
  dsimp only at result
  split at result
  · cases result
    exact .inl ⟨nofun, rfl⟩
  · split at result
    · split at result
      · cases result
        exact .inl ⟨nofun, rfl⟩
      · cases result
        exact .inl ⟨nofun, rfl⟩
      · rename_i present _ checked
        cases result
        refine .inr ⟨rfl, present, checked, ?_, ?_, ?_⟩
        · intro removes less removed other different
          rw [FileSystem.node_attempt_of_ne different, if_pos removes, removed]
          rfl
        · rcases FileSystem.node_attempt _ (dagDirectory root name).resolve
            (dagDirectory root name).resolve disk.removesDirectory with none | same
          · exact .inl none
          · rw [same]
            exact FileSystem.node_attempt _ _ _ _
        · intro other notFile notDirectory
          rw [FileSystem.node_attempt_of_ne notDirectory, FileSystem.node_attempt_of_ne notFile]
    · cases result
      exact .inl ⟨nofun, rfl⟩

theorem eraseTask_cases {files after : Files} {dag name : Str} {ifVersion : Option UInt64}
    {outcome : Outcome Unit}
    (result : eraseTask root disk files dag name ifVersion = (after, outcome)) :
    (outcome ≠ .value () ∧ after = files) ∨
    (outcome = .value () ∧ files.isPresent (taskFile root dag name).resolve = true ∧
      checkVersion root disk files (taskFile root dag name).resolve ifVersion = .value () ∧
      ∀ other, after.node other =
        if other = (taskFile root dag name).resolve then none else files.node other) := by
  unfold eraseTask at result
  dsimp only at result
  split at result
  · cases result
    exact .inl ⟨nofun, rfl⟩
  · split at result
    · split at result
      · cases result
        exact .inl ⟨nofun, rfl⟩
      · cases result
        exact .inl ⟨nofun, rfl⟩
      · rename_i present _ checked
        split at result
        · cases result
          exact .inl ⟨nofun, rfl⟩
        · rename_i removed
          cases result
          split at removed
          · exact .inr ⟨rfl, present, checked, FileSystem.node_remove removed⟩
          · cases removed
    · cases result
      exact .inl ⟨nofun, rfl⟩

theorem eraseDag_reliable (reliable : disk.Reliable) {files after : Files} {name : Str}
    {outcome : Outcome Unit} {content : FileContent} (plain : PlainName name)
    (file : files.fileAt (dagFile root name).resolve = some content)
    (result : eraseDag root disk files name none = (after, outcome)) :
    after.node (dagFile root name).resolve = none ∧
    (after.node (dagDirectory root name).resolve = none ∨
      after.node (dagDirectory root name).resolve =
        files.node (dagDirectory root name).resolve) ∧
    ∀ other, other ≠ (dagFile root name).resolve → other ≠ (dagDirectory root name).resolve →
      after.node other = files.node other := by
  rcases eraseDag_cases result with ⟨failed, _⟩ | ⟨_, _, _, removed, directory, kept⟩
  · exfalso
    simp only [eraseDag, reliable.examines, FileSystem.isPresent_of_fileAt file, checkVersion]
      at result
    exact failed (Prod.mk.inj result).2.symm
  · obtain ⟨less, lessRemoved⟩ := FileSystem.exists_remove_file file
    have apart : (dagFile root name).resolve ≠ (dagDirectory root name).resolve := by
      rw [resolve_dagFile root plain.noNul]
      simp
    refine ⟨?_, directory, kept⟩
    rw [removed reliable.removesFile less lessRemoved _ apart, FileSystem.node_remove lessRemoved,
      if_pos rfl]

theorem eraseTask_reliable (reliable : disk.Reliable) {files after : Files} {dag name : Str}
    {outcome : Outcome Unit}
    (result : eraseTask root disk files dag name none = (after, outcome))
    (notDirectory : files.node (taskFile root dag name).resolve ≠ some .directory)
    (other : Location) :
    after.node other =
      if other = (taskFile root dag name).resolve then none else files.node other := by
  rcases eraseTask_cases result with ⟨failed, rfl⟩ | ⟨_, _, _, nodes⟩
  · split
    · subst other
      cases present : after.node (taskFile root dag name).resolve with
      | none => rfl
      | some node =>
          cases node with
          | directory => exact absurd present notDirectory
          | file content =>
              have file := FileSystem.fileAt_eq_some.mpr present
              obtain ⟨less, removed⟩ := FileSystem.exists_remove_file file
              simp only [eraseTask, reliable.examines, FileSystem.isPresent_of_fileAt file,
                checkVersion, reliable.removesFile, removed] at result
              exact absurd (Prod.mk.inj result).2.symm failed
    · rfl
  · exact nodes other

/-! ### The root that the program uses -/

/-- Stores below the directory `data`; no foreign bytes are documents. -/
def dataRoot : StoreRoot where
  path := [ascii "data"]
  nulFree := by decide
  parseBytes _ := none

/-- The tree right after the stores were constructed. -/
def freshFiles : Files := construct dataRoot .reliable .empty

def bareTask (associatedDag name : Str) : ShyguyTask where
  name := name
  associatedDag := associatedDag
  type := none
  filename := none
  fileContent := none
  dependencyNames := none

end BabyLuigi.FsStorage
