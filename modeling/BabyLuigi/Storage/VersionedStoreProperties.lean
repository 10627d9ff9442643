import BabyLuigi.Storage.FsStorageProperties
import BabyLuigi.Storage.VersionedStore

/-! No write is lost between learning a version and relying on it, as long as
the file is not erased in between: the version in the file counts the writes
modulo 2^32. -/

set_option autoImplicit false

namespace BabyLuigi

/-! ### Versions in documents -/

namespace VersionedStore

open FsStorage

variable {root : StoreRoot} {Key Value : Type} {store : VersionedStore Key Value}

/-- What the stores of DAGs and of tasks have in common. -/
structure Versioned (root : StoreRoot) (store : VersionedStore Key Value) (admits : Key → Prop) :
    Prop where
  isDocument : ∀ key, admits key → (store.file key).IsDocument
  upsert_eq : ∀ value ifVersion, ∃ document : UInt64 → Option Json → Json,
    (∀ version existing, ∃ rest, document version existing =
      .object ((ascii "version", .unsigned version.toNat) :: rest)) ∧
    ∀ disk files, store.upsert disk files value ifVersion =
      upsertAt root disk files (store.file (store.keyOf value)) ifVersion document
  version_found : ∀ disk files key version, store.version disk files key = .value version →
    ∃ document, readJson root disk files (store.file key).resolve = .ok document ∧
      document.version = .ok version
  erase_checked : ∀ disk files key ifVersion after,
    store.erase disk files key ifVersion = (after, .value ()) →
    checkVersion root disk files (store.file key).resolve ifVersion = .value ()
  erase_keeps : ∀ disk files key ifVersion after outcome other content, admits key →
    store.erase disk files key ifVersion = (after, outcome) → files.fileAt other = some content →
    (outcome = .value () → other ≠ (store.file key).resolve) → after.fileAt other = some content

variable {admits : Key → Prop}

theorem Run.next {files : Files} {history : List (Record Key Value)} (run : store.Run files history)
    (disk : DiskBehavior) (client : Nat) (call : Call Key Value)
    {answer : Outcome (Option UInt64)} (told : (store.perform disk files call).2 = answer) :
    store.Run (store.perform disk files call).1 (⟨client, call, answer⟩ :: history) :=
  .call run (Prod.ext rfl told)

/-! ### Versions wrap around -/

/-- The version that is read back after a version was stored. -/
def reread (version : UInt64) : UInt64 := Json.versionOfInt (Int.bmod version.toNat (2 ^ 32))

structure Written (root : StoreRoot) (files : Files) (dag : ShyguyDag) (version : UInt64) : Prop where
  file : files.node (dagFile root dag.name).resolve =
    some (.file (.json (dagDocument version dag)))
  noTemporary : files.node (dagFile root dag.name).temporary = none

theorem Written.upsert {disk : DiskBehavior} (reliable : disk.Reliable) {files : Files}
    {dag : ShyguyDag} (plain : PlainName dag.name) {version : UInt64}
    (dumpable : ∀ version, (dagDocument version dag).dumpable = true)
    (written : Written root files dag version) (ifVersion : Option UInt64)
    (expected : ∀ other, ifVersion = some other → reread version = other) :
    ∃ after, upsertDag root disk files dag ifVersion = (after, .value (reread version + 1)) ∧
      Written root after dag (reread version + 1) := by
  obtain ⟨isTarget, isTemporary, isParent⟩ := dagFile_locations root plain
  obtain ⟨file, noTemporary⟩ := written
  have found : nextVersion root disk files (dagFile root dag.name).resolve ifVersion =
      .value (reread version + 1, some (dagDocument version dag)) := by
    have present : files.isPresent (dagFile root dag.name).resolve = true := by
      rw [FileSystem.isPresent, file]
      rfl
    have document_read : readJson root disk files (dagFile root dag.name).resolve =
        .ok (dagDocument version dag) := by
      simp [readJson, reliable.reads, file, readContent]
    have versionFound : (dagDocument version dag).version = .ok (reread version) := rfl
    simp only [nextVersion, reliable.examines, present, document_read, versionFound]
    cases ifVersion with
    | none => rfl
    | some other => simp [expected other rfl]
  have aside := node_makeParents_grandchild disk files isParent
  have directory : (makeParents disk files (dagFile root dag.name)).node
      (dag.name :: (dagDir root).resolve) = some .directory := by
    refine (keptOnWay_makeParents disk files _ _).directory ?_
    rw [isTarget] at file
    exact FileSystem.node_parent file
  obtain ⟨after, success⟩ := writeJsonAtomic_reliable reliable isTarget isTemporary directory
    (by rw [aside, ← isTarget, file]; simp) (by rw [aside, ← isTemporary, noTemporary]; simp)
    (dumpable (reread version + 1))
  rcases writeJsonAtomic_cases success with ⟨failed, _⟩ | ⟨_, _, nodes⟩
  · exact absurd rfl failed
  · have stored : disk.stored (dagDocument (reread version + 1) dag) =
        .json (dagDocument (reread version + 1) dag) := by
      simp only [DiskBehavior.stored, reliable.keeps]
    have apart : (dagFile root dag.name).temporary ≠ (dagFile root dag.name).resolve :=
      ((isDocument_dagFile root plain.noNul).resolve_ne_temporary
        (isDocument_dagFile root plain.noNul)).symm
    refine ⟨after, by simp only [upsertDag, upsertAt, found, writeVersion, success], ?_, ?_⟩
    · rw [nodes, if_pos rfl, stored]
    · rw [nodes, if_neg apart, if_pos rfl]

/-- The version that is stored when the given number of writes follow one. -/
def versionAfter (version : UInt64) : Nat → UInt64
  | 0 => version
  | writes + 1 => reread (versionAfter version writes) + 1

theorem Written.run {files : Files} {history : List (Record Str ShyguyDag)} {dag : ShyguyDag}
    (plain : PlainName dag.name) (dumpable : ∀ version, (dagDocument version dag).dumpable = true)
    {version : UInt64} (run : (dags root).Run files history)
    (written : Written root files dag version) (writes : Nat) :
    ∃ after between, (dags root).Run after (between ++ history) ∧
      Written root after dag (versionAfter version writes) ∧ between.length = writes ∧
      ∀ record ∈ between, ∃ told, record = ⟨1, .upsert dag none, .value (some told)⟩ := by
  induction writes with
  | zero => exact ⟨files, [], run, written, rfl, by simp⟩
  | succ writes ih =>
      obtain ⟨middle, between, middleRun, middleWritten, length, shape⟩ := ih
      obtain ⟨after, result, afterWritten⟩ :=
        middleWritten.upsert DiskBehavior.reliable_reliable plain dumpable none nofun
      have performed : (dags root).perform .reliable middle (.upsert dag none) =
          (after, .value (some (reread (versionAfter version writes) + 1))) := by
        simp only [perform, dags, result, Outcome.map_value]
      refine ⟨after, ⟨1, .upsert dag none, _⟩ :: between, .call middleRun performed, afterWritten,
        by simp [length], ?_⟩
      intro record member
      rcases List.mem_cons.mp member with rfl | member
      · exact ⟨_, rfl⟩
      · exact shape record member

def upsertBareTask (associatedDag name : Str) (ifVersion : Option UInt64) :
    Call (Str × Str) TaskUpsert :=
  .upsert { task := bareTask associatedDag name, blobId := none, metadata := none } ifVersion

end VersionedStore

end BabyLuigi
