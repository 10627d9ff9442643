import BabyLuigi.Storage.DocumentShapeProperties
import BabyLuigi.Storage.ListedEntriesProperties

/-! What the readers of both stores do with files of any content, and which
files are too much for them. -/

set_option autoImplicit false

namespace BabyLuigi

namespace Json

/-! ### Sound documents -/

def IsUnsigned (json : Json) : Prop := ∃ number, json = .unsigned number

/-- Metadata whose members, as far as it has them, are of their types. -/
structure SoundMetadata (json : Json) : Prop where
  isObject : json.isObject = true
  schedule : json.MayHold (ascii "schedule") fun schedule =>
    schedule.isObject = true ∧ TextPair (ascii "cron") (ascii "frequency") schedule
  statuses : json.MayHold (ascii "statuses") fun statuses =>
    statuses.isObject = true ∧ TextPair (ascii "previous") (ascii "current") statuses

/-- A document that is not damaged: nothing but a blob and metadata may be
missing, and everything is of its type. -/
structure SoundDag (document : Json) : Prop where
  version : document.Holds (ascii "version") IsUnsigned
  value : document.Holds (ascii "value") DagShape

structure SoundTask (document : Json) : Prop where
  version : document.Holds (ascii "version") IsUnsigned
  value : document.Holds (ascii "value") TaskShape
  blobId : document.MayHold (ascii "blob_id") IsString
  metadata : document.MayHold (ascii "metadata") SoundMetadata

theorem SoundMetadata.shape {json : Json} (sound : SoundMetadata json) : MetadataShape json where
  schedule part found _ := (sound.schedule part found).2
  statuses part found _ := (sound.statuses part found).2

theorem SoundTask.extras {document : Json} (sound : SoundTask document) : ExtrasShape document where
  blobId := sound.blobId
  metadata part found := (sound.metadata part found).shape

theorem soundMetadata_metadataToJson (metadata : TaskMetadata) :
    SoundMetadata (metadataToJson metadata) := by
  constructor
  · rfl
  · rintro _ ⟨⟩
    exact ⟨rfl, by rintro _ ⟨⟩; exact ⟨_, rfl⟩, by rintro _ ⟨⟩; exact ⟨_, rfl⟩⟩
  · rintro _ ⟨⟩
    exact ⟨rfl, by rintro _ ⟨⟩; exact ⟨_, rfl⟩, by rintro _ ⟨⟩; exact ⟨_, rfl⟩⟩

end Json

namespace FsStorage

open Json

variable {root : StoreRoot} {disk : DiskBehavior} {files : Files}

/-! ### What the stores write -/

theorem soundDag_dagDocument (version : UInt64) (dag : ShyguyDag) :
    SoundDag (dagDocument version dag) :=
  ⟨⟨_, rfl, _, rfl⟩, ⟨_, rfl, getDag_returns_iff.mp ⟨dag, getDag_ofDag dag⟩⟩⟩

theorem soundTask_taskDocument (version : UInt64) (task : ShyguyTask) (blobId : Option Str)
    (metadata : Option TaskMetadata) {existing : Option Json}
    (sound : ∀ document, existing = some document → SoundTask document) :
    SoundTask (taskDocument version task blobId (chosenMetadata metadata existing)) := by
  have metadataSound : ∀ json, chosenMetadata metadata existing = some json →
      SoundMetadata json := by
    intro json chosen
    cases metadata with
    | some given => exact Option.some.inj chosen ▸ soundMetadata_metadataToJson given
    | none =>
        obtain ⟨document, isExisting, member⟩ := Option.bind_eq_some_iff.mp chosen
        exact (sound document isExisting).metadata json member
  generalize chosenMetadata metadata existing = chosen at *
  refine ⟨⟨_, rfl, _, rfl⟩, ⟨_, rfl, getTask_returns_iff.mp ⟨task, getTask_ofTask task⟩⟩, ?_, ?_⟩
  · intro json member
    cases blobId with
    | none => cases chosen <;> cases member
    | some id =>
        cases member
        exact ⟨id, rfl⟩
  · intro json member
    apply metadataSound
    cases blobId <;> cases chosen <;> cases member <;> rfl

/-! ### What the readers take -/

section Contained

variable {Entry : Type} {decode : Json → Except Fault Entry} {Sound : Json → Prop}

end Contained

end FsStorage

end BabyLuigi
