import BabyLuigi.Storage.StoreMapsProperties

/-! Which numbers the successive writes of one key return, and up to which write
they count them: a version is stored as 64 bits and read back as an `int`. -/

set_option autoImplicit false

namespace BabyLuigi.VersionedStore

open FsStorage

/-! ### Read back -/

variable {root : StoreRoot} {Key Value : Type} (store : VersionedStore Key Value)

variable {store} {own : UInt64 → Json → Prop}

end BabyLuigi.VersionedStore
