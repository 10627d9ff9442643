import BabyLuigi.Storage.Json
import BabyLuigi.Storage.Path
import BabyLuigi.Support.FileSystem

/-!
# File-backed storage

The blob, DAG and task stores over one directory tree. Each call holds the
mutex of its store, so it is one step on the tree; the disk may fail any
operation of it.
-/

set_option autoImplicit false

namespace BabyLuigi

/-- What a file holds: the text of a JSON document, given by its value; the
beginning of such a text, which no reader accepts; or other bytes. -/
inductive FileContent where
  | json (value : Json)
  | truncated (text : Str)
  | bytes (raw : Str)

abbrev Files := FileSystem Str FileContent

/-- The root of the stores, which the program names itself, and how the JSON
reader takes bytes that no store wrote as a document. -/
structure StoreRoot where
  path : FsPath
  nulFree : path.NulFree
  parseBytes : Str → Option Json

/-- How the disk serves one call. The text of a stream may get lost when the
stream is closed, which nobody notices. -/
structure DiskBehavior where
  examines : Bool
  reads : Bool
  createsDirectories : Bool
  opens : Bool
  accepts : Bool
  keeps : Option Str
  renames : Bool
  removesFile : Bool
  removesDirectory : Bool
  order : List Str → List Str
  order_perm : ∀ names, (order names).Perm names

/-- Every operation on the disk succeeds. -/
structure DiskBehavior.Reliable (disk : DiskBehavior) : Prop where
  examines : disk.examines = true
  reads : disk.reads = true
  createsDirectories : disk.createsDirectories = true
  opens : disk.opens = true
  accepts : disk.accepts = true
  keeps : disk.keeps = none
  renames : disk.renames = true
  removesFile : disk.removesFile = true
  removesDirectory : disk.removesDirectory = true

def DiskBehavior.reliable : DiskBehavior where
  examines := true
  reads := true
  createsDirectories := true
  opens := true
  accepts := true
  keeps := none
  renames := true
  removesFile := true
  removesDirectory := true
  order names := names
  order_perm _ := .refl _

theorem DiskBehavior.reliable_reliable : DiskBehavior.reliable.Reliable := by
  constructor <;> rfl

/-- What a closed stream leaves of a document. -/
def DiskBehavior.stored (disk : DiskBehavior) (document : Json) : FileContent :=
  match disk.keeps with
  | none => .json document
  | some text => .truncated text

namespace FsStorage

variable (root : StoreRoot) (disk : DiskBehavior)

def dagDir : FsPath := (root.path.append (ascii "metadata")).append (ascii "dags")

def taskDir : FsPath := (root.path.append (ascii "metadata")).append (ascii "tasks")

def blobsDir : FsPath := root.path.append (ascii "blobs")

def dagDirectory (name : Str) : FsPath := (dagDir root).append name

def dagFile (name : Str) : FsPath := (dagDirectory root name).append (ascii "dag.json")

def taskDirectory (dag : Str) : FsPath := (taskDir root).append dag

def taskFile (dag name : Str) : FsPath := (taskDirectory root dag).append (name ++ ascii ".json")

def readContent : FileContent → Except StorageError Json
  | .json value => .ok value
  | .truncated _ => .error .corrupt
  | .bytes raw =>
    match root.parseBytes raw with
    | some value => .ok value
    | none => .error .corrupt

/-- A directory opens but cannot be read from. -/
def readJson (files : Files) (location : Location) : Except StorageError Json :=
  if !disk.reads then .error .notFound
  else
    match files.node location with
    | none => .error .notFound
    | some .directory => .error .corrupt
    | some (.file content) => readContent root content

/-- Creates the directories above a path, ignoring failures. -/
def makeParents (files : Files) (path : FsPath) : Files :=
  if disk.createsDirectories then files.createDirectories path.parentPath.resolve else files

def writeJsonAtomic (files : Files) (path : FsPath) (document : Json) : Files × Outcome Unit :=
  let files := makeParents disk files path
  if !disk.opens then (files, .error .io)
  else
    match files.write path.temporary (.bytes []) with
    | none => (files, .error .io)
    | some opened =>
      if !document.dumpable then (opened, .exception .jsonException)
      else
        match opened.write path.temporary (disk.stored document) with
        | none => (opened, .error .io)
        | some closed =>
          if !disk.accepts || !disk.renames then (closed, .error .io)
          else
            match closed.rename path.temporary path.resolve with
            | none => (closed, .error .io)
            | some renamed => (renamed, .value ())

/-- The check that both `upsert` functions make before they write: the new
version and the document that is replaced. -/
def nextVersion (files : Files) (location : Location) (ifVersion : Option UInt64) :
    Outcome (UInt64 × Option Json) :=
  if !disk.examines then .exception .filesystemError
  else if files.isPresent location then
    match readJson root disk files location with
    | .error error => .error error
    | .ok current =>
      match current.version with
      | .error fault => .exception fault
      | .ok version =>
        if ifVersion.any fun expected => version != expected then .error .conflict
        else .value (version + 1, some current)
  else if ifVersion.any fun expected => expected != 0 then .error .conflict
  else .value (1, none)

/-- The write that both `upsert` functions end with. -/
def writeVersion (files : Files) (path : FsPath) (version : UInt64) (document : Json) :
    Files × Outcome UInt64 :=
  match writeJsonAtomic disk files path document with
  | (files, .value ()) => (files, .value version)
  | (files, .error error) => (files, .error error)
  | (files, .exception fault) => (files, .exception fault)

/-- What both `upsert` functions do with the path of their key and the document
they make of the new version and the old document. -/
def upsertAt (files : Files) (path : FsPath) (ifVersion : Option UInt64)
    (document : UInt64 → Option Json → Json) : Files × Outcome UInt64 :=
  match nextVersion root disk files path.resolve ifVersion with
  | .exception fault => (files, .exception fault)
  | .error error => (files, .error error)
  | .value (newVersion, existing) =>
    writeVersion disk files path newVersion (document newVersion existing)

def dagDocument (version : UInt64) (dag : ShyguyDag) : Json :=
  .object [(ascii "version", .unsigned version.toNat), (ascii "value", .ofDag dag)]

def upsertDag (files : Files) (dag : ShyguyDag) (ifVersion : Option UInt64) :
    Files × Outcome UInt64 :=
  upsertAt root disk files (dagFile root dag.name) ifVersion fun newVersion _ =>
    dagDocument newVersion dag

/-- An entry from its parts, in the order in which they are read. -/
def decodeEntry {Value Extras Entry : Type} (decodeValue : Json → Except Fault Value)
    (decodeExtras : Json → Except Fault Extras) (makeEntry : UInt64 → Value → Extras → Entry)
    (document : Json) : Except Fault Entry := do
  let version ← document.version
  let value ← decodeValue document
  let extras ← decodeExtras document
  return makeEntry version value extras

def decodeDagValue (document : Json) : Except Fault ShyguyDag := do
  (← document.at' (ascii "value")).getDag

def dagEntry (version : UInt64) (value : ShyguyDag) (_ : Unit) : DagEntry where
  value := value
  version := version

def decodeDag : Json → Except Fault DagEntry :=
  decodeEntry decodeDagValue (fun _ => .ok ()) dagEntry

def getDag (files : Files) (name : Str) : Outcome DagEntry :=
  match readJson root disk files (dagFile root name).resolve with
  | .error error => .error error
  | .ok document =>
    match decodeDag document with
    | .error fault => .exception fault
    | .ok entry => .value entry

/-- The entries of a list: unreadable documents and undecodable values are
passed over, but only the value is decoded inside of the `try`. -/
def collect {Value Extras Entry : Type} (decodeValue : Json → Except Fault Value)
    (decodeExtras : Json → Except Fault Extras) (makeEntry : UInt64 → Value → Extras → Entry) :
    List (Except StorageError Json) → Outcome (List Entry)
  | [] => .value []
  | .error _ :: rest => collect decodeValue decodeExtras makeEntry rest
  | .ok document :: rest =>
    match document.version with
    | .error fault => .exception fault
    | .ok version =>
      match decodeValue document with
      | .error _ => collect decodeValue decodeExtras makeEntry rest
      | .ok value =>
        match decodeExtras document with
        | .error fault => .exception fault
        | .ok extras =>
          (collect decodeValue decodeExtras makeEntry rest).map (makeEntry version value extras :: ·)

def listDags (files : Files) : Outcome (List DagEntry) :=
  let directory := (dagDir root).resolve
  if !disk.examines || !files.isPresent directory then .value []
  else if !disk.reads || !files.isDirectory directory then .exception .filesystemError
  else
    collect decodeDagValue (fun _ => .ok ()) dagEntry
      (((disk.order (files.children directory)).filter fun name =>
        files.isDirectory (name :: directory)).map fun name =>
          readJson root disk files (ascii "dag.json" :: name :: directory))

/-- The check that both `erase` functions make before they remove. -/
def checkVersion (files : Files) (location : Location) (ifVersion : Option UInt64) :
    Outcome Unit :=
  match ifVersion with
  | none => .value ()
  | some expected =>
    match readJson root disk files location with
    | .error error => .error error
    | .ok document =>
      match document.version with
      | .error fault => .exception fault
      | .ok version => if version != expected then .error .conflict else .value ()

def eraseDag (files : Files) (name : Str) (ifVersion : Option UInt64) : Files × Outcome Unit :=
  let location := (dagFile root name).resolve
  if !disk.examines then (files, .exception .filesystemError)
  else if files.isPresent location then
    match checkVersion root disk files location ifVersion with
    | .exception fault => (files, .exception fault)
    | .error error => (files, .error error)
    | .value () =>
      let files := if disk.removesFile then (files.remove location).getD files else files
      let directory := (dagDirectory root name).resolve
      let files := if disk.removesDirectory then (files.remove directory).getD files else files
      (files, .value ())
  else (files, .error .notFound)

def taskDocument (version : UInt64) (task : ShyguyTask) (blobId : Option Str)
    (metadata : Option Json) : Json :=
  .object ([(ascii "version", .unsigned version.toNat), (ascii "value", .ofTask task)] ++
    blobId.toList.map (fun id => (ascii "blob_id", .string id)) ++
    metadata.toList.map fun json => (ascii "metadata", json))

/-- New metadata wins over what the replaced document holds. -/
def chosenMetadata (metadata : Option TaskMetadata) (existing : Option Json) : Option Json :=
  match metadata with
  | some metadata => some (Json.metadataToJson metadata)
  | none => existing.bind fun document => document.member (ascii "metadata")

def upsertTask (files : Files) (task : ShyguyTask) (blobId : Option Str)
    (ifVersion : Option UInt64) (metadata : Option TaskMetadata) : Files × Outcome UInt64 :=
  upsertAt root disk files (taskFile root task.associatedDag task.name) ifVersion
    fun newVersion existing =>
      taskDocument newVersion task blobId (chosenMetadata metadata existing)

/-- The members of a task document besides its version and its task. -/
def decodeTaskExtras (document : Json) : Except Fault (Option Str × Option TaskMetadata) := do
  let blobId ←
    if document.contains (ascii "blob_id") then (document.stringOr (ascii "blob_id") []).map some
    else pure none
  let metadata ←
    match document.member (ascii "metadata") with
    | some json => Json.metadataFromJson json
    | none => pure none
  return (blobId, metadata)

def decodeTaskValue (document : Json) : Except Fault ShyguyTask := do
  (← document.at' (ascii "value")).getTask

def taskEntry (version : UInt64) (value : ShyguyTask)
    (extras : Option Str × Option TaskMetadata) : TaskEntry where
  value := value
  version := version
  blobId := extras.1
  metadata := extras.2

def decodeTask : Json → Except Fault TaskEntry :=
  decodeEntry decodeTaskValue decodeTaskExtras taskEntry

def getTask (files : Files) (dag name : Str) : Outcome TaskEntry :=
  match readJson root disk files (taskFile root dag name).resolve with
  | .error error => .error error
  | .ok document =>
    match decodeTask document with
    | .error fault => .exception fault
    | .ok entry => .value entry

def listTasks (files : Files) (dag : Str) : Outcome (List TaskEntry) :=
  let directory := (taskDirectory root dag).resolve
  if !disk.examines || !files.isPresent directory then .value []
  else if !disk.reads || !files.isDirectory directory then .exception .filesystemError
  else
    collect decodeTaskValue decodeTaskExtras taskEntry
      (((disk.order (files.children directory)).filter fun name =>
        (files.fileAt (name :: directory)).isSome).map fun name =>
          readJson root disk files (name :: directory))

def eraseTask (files : Files) (dag name : Str) (ifVersion : Option UInt64) :
    Files × Outcome Unit :=
  let location := (taskFile root dag name).resolve
  if !disk.examines then (files, .exception .filesystemError)
  else if files.isPresent location then
    match checkVersion root disk files location ifVersion with
    | .exception fault => (files, .exception fault)
    | .error error => (files, .error error)
    | .value () =>
      match if disk.removesFile then files.remove location else none with
      | none => (files, .error .io)
      | some files => (files, .value ())
  else (files, .error .notFound)

/-! ### Blobs -/

def fnv1aOffset : UInt64 := 1469598103934665603

def fnv1aPrime : UInt64 := 1099511628211

def hexDigit (value : Nat) : UInt8 :=
  if value < 10 then (48 + value).toUInt8 else (87 + value).toUInt8

/-- Sixteen hexadecimal digits, leading zeros included. -/
def hex16 (value : UInt64) : Str :=
  (List.range 16).reverse.map fun position => hexDigit (value.toNat / 16 ^ position % 16)

def fnv1aHex (bytes : Str) : Str :=
  hex16 (bytes.foldl (fun hash byte => (hash ^^^ byte.toUInt64) * fnv1aPrime) fnv1aOffset)

def blobFile (id : Str) : FsPath := (blobsDir root).append (id ++ ascii ".bin")

def putBlob (files : Files) (bytes : Str) : Files × Outcome Str :=
  let id := fnv1aHex bytes
  let location := (blobFile root id).resolve
  if disk.examines && files.isPresent location then (files, .value id)
  else if !disk.opens then (files, .error .io)
  else
    let content : FileContent :=
      match disk.keeps with
      | none => .bytes bytes
      | some text => .bytes text
    match files.write location content with
    | none => (files, .error .io)
    | some files => (files, if disk.accepts then .value id else .error .io)

/-- The bytes of a file, given how documents are printed. -/
def contentBytes (print : Json → Str) : FileContent → Str
  | .json value => print value
  | .truncated text => text
  | .bytes raw => raw

/-- A directory opens, but the buffer of the stream throws when it is read. -/
def getBlob (print : Json → Str) (files : Files) (id : Str) : Outcome Str :=
  if !disk.reads then .error .notFound
  else
    match files.node (blobFile root id).resolve with
    | none => .error .notFound
    | some .directory => .exception .filesystemError
    | some (.file content) => .value (contentBytes print content)

/-- An examination that fails answers `false`, as an absent file does. -/
def hasBlob (files : Files) (id : Str) : Outcome Bool :=
  .value (disk.examines && files.isPresent (blobFile root id).resolve)

/-- The constructors of the three stores. -/
def construct (files : Files) : Files :=
  if disk.createsDirectories then
    ((files.createDirectories (blobsDir root).resolve).createDirectories
      (dagDir root).resolve).createDirectories (taskDir root).resolve
  else files

/-- The storage over a tree, the disk serving each store in its own way. -/
def storage (blobDisk dagDisk taskDisk : DiskBehavior) : Storage Files where
  putBlob := putBlob root blobDisk
  upsertDag := upsertDag root dagDisk
  getDag := getDag root dagDisk
  listDags := listDags root dagDisk
  eraseDag := eraseDag root dagDisk
  upsertTask := upsertTask root taskDisk
  getTask := getTask root taskDisk
  listTasks := listTasks root taskDisk
  eraseTask := eraseTask root taskDisk

end FsStorage

end BabyLuigi
