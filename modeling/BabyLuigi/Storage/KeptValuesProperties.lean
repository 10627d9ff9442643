import BabyLuigi.Storage.LastStoredProperties

/-! The DAG and task stores as one map from keys to values, whatever versions
and metadata their documents carry, and what the readers of the stores see of it. -/

set_option autoImplicit false

namespace BabyLuigi.FsStorage

/-! ### One store -/

section

variable {Entry Value : Type} {decode : Json → Except Fault Entry} {valueOf : Entry → Value}

/-- The document is read as an entry of the value. -/
def ReadAs (decode : Json → Except Fault Entry) (valueOf : Entry → Value) (document : Json)
    (value : Value) : Prop :=
  ∃ entry, decode document = .ok entry ∧ valueOf entry = value

/-- A read that finds nothing is an error. -/
def foundOrNot : Option Value → Outcome Value
  | none => .error .notFound
  | some value => .value value

theorem exists_value {document : Json} {value : Option Value}
    (represented : Option.Rel (ReadAs decode valueOf) (some document) value) :
    ∃ entry, decode document = .ok entry ∧ value = some (valueOf entry) := by
  cases represented with
  | some read =>
      obtain ⟨entry, decoded, same⟩ := read
      exact ⟨entry, decoded, by rw [same]⟩

theorem exists_document {held : Option Json} {value : Value}
    (represented : Option.Rel (ReadAs decode valueOf) held (some value)) :
    ∃ document entry, held = some document ∧ decode document = .ok entry ∧
      valueOf entry = value := by
  cases represented with
  | some read =>
      obtain ⟨entry, decoded, same⟩ := read
      exact ⟨_, entry, rfl, decoded, same⟩

variable {nameOf : Value → Str} {documents : Str → Option Json} {values : Str → Option Value}

theorem exists_named
    (represents : ∀ name, Option.Rel (ReadAs decode valueOf) (documents name) (values name))
    (named : ∀ name value, values name = some value → nameOf value = name) (name : Str)
    (document : Json) (held : documents name = some document) :
    ∃ entry, decode document = .ok entry ∧ nameOf (valueOf entry) = name := by
  have represented := represents name
  rw [held] at represented
  obtain ⟨entry, decoded, isValue⟩ := exists_value represented
  exact ⟨entry, decoded, named name _ isValue⟩

/-- A list shows the values, each under its name. -/
theorem mem_listed {entries : List Entry}
    (represents : ∀ name, Option.Rel (ReadAs decode valueOf) (documents name) (values name))
    (named : ∀ name value, values name = some value → nameOf value = name)
    (lists : Lists (fun name => (documents name).bind fun document =>
      (decode document).toOption) entries) (value : Value) :
    value ∈ entries.map valueOf ↔ values (nameOf value) = some value := by
  constructor
  · intro member
    obtain ⟨entry, listed, rfl⟩ := List.mem_map.mp member
    obtain ⟨name, found⟩ := (lists.exact entry).mp listed
    obtain ⟨document, held, decoded⟩ := Option.bind_eq_some_iff.mp found
    have represented := represents name
    rw [held] at represented
    obtain ⟨known, knownDecoded, isValue⟩ := exists_value represented
    cases (toOption_eq_some.mp decoded).symm.trans knownDecoded
    rwa [named name _ isValue]
  · intro isValue
    have represented := represents (nameOf value)
    rw [isValue] at represented
    obtain ⟨document, entry, held, decoded, rfl⟩ := exists_document represented
    refine List.mem_map_of_mem ((lists.exact entry).mpr ⟨nameOf (valueOf entry), ?_⟩)
    exact Option.bind_eq_some_iff.mpr ⟨document, held, toOption_eq_some.mpr decoded⟩

end

/-! ### Both stores -/

/-- The values that can lie under a key: those that name it. -/
abbrev Stored : StoreKey → Type
  | .dag name => { dag : ShyguyDag // dag.name = name }
  | .task dag name => { task : ShyguyTask // task.associatedDag = dag ∧ task.name = name }

abbrev StoredValues := (key : StoreKey) → Option (Stored key)

def Represents : (key : StoreKey) → Json → Stored key → Prop
  | .dag _, document, dag => ReadAs decodeDag DagEntry.value document dag.val
  | .task _ _, document, task => ReadAs decodeTask TaskEntry.value document task.val

variable {root : StoreRoot} {disk : DiskBehavior} {files after : Files} {kept : StoredValues}
  {documents : StoreKey → Option Json}

/-- The stores hold a document for each of the values, and no other document. -/
def StoresKept (root : StoreRoot) (files : Files) (kept : StoredValues) : Prop :=
  ∃ documents, StoresDocuments root files documents ∧
    ∀ key, Option.Rel (Represents key) (documents key) (kept key)

theorem storesKept_construct (reliable : disk.Reliable) (empty : EmptyRoot root files) :
    StoresKept root (construct root disk files) fun _ => none :=
  ⟨_, storesDocuments_construct reliable empty, fun _ => .none⟩

/-- The DAGs that are kept, by name. -/
def keptDag (kept : StoredValues) (name : Str) : Option ShyguyDag :=
  (kept (.dag name)).map Subtype.val

def keptTask (kept : StoredValues) (dag name : Str) : Option ShyguyTask :=
  (kept (.task dag name)).map Subtype.val

theorem rel_keptDag (represents : ∀ key, Option.Rel (Represents key) (documents key) (kept key))
    (name : Str) :
    Option.Rel (ReadAs decodeDag DagEntry.value) (documents (.dag name)) (keptDag kept name) := by
  have represented := represents (.dag name)
  rw [keptDag]
  generalize documents (.dag name) = held at represented ⊢
  generalize kept (.dag name) = value at represented ⊢
  cases represented with
  | none => exact .none
  | some read => exact .some read

theorem rel_keptTask (represents : ∀ key, Option.Rel (Represents key) (documents key) (kept key))
    (dag name : Str) :
    Option.Rel (ReadAs decodeTask TaskEntry.value) (documents (.task dag name))
      (keptTask kept dag name) := by
  have represented := represents (.task dag name)
  rw [keptTask]
  generalize documents (.task dag name) = held at represented ⊢
  generalize kept (.task dag name) = value at represented ⊢
  cases represented with
  | none => exact .none
  | some read => exact .some read

theorem keptDag_named {name : Str} {dag : ShyguyDag} (held : keptDag kept name = some dag) :
    dag.name = name := by
  obtain ⟨stored, _, rfl⟩ := Option.map_eq_some_iff.mp held
  exact stored.property

theorem keptTask_named {dag name : Str} {task : ShyguyTask}
    (held : keptTask kept dag name = some task) : task.associatedDag = dag ∧ task.name = name := by
  obtain ⟨stored, _, rfl⟩ := Option.map_eq_some_iff.mp held
  exact stored.property

@[simp] theorem keptDag_update_dag (name other : Str) (value : Option (Stored (.dag name))) :
    keptDag (Function.update kept (.dag name) value) other =
      if other = name then value.map Subtype.val else keptDag kept other := by
  split
  · subst other
    rw [keptDag, Function.update_self]
  · rw [keptDag, Function.update_of_ne (by simpa)]
    rfl

@[simp] theorem keptDag_update_task (dag name other : Str)
    (value : Option (Stored (.task dag name))) :
    keptDag (Function.update kept (.task dag name) value) other = keptDag kept other := by
  rw [keptDag, Function.update_of_ne (by simp)]
  rfl

@[simp] theorem keptTask_update_dag (name dag task : Str) (value : Option (Stored (.dag name))) :
    keptTask (Function.update kept (.dag name) value) dag task = keptTask kept dag task := by
  rw [keptTask, Function.update_of_ne (by simp)]
  rfl

@[simp] theorem keptTask_update_task (dag name otherDag other : Str)
    (value : Option (Stored (.task dag name))) :
    keptTask (Function.update kept (.task dag name) value) otherDag other =
      if otherDag = dag ∧ other = name then value.map Subtype.val
      else keptTask kept otherDag other := by
  split
  · rename_i same
    obtain ⟨rfl, rfl⟩ := same
    rw [keptTask, Function.update_self]
  · rename_i different
    have aside : StoreKey.task otherDag other ≠ .task dag name := by
      rintro ⟨⟩
      exact different ⟨rfl, rfl⟩
    rw [keptTask, Function.update_of_ne aside]
    rfl

/-! ### Calls -/

theorem storesKept_update (represents : ∀ key, Option.Rel (Represents key) (documents key) (kept key))
    {key : StoreKey} {changed : Option Json} {value : Option (Stored key)}
    (stored : StoresDocuments root after (Function.update documents key changed))
    (represented : Option.Rel (Represents key) changed value) :
    StoresKept root after (Function.update kept key value) := by
  refine ⟨_, stored, fun other => ?_⟩
  by_cases same : other = key
  · subst other
    rwa [Function.update_self, Function.update_self]
  · rw [Function.update_of_ne same, Function.update_of_ne same]
    exact represents other

theorem StoresKept.putBlob (keeps : StoresKept root files kept) {bytes : Str}
    {outcome : Outcome Str} (result : putBlob root disk files bytes = (after, outcome)) :
    StoresKept root after kept := by
  obtain ⟨documents, stored, represents⟩ := keeps
  exact ⟨documents, stored.putBlob result, represents⟩

theorem StoresKept.upsertDag (keeps : StoresKept root files kept) (reliable : disk.Reliable)
    {dag : ShyguyDag} (plain : PlainName dag.name) {outcome : Outcome UInt64}
    (result : upsertDag root disk files dag none = (after, outcome))
    (noFault : ∀ fault, outcome ≠ .exception fault) :
    StoresKept root after (Function.update kept (.dag dag.name) (some ⟨dag, rfl⟩)) := by
  obtain ⟨documents, stored, represents⟩ := keeps
  have plainKey : StoreKey.Plain (.dag dag.name) := plain
  obtain ⟨version, written⟩ := stored.upsertAt_returned reliable plainKey result noFault
  exact storesKept_update represents written (.some (decodeDag_dagDocument version dag))

theorem StoresKept.eraseDag (keeps : StoresKept root files kept) (reliable : disk.Reliable)
    {name : Str} (plain : PlainName name) {outcome : Outcome Unit}
    (result : eraseDag root disk files name none = (after, outcome)) :
    StoresKept root after (Function.update kept (.dag name) none) := by
  obtain ⟨documents, stored, represents⟩ := keeps
  exact storesKept_update represents (stored.eraseDag_returned reliable plain result) .none

theorem StoresKept.upsertTask (keeps : StoresKept root files kept) (reliable : disk.Reliable)
    {task : ShyguyTask} (plain : PlainName task.associatedDag ∧ PlainName task.name)
    {blobId : Option Str} {metadata : Option TaskMetadata} {outcome : Outcome UInt64}
    (result : upsertTask root disk files task blobId none metadata = (after, outcome))
    (noFault : ∀ fault, outcome ≠ .exception fault) :
    StoresKept root after
      (Function.update kept (.task task.associatedDag task.name) (some ⟨task, rfl, rfl⟩)) := by
  obtain ⟨documents, stored, represents⟩ := keeps
  have plainKey : StoreKey.Plain (.task task.associatedDag task.name) := plain
  obtain ⟨version, written⟩ := stored.upsertAt_returned reliable plainKey result noFault
  refine storesKept_update represents written (.some ?_)
  apply decodeTask_taskDocument_over
  intro document held
  have represented := rel_keptTask represents task.associatedDag task.name
  rw [held] at represented
  obtain ⟨entry, decoded, _⟩ := exists_value represented
  exact ⟨entry, decoded⟩

theorem StoresKept.eraseTask (keeps : StoresKept root files kept) (reliable : disk.Reliable)
    {dag name : Str} (plain : PlainName dag ∧ PlainName name) {outcome : Outcome Unit}
    (result : eraseTask root disk files dag name none = (after, outcome)) :
    StoresKept root after (Function.update kept (.task dag name) none) := by
  obtain ⟨documents, stored, represents⟩ := keeps
  exact storesKept_update represents (stored.eraseTask_returned reliable plain result) .none

/-! ### Readers -/

/-- What a reader sees of the stores is what they keep. -/
structure ReadsKept (root : StoreRoot) (disk : DiskBehavior) (files : Files) (kept : StoredValues) :
    Prop where
  getDag : ∀ name, PlainName name →
    (getDag root disk files name).map DagEntry.value = foundOrNot (keptDag kept name)
  getTask : ∀ dag name, PlainName dag → PlainName name →
    (getTask root disk files dag name).map TaskEntry.value = foundOrNot (keptTask kept dag name)
  listDags : ∃ entries, listDags root disk files = .value entries ∧
    (entries.map fun entry => entry.value.name).Nodup ∧
    ∀ dag, dag ∈ entries.map DagEntry.value ↔ keptDag kept dag.name = some dag
  listTasks : ∀ dag, PlainName dag → ∃ entries, listTasks root disk files dag = .value entries ∧
    (entries.map fun entry => entry.value.name).Nodup ∧
    ∀ task, task ∈ entries.map TaskEntry.value ↔ keptTask kept dag task.name = some task

/-- The stores show their readers what they keep. -/
theorem StoresKept.reads (keeps : StoresKept root files kept) (reliable : disk.Reliable) :
    ReadsKept root disk files kept := by
  obtain ⟨documents, stored, represents⟩ := keeps
  refine ⟨?_, ?_, ?_, ?_⟩
  · intro name plain
    have plainKey : StoreKey.Plain (.dag name) := plain
    have isTarget : (dagFile root name).resolve = StoreKey.location root (.dag name) :=
      StoreKey.resolve_file plainKey
    have represented := rel_keptDag represents name
    rw [getDag, isTarget, stored.readJson reliable]
    generalize documents (.dag name) = held, keptDag kept name = value at represented ⊢
    cases represented with
    | none => rfl
    | some read =>
        obtain ⟨entry, decoded, rfl⟩ := read
        simp only [decoded]
        rfl
  · intro dag name dagPlain namePlain
    have plain : StoreKey.Plain (.task dag name) := ⟨dagPlain, namePlain⟩
    have isTarget : (taskFile root dag name).resolve = StoreKey.location root (.task dag name) :=
      StoreKey.resolve_file plain
    have represented := rel_keptTask represents dag name
    rw [getTask, isTarget, stored.readJson reliable]
    generalize documents (.task dag name) = held, keptTask kept dag name = value at represented ⊢
    cases represented with
    | none => rfl
    | some read =>
        obtain ⟨entry, decoded, rfl⟩ := read
        simp only [decoded]
        rfl
  · have named := exists_named (rel_keptDag represents) fun _ _ => keptDag_named
    obtain ⟨entries, listed, lists⟩ := stored.listDags reliable named
    exact ⟨entries, listed, nodup_names lists named,
      mem_listed (rel_keptDag represents) (fun _ _ => keptDag_named) lists⟩
  · intro dag plain
    have isNamed : ∀ name task, keptTask kept dag name = some task → task.name = name :=
      fun _ _ held => (keptTask_named held).2
    have named := exists_named (rel_keptTask represents dag) isNamed
    obtain ⟨entries, listed, lists⟩ := stored.listTasks reliable plain named
    exact ⟨entries, listed, nodup_names lists named,
      mem_listed (rel_keptTask represents dag) isNamed lists⟩

end BabyLuigi.FsStorage
