import BabyLuigi.Support.UnorderedMap

/-!
# File trees

A tree of directories and files without links. A location lists its names from
the innermost outwards, so the directory that holds it is its tail.
-/

set_option autoImplicit false

namespace BabyLuigi

inductive Node (Content : Type) where
  | directory
  | file (content : Content)

/-- Every location in use lies in a directory. -/
structure FileSystem (Name Content : Type) [DecidableEq Name] where
  nodes : UnorderedMap (List Name) (Node Content)
  parents : ∀ name parent, name :: parent ∈ nodes → nodes.lookup parent = some .directory

namespace FileSystem

variable {Name Content : Type} [DecidableEq Name]

/-- A tree that holds its root only. -/
def empty : FileSystem Name Content where
  nodes := AList.insert [] .directory ∅
  parents name parent member := by
    rcases AList.mem_insert _ |>.mp member with impossible | member
    · cases impossible
    · cases AList.notMem_empty _ member

def node (files : FileSystem Name Content) (location : List Name) : Option (Node Content) :=
  files.nodes.lookup location

def isDirectory (files : FileSystem Name Content) (location : List Name) : Bool :=
  match files.node location with
  | some .directory => true
  | _ => false

def fileAt (files : FileSystem Name Content) (location : List Name) : Option Content :=
  match files.node location with
  | some (.file content) => some content
  | _ => none

def isPresent (files : FileSystem Name Content) (location : List Name) : Bool :=
  (files.node location).isSome

def children (files : FileSystem Name Content) (location : List Name) : List Name :=
  files.nodes.keys.filterMap fun
    | [] => none
    | name :: parent => if parent = location then some name else none

theorem isDirectory_iff {files : FileSystem Name Content} {location : List Name} :
    files.isDirectory location = true ↔ files.node location = some .directory := by
  unfold isDirectory
  split
  · simp [*]
  · simpa using ‹_›

theorem fileAt_eq_some {files : FileSystem Name Content} {location : List Name}
    {content : Content} :
    files.fileAt location = some content ↔ files.node location = some (.file content) := by
  unfold fileAt
  cases files.node location with
  | none => simp
  | some node => cases node <;> simp

theorem fileAt_of_absent {files : FileSystem Name Content} {location : List Name}
    (absent : files.node location = none) : files.fileAt location = none := by
  rw [fileAt, absent]

theorem isPresent_of_fileAt {files : FileSystem Name Content} {location : List Name}
    {content : Content} (file : files.fileAt location = some content) :
    files.isPresent location = true := by
  simp [isPresent, fileAt_eq_some.mp file]

theorem mem_nodes_iff {files : FileSystem Name Content} {location : List Name} :
    location ∈ files.nodes ↔ ∃ node, files.node location = some node :=
  AList.lookup_isSome.symm.trans Option.isSome_iff_exists

theorem node_parent {files : FileSystem Name Content} {name : Name} {parent : List Name}
    {node : Node Content} (present : files.node (name :: parent) = some node) :
    files.node parent = some .directory :=
  files.parents name parent (mem_nodes_iff.mpr ⟨node, present⟩)

theorem mem_children {files : FileSystem Name Content} {location : List Name} {name : Name} :
    name ∈ files.children location ↔ ∃ node, files.node (name :: location) = some node := by
  rw [← mem_nodes_iff, AList.mem_keys]
  simp only [children, List.mem_filterMap]
  constructor
  · intro found
    obtain ⟨candidate, member, chosen⟩ := found
    cases candidate with
    | nil => cases chosen
    | cons head parent =>
        dsimp only at chosen
        split at chosen
        · cases chosen
          subst parent
          exact member
        · cases chosen
  · intro member
    exact ⟨name :: location, member, by simp⟩

theorem nodup_children (files : FileSystem Name Content) (location : List Name) :
    (files.children location).Nodup := by
  have distinct : files.nodes.keys.Nodup := AList.keys_nodup _
  refine List.Nodup.filterMap ?_ distinct
  intro first second name fromFirst fromSecond
  cases first with
  | nil => cases fromFirst
  | cons firstName firstParent =>
      cases second with
      | nil => cases fromSecond
      | cons secondName secondParent =>
          simp only [Option.mem_def, Option.ite_none_right_eq_some, Option.some.injEq] at fromFirst
          simp only [Option.mem_def, Option.ite_none_right_eq_some, Option.some.injEq] at fromSecond
          rw [fromFirst.1, fromFirst.2, fromSecond.1, fromSecond.2]

/-! ### Changing one location -/

/-- Put a node into a directory, in place of nothing or of a file. -/
def place (files : FileSystem Name Content) (name : Name) (parent : List Name)
    (node : Node Content) (inDirectory : files.node parent = some .directory)
    (replaceable : files.node (name :: parent) ≠ some .directory) : FileSystem Name Content where
  nodes := files.nodes.insert (name :: parent) node
  parents := by
    intro child directory member
    have held : files.node directory = some .directory := by
      rcases AList.mem_insert _ |>.mp member with same | member
      · cases same
        exact inDirectory
      · exact files.parents child directory member
    have different : directory ≠ name :: parent := fun same => replaceable (same ▸ held)
    exact (AList.lookup_insert_ne different).trans held

/-- Take away a node that holds nothing. -/
def drop (files : FileSystem Name Content) (location : List Name)
    (childless : files.children location = []) : FileSystem Name Content where
  nodes := files.nodes.erase location
  parents := by
    intro child directory member
    replace member : child :: directory ∈ files.nodes := (AList.mem_erase.mp member).2
    have different : directory ≠ location := by
      intro equal
      subst equal
      have held : child ∈ files.children directory :=
        mem_children.mpr (mem_nodes_iff.mp member)
      rw [childless] at held
      cases held
    exact (AList.lookup_erase_ne different).trans (files.parents child directory member)

theorem node_place {files : FileSystem Name Content} {name : Name} {parent : List Name}
    {node : Node Content} {inDirectory : files.node parent = some .directory}
    {replaceable : files.node (name :: parent) ≠ some .directory} (other : List Name) :
    (files.place name parent node inDirectory replaceable).node other =
      if other = name :: parent then some node else files.node other := by
  split
  · subst other
    exact AList.lookup_insert _
  · exact AList.lookup_insert_ne ‹_›

theorem node_drop {files : FileSystem Name Content} {location : List Name}
    {childless : files.children location = []} (other : List Name) :
    (files.drop location childless).node other =
      if other = location then none else files.node other := by
  split
  · subst other
    exact AList.lookup_erase _ _
  · exact AList.lookup_erase_ne ‹_›

theorem children_of_fileAt {files : FileSystem Name Content} {location : List Name}
    {content : Content} (file : files.fileAt location = some content) :
    files.children location = [] := by
  apply List.eq_nil_iff_forall_not_mem.mpr
  intro name member
  obtain ⟨_, present⟩ := mem_children.mp member
  cases (fileAt_eq_some.mp file).symm.trans (node_parent present)

/-! ### Operations -/

/-- Create a directory where nothing is. -/
def makeDirectory (files : FileSystem Name Content) (name : Name) (parent : List Name) :
    FileSystem Name Content :=
  if inDirectory : files.isDirectory parent = true then
    if absent : files.node (name :: parent) |>.isNone then
      files.place name parent .directory (isDirectory_iff.mp inDirectory)
        (by simp [Option.isNone_iff_eq_none.mp absent])
    else files
  else files

/-- Create a directory and those above it, as far as nothing is in the way. -/
def createDirectories (files : FileSystem Name Content) : List Name → FileSystem Name Content
  | [] => files
  | name :: parent => (files.createDirectories parent).makeDirectory name parent

/-- Create a file or replace its content. -/
def write (files : FileSystem Name Content) (location : List Name) (content : Content) :
    Option (FileSystem Name Content) :=
  match location with
  | [] => none
  | name :: parent =>
    if inDirectory : files.isDirectory parent = true then
      if replaceable : files.isDirectory (name :: parent) = false then
        some (files.place name parent (.file content) (isDirectory_iff.mp inDirectory)
          fun isDirectory => by simp [isDirectory_iff.mpr isDirectory] at replaceable)
      else none
    else none

/-- Remove a file or an empty directory. -/
def remove (files : FileSystem Name Content) (location : List Name) :
    Option (FileSystem Name Content) :=
  if childless : (files.children location).isEmpty then
    if files.isPresent location then
      some (files.drop location (List.isEmpty_iff.mp childless))
    else none
  else none

/-- Move a file, in place of whatever file is at the target. -/
def rename (files : FileSystem Name Content) (source target : List Name) :
    Option (FileSystem Name Content) :=
  match files.fileAt source with
  | none => none
  | some content =>
    match files.write target content with
    | none => none
    | some moved => if source = target then some moved else moved.remove source

theorem node_makeDirectory {files : FileSystem Name Content} {name : Name} {parent : List Name}
    (other : List Name) :
    (files.makeDirectory name parent).node other =
      if other = name :: parent ∧ files.isDirectory parent = true ∧
        (files.node other).isNone = true then some .directory else files.node other := by
  unfold makeDirectory
  split
  · split
    · rw [node_place]
      by_cases same : other = name :: parent
      · subst other
        simp [*]
      · simp [same]
    · rw [if_neg]
      intro found
      obtain ⟨rfl, _, absent⟩ := found
      exact absurd absent ‹_›
  · rw [if_neg]
    intro found
    obtain ⟨_, held, _⟩ := found
    exact absurd held ‹_›

/-- A location is as before, unless it became a directory on the way to another
one. -/
def KeptOnWay (files after : FileSystem Name Content) (way location : List Name) : Prop :=
  after.node location = files.node location ∨
    files.node location = none ∧ location <:+ way ∧ after.node location = some .directory

theorem KeptOnWay.fileAt {files after : FileSystem Name Content} {way location : List Name}
    (kept : KeptOnWay files after way location) : after.fileAt location = files.fileAt location := by
  unfold FileSystem.fileAt
  rcases kept with same | ⟨absent, _, made⟩
  · rw [same]
  · rw [absent, made]

theorem KeptOnWay.node {files after : FileSystem Name Content} {way location : List Name}
    (kept : KeptOnWay files after way location) (aside : ¬ location <:+ way) :
    after.node location = files.node location :=
  kept.resolve_right fun created => aside created.2.1

theorem KeptOnWay.directory {files after : FileSystem Name Content} {way location : List Name}
    (kept : KeptOnWay files after way location)
    (directory : files.node location = some .directory) : after.node location = some .directory := by
  rcases kept with same | ⟨_, _, made⟩
  · exact same.trans directory
  · exact made

theorem keptOnWay_createDirectories {files : FileSystem Name Content} (location other : List Name) :
    KeptOnWay files (files.createDirectories location) location other := by
  induction location with
  | nil => exact .inl rfl
  | cons name parent ih =>
      rw [KeptOnWay, createDirectories, node_makeDirectory]
      split
      · rename_i created
        obtain ⟨rfl, _, isNone⟩ := created
        have absent := Option.isNone_iff_eq_none.mp isNone
        rcases ih with same | ⟨_, _, made⟩
        · exact .inr ⟨same.symm.trans absent, List.suffix_rfl, rfl⟩
        · cases absent.symm.trans made
      · exact ih.imp_right fun ⟨absent, above, made⟩ =>
          ⟨absent, above.trans (List.suffix_cons _ _), made⟩

/-- A directory that exists already is not created again. -/
theorem createDirectories_of_directory {files : FileSystem Name Content} {location : List Name}
    (held : files.node location = some .directory) : files.createDirectories location = files := by
  induction location with
  | nil => rfl
  | cons name parent ih =>
      have inDirectory := node_parent held
      rw [createDirectories, ih inDirectory, makeDirectory,
        dif_pos (isDirectory_iff.mpr inDirectory), dif_neg (by simp [held])]

theorem directory_above {files : FileSystem Name Content} {location above : List Name}
    (held : files.node location = some .directory) (isAbove : above <:+ location) :
    files.node above = some .directory := by
  induction location with
  | nil => exact List.suffix_nil.mp isAbove ▸ held
  | cons name parent ih =>
      rcases List.suffix_cons_iff.mp isAbove with rfl | isAbove
      · exact held
      · exact ih (node_parent held) isAbove

theorem node_createDirectories_cons {files : FileSystem Name Content} {name : Name}
    {parent : List Name} (held : (files.createDirectories parent).node parent = some .directory)
    (free : files.fileAt (name :: parent) = none) :
    (files.createDirectories (name :: parent)).node (name :: parent) = some .directory := by
  rw [createDirectories, node_makeDirectory]
  cases present : (files.createDirectories parent).node (name :: parent) with
  | none => simp [isDirectory_iff.mpr held]
  | some node =>
      cases node with
      | directory => simp
      | file content =>
          have file : files.fileAt (name :: parent) = some content :=
            (keptOnWay_createDirectories parent _).fileAt.symm.trans (fileAt_eq_some.mpr present)
          cases free.symm.trans file

theorem node_createDirectories {files : FileSystem Name Content} {location : List Name}
    (root : files.node [] = some .directory)
    (free : ∀ other, other <:+ location → files.fileAt other = none) :
    (files.createDirectories location).node location = some .directory := by
  induction location with
  | nil => exact root
  | cons name parent ih =>
      exact node_createDirectories_cons
        (ih fun other above => free other (above.trans (List.suffix_cons _ _)))
        (free _ List.suffix_rfl)

/-- A directory is there after an attempt to create it iff it was there or
nothing was in the way. -/
theorem isDirectory_createDirectories_iff {files : FileSystem Name Content}
    {location : List Name} :
    (files.createDirectories location).isDirectory location = true ↔
      files.isDirectory location = true ∨
        files.isDirectory [] = true ∧ ∀ above, above <:+ location → files.fileAt above = none := by
  have keptRoot : (files.createDirectories location).node [] = files.node [] := by
    induction location with
    | nil => rfl
    | cons name parent ih =>
        rw [createDirectories, node_makeDirectory, if_neg (by simp)]
        exact ih
  simp only [isDirectory_iff]
  constructor
  · intro made
    refine .inr ⟨keptRoot.symm.trans (directory_above made List.nil_suffix), ?_⟩
    intro above isAbove
    rw [← (keptOnWay_createDirectories location above).fileAt, fileAt,
      directory_above made isAbove]
  · rintro (held | ⟨root, free⟩)
    · exact (keptOnWay_createDirectories location location).directory held
    · exact node_createDirectories root free

theorem node_write {files after : FileSystem Name Content} {location : List Name}
    {content : Content} (written : files.write location content = some after) (other : List Name) :
    after.node other = if other = location then some (.file content) else files.node other := by
  unfold write at written
  split at written
  · cases written
  · split at written
    · split at written
      · cases written
        exact node_place other
      · cases written
    · cases written

theorem node_write_write {files between after : FileSystem Name Content} {location : List Name}
    {first second : Content} (writtenFirst : files.write location first = some between)
    (writtenSecond : between.write location second = some after) (other : List Name) :
    after.node other = if other = location then some (.file second) else files.node other := by
  rw [node_write writtenSecond, node_write writtenFirst]
  split <;> rfl

theorem fileAt_write {files after : FileSystem Name Content} {location : List Name}
    {content : Content} (written : files.write location content = some after) (other : List Name) :
    after.fileAt other = if other = location then some content else files.fileAt other := by
  simp only [fileAt, node_write written]
  by_cases same : other = location <;> simp [same]

theorem exists_write {files : FileSystem Name Content} {name : Name} {parent : List Name}
    (inDirectory : files.node parent = some .directory)
    (replaceable : files.node (name :: parent) ≠ some .directory) (content : Content) :
    ∃ after, files.write (name :: parent) content = some after := by
  have notDirectory : files.isDirectory (name :: parent) = false := by
    rw [← Bool.not_eq_true, isDirectory_iff]
    exact replaceable
  exact ⟨_, by simp only [write, isDirectory_iff.mpr inDirectory, notDirectory, dif_pos]; rfl⟩

theorem isDirectory_of_write {files after : FileSystem Name Content} {name : Name}
    {parent : List Name} {content : Content}
    (written : files.write (name :: parent) content = some after) :
    files.isDirectory parent = true ∧ files.isDirectory (name :: parent) = false := by
  dsimp only [write] at written
  split at written
  · split at written
    · exact ⟨‹_›, ‹_›⟩
    · cases written
  · cases written

theorem exists_write_again {files after : FileSystem Name Content} {name : Name}
    {parent : List Name} {first : Content}
    (written : files.write (name :: parent) first = some after) (second : Content) :
    ∃ again, after.write (name :: parent) second = some again := by
  have file : after.node (name :: parent) = some (.file first) :=
    (node_write written _).trans (if_pos rfl)
  refine exists_write (node_parent file) ?_ second
  rw [file]
  intro impossible
  cases impossible

theorem node_remove {files after : FileSystem Name Content} {location : List Name}
    (removed : files.remove location = some after) (other : List Name) :
    after.node other = if other = location then none else files.node other := by
  unfold remove at removed
  split at removed
  · split at removed
    · cases removed
      exact node_drop other
    · cases removed
  · cases removed

/-! An attempt to remove a location leaves the tree as it is when it fails. -/

theorem node_attempt_of_ne {files : FileSystem Name Content} {location other : List Name}
    (different : other ≠ location) (tries : Bool) :
    (if tries then (files.remove location).getD files else files).node other =
      files.node other := by
  split
  · cases removed : files.remove location with
    | none => rfl
    | some after => exact (node_remove removed other).trans (if_neg different)
  · rfl

theorem node_attempt (files : FileSystem Name Content) (location other : List Name) (tries : Bool) :
    (if tries then (files.remove location).getD files else files).node other = none ∨
    (if tries then (files.remove location).getD files else files).node other =
      files.node other := by
  by_cases same : other = location
  · split
    · cases removed : files.remove location with
      | none => exact .inr rfl
      | some after => exact .inl ((node_remove removed other).trans (if_pos same))
    · exact .inr rfl
  · exact .inr (node_attempt_of_ne same tries)

theorem exists_remove_file {files : FileSystem Name Content} {location : List Name}
    {content : Content} (file : files.fileAt location = some content) :
    ∃ after, files.remove location = some after := by
  simp [remove, children_of_fileAt file, isPresent_of_fileAt file]

theorem node_rename {files after : FileSystem Name Content} {source target : List Name}
    (renamed : files.rename source target = some after) :
    ∃ content, files.fileAt source = some content ∧ ∀ other,
      after.node other = if other = target then some (.file content)
        else if other = source then none else files.node other := by
  unfold rename at renamed
  split at renamed
  · cases renamed
  · rename_i content held
    refine ⟨content, held, ?_⟩
    intro other
    split at renamed
    · cases renamed
    · rename_i moved written
      split at renamed
      · rename_i same
        cases renamed
        rw [node_write written]
        subst source
        split <;> rfl
      · rename_i different
        rw [node_remove renamed, node_write written]
        by_cases isTarget : other = target
        · subst other
          simp [Ne.symm different]
        · simp [isTarget]

theorem exists_rename {files : FileSystem Name Content} {sourceName targetName : Name}
    {parent : List Name} {content : Content}
    (file : files.fileAt (sourceName :: parent) = some content)
    (replaceable : files.node (targetName :: parent) ≠ some .directory) :
    ∃ after, files.rename (sourceName :: parent) (targetName :: parent) = some after := by
  have inDirectory := node_parent (fileAt_eq_some.mp file)
  obtain ⟨moved, written⟩ := exists_write inDirectory replaceable content
  by_cases same : sourceName :: parent = targetName :: parent
  · exact ⟨moved, by simp only [rename, file, written, if_pos same]⟩
  · have kept : moved.fileAt (sourceName :: parent) = some content := by
      rw [fileAt_write written, if_neg same, file]
    obtain ⟨after, removed⟩ := exists_remove_file kept
    exact ⟨after, by simp only [rename, file, written, if_neg same, removed]⟩

/-! Moving a file that was just written. -/

section Written

variable {files written renamed : FileSystem Name Content} {content : Content}

theorem exists_rename_written {sourceName targetName : Name} {parent : List Name}
    (nodes : ∀ other, written.node other =
      if other = sourceName :: parent then some (.file content) else files.node other)
    (replaceable : files.node (targetName :: parent) ≠ some .directory) :
    ∃ renamed, written.rename (sourceName :: parent) (targetName :: parent) = some renamed := by
  have file : written.fileAt (sourceName :: parent) = some content :=
    fileAt_eq_some.mpr ((nodes _).trans (if_pos rfl))
  apply exists_rename file
  rw [nodes]
  split
  · intro impossible
    cases impossible
  · exact replaceable

theorem node_rename_written {source target : List Name}
    (nodes : ∀ other, written.node other =
      if other = source then some (.file content) else files.node other)
    (moved : written.rename source target = some renamed) (other : List Name) :
    renamed.node other =
      if other = target then some (.file content)
      else if other = source then none
      else files.node other := by
  have file : written.fileAt source = some content :=
    fileAt_eq_some.mpr ((nodes _).trans (if_pos rfl))
  obtain ⟨held, isHeld, renamedNodes⟩ := node_rename moved
  cases file.symm.trans isHeld
  rw [renamedNodes, nodes]
  split
  · rfl
  · split <;> rfl

end Written

end FileSystem

end BabyLuigi
