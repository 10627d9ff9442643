import BabyLuigi.Vocabulary

/-!
# Paths

How a path made from unchecked strings is resolved: concatenation restarts at
an absolute name, the system sees the text up to its first NUL, and `..` leads
to the enclosing directory. Here it does so whether or not the directory before
it exists; the system wants it to exist, so results about more than the text of
a path keep to names that do not lead up again.
-/

set_option autoImplicit false

namespace BabyLuigi

/-- An absolute path by its pieces between separators, outermost first. -/
abbrev FsPath := List Str

/-- The components of a resolved path, innermost first. -/
abbrev Location := List Str

def separator : UInt8 := 47

def nul : UInt8 := 0

namespace FsPath

def pieces (text : Str) : FsPath := text.splitOn separator

/-- `operator/`: an absolute right-hand side replaces the path. -/
def append (path : FsPath) (name : Str) : FsPath :=
  if name.head? = some separator then pieces name else path ++ pieces name

def parentPath (path : FsPath) : FsPath := path.dropLast

def concat (path : FsPath) (suffix : Str) : FsPath :=
  match path.getLast? with
  | none => [suffix]
  | some last => path.dropLast ++ [last ++ suffix]

/-- One component of a path, met at a location. -/
def enter (location : Location) (component : Str) : Location :=
  if component = [] ∨ component = ascii "." then location
  else if component = ascii ".." then location.tail
  else component :: location

def resolveFrom (location : Location) : FsPath → Location
  | [] => location
  | component :: rest =>
    if nul ∈ component then enter location (component.takeWhile fun char => char != nul)
    else resolveFrom (enter location component) rest

def resolve (path : FsPath) : Location := resolveFrom [] path

/-- Where the file at a path is written before it is moved there. -/
def temporary (path : FsPath) : Location := (path.concat (ascii ".tmp")).resolve

/-- No component ends the path as the system sees it. -/
def NulFree (path : FsPath) : Prop := ∀ component ∈ path, nul ∉ component

instance (path : FsPath) : Decidable path.NulFree :=
  inferInstanceAs (Decidable (∀ component ∈ path, nul ∉ component))

end FsPath

/-- A name that the system sees whole and that does not lead up again. -/
structure DescendingName (name : Str) : Prop where
  noNul : nul ∉ name
  noDotDot : ascii ".." ∉ FsPath.pieces name

instance (name : Str) : Decidable (DescendingName name) :=
  decidable_of_iff (nul ∉ name ∧ ascii ".." ∉ FsPath.pieces name)
    ⟨fun holds => ⟨holds.1, holds.2⟩, fun name => ⟨name.noNul, name.noDotDot⟩⟩

/-- A name that is one path component of its own. -/
structure PlainName (name : Str) : Prop where
  nonempty : name ≠ []
  noSeparator : separator ∉ name
  noNul : nul ∉ name
  notDot : name ≠ ascii "."
  notDotDot : name ≠ ascii ".."

end BabyLuigi
