import BabyLuigi.Storage.Path

/-! The location of a path built from a directory and names: what a plain name
adds to it, and that two files of the stores never meet each other's temporary
file. -/

set_option autoImplicit false

namespace BabyLuigi.FsPath

theorem mem_of_mem_pieces {text piece : Str} {char : UInt8} (member : piece ∈ pieces text)
    (held : char ∈ piece) : char ∈ text := by
  unfold pieces at member
  induction text generalizing piece with
  | nil =>
      rw [List.splitOn_nil, List.mem_singleton] at member
      exact member ▸ held
  | cons first rest ih =>
      rw [List.splitOn_cons_eq_if_modifyHead] at member
      split at member
      · rcases List.mem_cons.mp member with rfl | member
        · cases held
        · exact List.mem_cons_of_mem _ (ih member held)
      · cases shape : rest.splitOn separator with
        | nil => simp [shape] at member
        | cons head others =>
            simp only [shape, List.modifyHead_cons, List.mem_cons] at member
            rcases member with rfl | member
            · rcases List.mem_cons.mp held with rfl | held
              · exact List.mem_cons_self
              · exact List.mem_cons_of_mem _ (ih (by simp [shape]) held)
            · exact List.mem_cons_of_mem _ (ih (by simp [shape, member]) held)

theorem exists_pieces_append (text : Str) {ending : Str} (noSeparator : separator ∉ ending) :
    ∃ front stem, pieces (text ++ ending) = front ++ [stem ++ ending] := by
  unfold pieces
  induction text with
  | nil => exact ⟨[], [], by rw [List.nil_append, List.splitOn_eq_singleton noSeparator]; rfl⟩
  | cons first rest ih =>
      obtain ⟨front, stem, shape⟩ := ih
      rw [List.cons_append, List.splitOn_cons_eq_if_modifyHead, shape]
      split
      · exact ⟨[] :: front, stem, rfl⟩
      · cases front with
        | nil => exact ⟨[], first :: stem, rfl⟩
        | cons head others => exact ⟨(first :: head) :: others, stem, rfl⟩

theorem NulFree.append {path : FsPath} (nulFree : path.NulFree) {name : Str} (noNul : nul ∉ name) :
    (path.append name).NulFree := by
  have fromPieces : ∀ component ∈ pieces name, nul ∉ component :=
    fun _ member held => noNul (mem_of_mem_pieces member held)
  intro component member
  unfold FsPath.append at member
  split at member
  · exact fromPieces component member
  · rcases List.mem_append.mp member with member | member
    · exact nulFree component member
    · exact fromPieces component member

theorem exists_append_eq (path : FsPath) (text : Str) {ending : Str}
    (noSeparator : separator ∉ ending) :
    ∃ front stem, path.append (text ++ ending) = front ++ [stem ++ ending] := by
  obtain ⟨front, stem, shape⟩ := exists_pieces_append text noSeparator
  unfold FsPath.append
  split
  · exact ⟨front, stem, shape⟩
  · exact ⟨path ++ front, stem, by rw [shape, List.append_assoc]⟩

theorem append_of_plainName (path : FsPath) {name : Str} (plain : PlainName name) :
    path.append name = path ++ [name] := by
  have relative : name.head? ≠ some separator :=
    fun absolute => plain.noSeparator (List.mem_of_head? absolute)
  rw [FsPath.append, if_neg relative, pieces, List.splitOn_eq_singleton plain.noSeparator]

theorem enter_of_plainName (location : Location) {name : Str} (plain : PlainName name) :
    enter location name = name :: location := by
  simp [enter, plain.nonempty, plain.notDot, plain.notDotDot]

theorem ne_of_long {name special : Str} (long : 2 < name.length) (short : special.length ≤ 2) :
    name ≠ special := by
  intro same
  subst same
  omega

theorem enter_of_long (location : Location) {name : Str} (long : 2 < name.length) :
    enter location name = name :: location := by
  have shorter : ∀ special : Str, special.length ≤ 2 → name ≠ special :=
    fun _ short => ne_of_long long short
  simp [enter, shorter [] (by decide), shorter (ascii ".") (by decide),
    shorter (ascii "..") (by decide)]

theorem plainName_append {stem ending : Str} (noSeparator : separator ∉ stem) (noNul : nul ∉ stem)
    (endingNoSeparator : separator ∉ ending) (endingNoNul : nul ∉ ending)
    (endingLong : 2 < ending.length) : PlainName (stem ++ ending) := by
  have long : 2 < (stem ++ ending).length := by
    rw [List.length_append]
    omega
  constructor
  · exact ne_of_long long (by decide)
  · exact fun member => (List.mem_append.mp member).elim noSeparator endingNoSeparator
  · exact fun member => (List.mem_append.mp member).elim noNul endingNoNul
  · exact ne_of_long long (by decide)
  · exact ne_of_long long (by decide)

theorem resolveFrom_append {path : FsPath} (nulFree : path.NulFree) (location : Location)
    (rest : FsPath) :
    resolveFrom location (path ++ rest) = resolveFrom (resolveFrom location path) rest := by
  induction path generalizing location with
  | nil => rfl
  | cons component others ih =>
      have noNul : nul ∉ component := nulFree component List.mem_cons_self
      simp only [List.cons_append, resolveFrom, if_neg noNul]
      exact ih (fun other member => nulFree other (List.mem_cons_of_mem _ member)) _

theorem resolve_concat {front : FsPath} (nulFree : front.NulFree) {name : Str}
    (noNul : nul ∉ name) : (front ++ [name]).resolve = enter front.resolve name := by
  rw [resolve, resolveFrom_append nulFree]
  simp only [resolveFrom, if_neg noNul]
  rfl

theorem resolve_append_plainName {path : FsPath} (nulFree : path.NulFree) {name : Str}
    (plain : PlainName name) : (path.append name).resolve = name :: path.resolve := by
  rw [append_of_plainName path plain, resolve_concat nulFree plain.noNul]
  exact enter_of_plainName _ plain

/-! ### Documents and their temporary files -/

/-- The path of a document: its last component ends in `.json`. -/
def IsDocument (path : FsPath) : Prop :=
  path.NulFree ∧ ∃ front stem, path = front ++ [stem ++ ascii ".json"]

theorem isDocument_append {path : FsPath} (nulFree : path.NulFree) (name : Str)
    (noNul : nul ∉ name) : (path.append (name ++ ascii ".json")).IsDocument := by
  have ending : nul ∉ ascii ".json" := by decide
  refine ⟨nulFree.append (by simp [noNul, ending]), ?_⟩
  exact exists_append_eq path name (by decide)

theorem IsDocument.locations_of_last {path : FsPath} (document : path.IsDocument) {last : Str}
    (isLast : path.getLast? = some last) :
    path.resolve = last :: path.parentPath.resolve ∧
    path.temporary = (last ++ ascii ".tmp") :: path.parentPath.resolve := by
  obtain ⟨nulFree, front, stem, rfl⟩ := document
  rw [List.getLast?_concat] at isLast
  cases isLast
  have frontNulFree : front.NulFree :=
    fun component member => nulFree component (List.mem_append_left _ member)
  have noNul : nul ∉ stem ++ ascii ".json" := nulFree _ (by simp)
  have ending : nul ∉ ascii ".tmp" := by decide
  have parent : parentPath (front ++ [stem ++ ascii ".json"]) = front := List.dropLast_concat
  have moved : concat (front ++ [stem ++ ascii ".json"]) (ascii ".tmp") =
      front ++ [stem ++ ascii ".json" ++ ascii ".tmp"] := by
    simp [concat]
  constructor
  · rw [parent, resolve_concat frontNulFree noNul, enter_of_long]
    simp [ascii]
  · rw [parent, temporary, moved, resolve_concat frontNulFree
      fun member => (List.mem_append.mp member).elim noNul ending, enter_of_long]
    simp [ascii]

theorem IsDocument.locations {path : FsPath} (document : path.IsDocument) :
    ∃ stem,
      path.resolve = (stem ++ ascii ".json") :: path.parentPath.resolve ∧
      path.temporary = (stem ++ ascii ".json" ++ ascii ".tmp") :: path.parentPath.resolve := by
  have ⟨_, front, stem, shape⟩ := document
  exact ⟨stem, document.locations_of_last (by rw [shape, List.getLast?_concat])⟩

theorem getLast?_append_json (path : FsPath) (name : Str) :
    (path.append (name ++ ascii ".json")).getLast? = (pieces (name ++ ascii ".json")).getLast? := by
  obtain ⟨front, stem, shape⟩ := exists_pieces_append name (show separator ∉ ascii ".json" by decide)
  unfold FsPath.append
  rw [shape]
  split
  · rfl
  · rw [← List.append_assoc, List.getLast?_concat, List.getLast?_concat]

/-- No document lies where another one, or the same, is written first. -/
theorem IsDocument.resolve_ne_temporary {path other : FsPath} (document : path.IsDocument)
    (otherDocument : other.IsDocument) : path.resolve ≠ other.temporary := by
  obtain ⟨stem, location, _⟩ := document.locations
  obtain ⟨otherStem, _, temporary⟩ := otherDocument.locations
  rw [location, temporary]
  intro same
  have lastBytes := congrArg List.getLast? (List.head_eq_of_cons_eq same)
  simp [ascii, List.getLast?_append] at lastBytes

end BabyLuigi.FsPath
