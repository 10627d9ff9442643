import BabyLuigi.Cron.Text
import BabyLuigi.Support.Except
import Mathlib.Data.List.TakeWhile

/-! Pieces of a text and the numbers at the head of a text. -/

set_option autoImplicit false

namespace BabyLuigi.Cron

theorem takeWhile_append_stop {holds : UInt8 → Bool} {front back : Str}
    (all : ∀ char ∈ front, holds char = true) (stop : ∀ char ∈ back.head?, holds char = false) :
    (front ++ back).takeWhile holds = front ∧ (front ++ back).dropWhile holds = back := by
  induction front with
  | nil =>
      cases back with
      | nil => exact ⟨rfl, rfl⟩
      | cons char more => simp [stop char rfl]
  | cons char more ih =>
      obtain ⟨head, tail⟩ := List.forall_mem_cons.mp all
      simp [head, ih tail]

/-! ### Pieces -/

variable {delimiter : UInt8}

theorem split_nil (delimiter : UInt8) : split [] delimiter = [] := rfl

theorem split_of_absent {value : Str} (nonempty : value ≠ []) (absent : delimiter ∉ value) :
    split value delimiter = [value] := by
  cases value with
  | nil => exact absurd rfl nonempty
  | cons char rest =>
      simp only [split, List.splitOn_eq_singleton absent]
      rfl

theorem split_append {first : Str} (absent : delimiter ∉ first) (rest : Str) :
    split (first ++ delimiter :: rest) delimiter = first :: split rest delimiter := by
  have pieces : (first ++ delimiter :: rest).splitOn delimiter = first :: rest.splitOn delimiter := by
    rw [List.splitOn_append_cons_self, List.splitOn_eq_singleton absent]
    rfl
  obtain ⟨init, last, shape⟩ := (List.eq_nil_or_concat (rest.splitOn delimiter)).resolve_left
    (List.splitOn_ne_nil delimiter rest)
  rw [List.concat_eq_append] at shape
  have ends : (first :: (init ++ [last])).getLast? = some last := by
    rw [← List.cons_append, List.getLast?_concat]
  simp only [split, pieces, shape, ends, List.getLast?_concat]
  cases last with
  | nil => rw [← List.cons_append, List.dropLast_concat, List.dropLast_concat]
  | cons char more => rfl

/-- A text is empty, one piece, or a piece, a delimiter and more. -/
theorem pieces_cases (value : Str) (delimiter : UInt8) :
    value = [] ∨ value ≠ [] ∧ delimiter ∉ value ∨
      ∃ first rest, value = first ++ delimiter :: rest ∧ delimiter ∉ first := by
  by_cases present : delimiter ∈ value
  · obtain ⟨first, rest, shape, absent⟩ := List.eq_append_cons_of_mem present
    exact .inr (.inr ⟨first, rest, shape, absent⟩)
  · by_cases empty : value = []
    · exact .inl empty
    · exact .inr (.inl ⟨empty, present⟩)

theorem split_ne_nil {value : Str} (nonempty : value ≠ []) : split value delimiter ≠ [] := by
  rcases pieces_cases value delimiter with rfl | ⟨_, absent⟩ | ⟨first, rest, rfl, absent⟩
  · exact absurd rfl nonempty
  · simp [split_of_absent nonempty absent]
  · simp [split_append absent]

theorem split_eq_singleton {value piece : Str} (result : split value delimiter = [piece]) :
    delimiter ∉ piece ∧ (value = piece ∧ piece ≠ [] ∨ value = piece ++ [delimiter]) := by
  rcases pieces_cases value delimiter with rfl | ⟨nonempty, absent⟩ | ⟨first, rest, rfl, absent⟩
  · cases result
  · rw [split_of_absent nonempty absent] at result
    obtain rfl := List.singleton_inj.mp result
    exact ⟨absent, .inl ⟨rfl, nonempty⟩⟩
  · rw [split_append absent] at result
    obtain ⟨rfl, none⟩ := List.cons.inj result
    refine ⟨absent, .inr ?_⟩
    rcases pieces_cases rest delimiter with rfl | ⟨nonempty, alone⟩ | ⟨second, more, rfl, alone⟩
    · rfl
    · rw [split_of_absent nonempty alone] at none
      cases none
    · rw [split_append alone] at none
      cases none

theorem split_eq_pair {value first second : Str} (result : split value delimiter = [first, second]) :
    delimiter ∉ first ∧ delimiter ∉ second ∧
      ∃ rest, value = first ++ delimiter :: rest ∧
        (rest = second ∧ second ≠ [] ∨ rest = second ++ [delimiter]) := by
  rcases pieces_cases value delimiter with rfl | ⟨nonempty, absent⟩ | ⟨head, rest, rfl, absent⟩
  · cases result
  · rw [split_of_absent nonempty absent] at result
    cases result
  · rw [split_append absent] at result
    obtain ⟨rfl, tail⟩ := List.cons.inj result
    obtain ⟨alone, shape⟩ := split_eq_singleton tail
    exact ⟨absent, alone, rest, rfl, shape⟩

theorem mem_of_split_eq_pair {value first second : Str}
    (pieces : split value delimiter = [first, second]) : delimiter ∈ value := by
  obtain ⟨_, _, _, rfl, _⟩ := split_eq_pair pieces
  simp

theorem pieces_induction {motive : Str → Prop} (delimiter : UInt8) (empty : motive [])
    (piece : ∀ value, value ≠ [] → delimiter ∉ value → motive value)
    (cons : ∀ first rest, delimiter ∉ first → motive rest → motive (first ++ delimiter :: rest))
    (value : Str) : motive value := by
  induction length : value.length using Nat.strong_induction_on generalizing value with
  | _ size ih =>
      rcases pieces_cases value delimiter with rfl | ⟨nonempty, absent⟩ | ⟨first, rest, rfl, absent⟩
      · exact empty
      · exact piece value nonempty absent
      · refine cons first rest absent (ih rest.length ?_ rest rfl)
        rw [← length, List.length_append, List.length_cons]
        omega

theorem of_mem_split (value : Str) :
    ∀ piece ∈ split value delimiter, delimiter ∉ piece ∧ piece ⊆ value := by
  induction value using pieces_induction delimiter with
  | empty => simp [split_nil]
  | piece value nonempty absent =>
      rw [split_of_absent nonempty absent]
      simpa using absent
  | cons first rest absent ih =>
      rw [split_append absent, List.forall_mem_cons]
      refine ⟨⟨absent, by simp⟩, fun piece member => ⟨(ih piece member).1, ?_⟩⟩
      exact List.Subset.trans (ih piece member).2 fun char inRest => by simp [inRest]

/-- A tail without the delimiter only lengthens the last piece. -/
theorem split_append_tail (value : Str) {tail : Str} (nonempty : value ≠ [])
    (isOpen : value.getLast? ≠ some delimiter) (absentTail : delimiter ∉ tail) :
    ∃ init last, split value delimiter = init ++ [last] ∧
      split (value ++ tail) delimiter = init ++ [last ++ tail] := by
  induction value using pieces_induction delimiter with
  | empty => exact absurd rfl nonempty
  | piece value _ absent =>
      refine ⟨[], value, split_of_absent nonempty absent, ?_⟩
      refine split_of_absent (by simp [nonempty]) ?_
      simp [absent, absentTail]
  | cons first rest absent ih =>
      have restNonempty : rest ≠ [] := by
        rintro rfl
        exact isOpen (by simp)
      have restOpen : rest.getLast? ≠ some delimiter := by
        rwa [List.getLast?_append_of_ne_nil _ (List.cons_ne_nil _ _),
          List.getLast?_cons_of_ne_nil restNonempty] at isOpen
      obtain ⟨init, last, whole, extended⟩ := ih restNonempty restOpen
      refine ⟨first :: init, last, ?_, ?_⟩
      · rw [split_append absent, whole]
        rfl
      · rw [List.append_assoc, List.cons_append, split_append absent, extended]
        rfl

/-! ### The second piece -/

/-- The second piece of a text, if it has one. -/
def secondPiece (delimiter : UInt8) (value : Str) : Str :=
  ((value.dropWhile fun char => char != delimiter).drop 1).takeWhile fun char => char != delimiter

theorem ne_of_absent {value : Str} (absent : delimiter ∉ value) :
    ∀ char ∈ value, (char != delimiter) = true := by
  intro char member
  simp only [bne_iff_ne]
  rintro rfl
  exact absent member

theorem takeWhile_piece {first : Str} (absent : delimiter ∉ first) (rest : Str) :
    (first ++ delimiter :: rest).takeWhile (fun char => char != delimiter) = first :=
  (takeWhile_append_stop (ne_of_absent absent) (by simp)).1

theorem secondPiece_append {first : Str} (absent : delimiter ∉ first) (rest : Str) :
    secondPiece delimiter (first ++ delimiter :: rest) =
      rest.takeWhile fun char => char != delimiter := by
  rw [secondPiece, (takeWhile_append_stop (ne_of_absent absent) (by simp)).2]
  rfl

theorem secondPiece_of_split {value first second : Str} {more : List Str}
    (pieces : split value delimiter = first :: second :: more) :
    secondPiece delimiter value = second := by
  rcases pieces_cases value delimiter with rfl | ⟨nonempty, absent⟩ | ⟨head, rest, rfl, absent⟩
  · cases pieces
  · rw [split_of_absent nonempty absent] at pieces
    cases pieces
  · rw [split_append absent] at pieces
    obtain ⟨rfl, tail⟩ := List.cons.inj pieces
    rw [secondPiece_append absent]
    rcases pieces_cases rest delimiter with rfl | ⟨nonempty, alone⟩ | ⟨head, rest, rfl, alone⟩
    · cases tail
    · rw [split_of_absent nonempty alone] at tail
      exact (List.takeWhile_eq_self_iff.mpr (ne_of_absent alone)).trans (List.cons.inj tail).1
    · rw [split_append alone] at tail
      exact (takeWhile_piece alone rest).trans (List.cons.inj tail).1

/-- The second piece of a list is that of one of its elements, unless it runs
on into the elements after that one. -/
theorem secondPiece_of_pieces {separator : UInt8} (differ : separator ≠ delimiter)
    (good : Str → Prop) (value : Str)
    (each : ∀ piece ∈ split value separator, delimiter ∈ piece →
      good (secondPiece delimiter piece)) (present : delimiter ∈ value) :
    good (secondPiece delimiter value) ∨
      ∃ word tail, secondPiece delimiter value = word ++ separator :: tail ∧ good word := by
  induction value using pieces_induction separator with
  | empty => cases present
  | piece value nonempty absent =>
      rw [split_of_absent nonempty absent] at each
      exact .inl (each value (by simp) present)
  | cons first rest absent ih =>
      rw [split_append absent, List.forall_mem_cons] at each
      by_cases inFirst : delimiter ∈ first
      · obtain ⟨front, back, rfl, frontAbsent⟩ := List.eq_append_cons_of_mem inFirst
        have second := each.1 inFirst
        rw [secondPiece_append frontAbsent] at second
        rw [List.append_assoc, List.cons_append, secondPiece_append frontAbsent]
        by_cases inBack : delimiter ∈ back
        · obtain ⟨word, tail, rfl, wordAbsent⟩ := List.eq_append_cons_of_mem inBack
          rw [takeWhile_piece wordAbsent] at second
          rw [List.append_assoc, List.cons_append, takeWhile_piece wordAbsent]
          exact .inl second
        · rw [List.takeWhile_eq_self_iff.mpr (ne_of_absent inBack)] at second
          rw [List.takeWhile_append_of_pos (ne_of_absent inBack),
            List.takeWhile_cons_of_pos (by simpa using differ)]
          exact .inr ⟨back, _, rfl, second⟩
      · have skipped : secondPiece delimiter (first ++ separator :: rest) =
            secondPiece delimiter rest := by
          rw [secondPiece, List.dropWhile_append_of_pos (ne_of_absent inFirst),
            List.dropWhile_cons_of_pos (by simpa using differ)]
          rfl
        rw [skipped]
        refine ih each.2 ?_
        simpa [inFirst, differ.symm] using present

/-! ### Numbers -/

theorem cString_append_of_noNul {text : Str} (noNul : 0 ∉ text) (tail : Str) :
    cString (text ++ tail) = text ++ cString tail := by
  apply List.takeWhile_append_of_pos
  intro char member
  simp only [bne_iff_ne]
  rintro rfl
  exact noNul member

theorem cString_append_of_nul {text : Str} (hasNul : 0 ∈ text) (tail : Str) :
    cString (text ++ tail) = cString text := by
  obtain ⟨front, back, rfl, noNul⟩ := List.eq_append_cons_of_mem hasNul
  rw [List.append_assoc, cString_append_of_noNul noNul, cString_append_of_noNul noNul]
  rfl

/-- The text, as a C string, starts with blanks, a sign and digits. -/
structure Numeral (text sign digits rest : Str) : Prop where
  shape : ∃ blanks, cString text = blanks ++ (sign ++ (digits ++ rest)) ∧
    ∀ char ∈ blanks, isSpace char = true
  isSign : sign = [] ∨ sign = [43] ∨ sign = [45]
  some : digits ≠ []
  all : ∀ char ∈ digits, isDigit char = true
  stop : ∀ char ∈ rest.head?, isDigit char = false

def signed (sign digits : Str) : Int := (if sign = [45] then -1 else 1) * digitsValue digits

theorem isDigit_not_sign {char : UInt8} (digit : isDigit char = true) :
    isSpace char = false ∧ char ≠ 43 ∧ char ≠ 45 := by
  simp only [isDigit, isSpace, Bool.and_eq_true, decide_eq_true_eq] at *
  obtain ⟨low, high⟩ := digit
  refine ⟨?_, ?_, ?_⟩
  · rw [UInt8.le_iff_toNat_le] at low high
    simp only [Bool.or_eq_false_iff, beq_eq_false_iff_ne, ne_eq, Bool.and_eq_false_iff,
      decide_eq_false_iff_not, UInt8.le_iff_toNat_le, ← UInt8.toNat_inj]
    simp at *
    omega
  · rintro rfl
    exact absurd low (by decide)
  · rintro rfl
    exact absurd low (by decide)

/-- The digits that `strtol` converts after blanks and a sign. -/
def unsigned (sign : Int) (text : Str) : Option (Int × Str) :=
  match text.takeWhile isDigit with
  | [] => none
  | digits => some (sign * digitsValue digits, text.dropWhile isDigit)

theorem strtol_eq (text : Str) : strtol text =
    match (cString text).dropWhile isSpace with
    | 43 :: rest => unsigned 1 rest
    | 45 :: rest => unsigned (-1) rest
    | rest => unsigned 1 rest := rfl

theorem unsigned_of_digits {digits rest : Str} (nonempty : digits ≠ [])
    (all : ∀ char ∈ digits, isDigit char = true)
    (stop : ∀ char ∈ rest.head?, isDigit char = false) (sign : Int) :
    unsigned sign (digits ++ rest) = some (sign * digitsValue digits, rest) := by
  obtain ⟨taken, dropped⟩ := takeWhile_append_stop all stop
  obtain ⟨first, more, rfl⟩ := List.exists_cons_of_ne_nil nonempty
  simp only [unsigned, taken, dropped]

theorem digits_of_unsigned {sign number : Int} {text rest : Str}
    (result : unsigned sign text = some (number, rest)) :
    ∃ digits, text = digits ++ rest ∧ digits ≠ [] ∧ (∀ char ∈ digits, isDigit char = true) ∧
      (∀ char ∈ rest.head?, isDigit char = false) ∧ number = sign * digitsValue digits := by
  unfold unsigned at result
  split at result
  · cases result
  · rename_i nonempty
    obtain ⟨rfl, rfl⟩ := Prod.mk.inj (Option.some.inj result)
    refine ⟨_, List.takeWhile_append_dropWhile.symm, nonempty, ?_, ?_, rfl⟩
    · exact fun char => List.mem_takeWhile_imp
    · intro char isHead
      have stopped := List.head?_dropWhile_not isDigit text
      rw [isHead] at stopped
      simpa using stopped

theorem strtol_of_numeral {text sign digits rest : Str} (numeral : Numeral text sign digits rest) :
    strtol text = some (signed sign digits, rest) := by
  obtain ⟨⟨blanks, shape, blank⟩, isSign, nonempty, all, stop⟩ := numeral
  have converted := unsigned_of_digits nonempty all stop
  obtain ⟨first, more, rfl⟩ := List.exists_cons_of_ne_nil nonempty
  obtain ⟨notSpace, notPlus, notMinus⟩ := isDigit_not_sign (all first List.mem_cons_self)
  have skipped : (cString text).dropWhile isSpace = sign ++ ((first :: more) ++ rest) := by
    rw [shape]
    refine (takeWhile_append_stop blank ?_).2
    intro char isHead
    rcases isSign with rfl | rfl | rfl <;> cases isHead
    · exact notSpace
    · rfl
    · rfl
  rw [strtol_eq, skipped]
  rcases isSign with rfl | rfl | rfl
  · rw [List.nil_append]
    split
    · rename_i same
      exact absurd (List.cons.inj same).1 notPlus
    · rename_i same
      exact absurd (List.cons.inj same).1 notMinus
    · exact converted 1
  · exact converted 1
  · exact converted (-1)

theorem numeral_of_strtol {text rest : Str} {number : Int}
    (result : strtol text = some (number, rest)) :
    ∃ sign digits, Numeral text sign digits rest ∧ number = signed sign digits := by
  have blank : ∀ char ∈ (cString text).takeWhile isSpace, isSpace char = true :=
    fun char => List.mem_takeWhile_imp
  have shape := (List.takeWhile_append_dropWhile (p := isSpace) (l := cString text)).symm
  rw [strtol_eq] at result
  split at result
  · rename_i after skipped
    obtain ⟨digits, rfl, nonempty, all, stop, rfl⟩ := digits_of_unsigned result
    rw [skipped] at shape
    exact ⟨[43], digits, ⟨⟨_, shape, blank⟩, .inr (.inl rfl), nonempty, all, stop⟩, rfl⟩
  · rename_i after skipped
    obtain ⟨digits, rfl, nonempty, all, stop, rfl⟩ := digits_of_unsigned result
    rw [skipped] at shape
    exact ⟨[45], digits, ⟨⟨_, shape, blank⟩, .inr (.inr rfl), nonempty, all, stop⟩, rfl⟩
  · obtain ⟨digits, isRest, nonempty, all, stop, rfl⟩ := digits_of_unsigned result
    rw [isRest] at shape
    exact ⟨[], digits, ⟨⟨_, shape, blank⟩, .inl rfl, nonempty, all, stop⟩, rfl⟩

theorem stoi_eq_ok {text : Str} {number : Int} :
    stoi text = .ok number ↔
      (∃ rest, strtol text = some (number, rest)) ∧ intMin ≤ number ∧ number ≤ intMax := by
  unfold stoi
  cases converted : strtol text with
  | none => simp
  | some pair =>
      obtain ⟨value, rest⟩ := pair
      by_cases inRange : intMin ≤ value ∧ value ≤ intMax
      · simp only [if_pos inRange, Except.ok.injEq, Option.some.injEq, Prod.mk.injEq]
        constructor
        · rintro rfl
          exact ⟨⟨rest, rfl, rfl⟩, inRange⟩
        · intro held
          obtain ⟨⟨_, same, _⟩, _⟩ := held
          exact same
      · simp only [if_neg inRange, reduceCtorEq, Option.some.injEq, Prod.mk.injEq, false_iff]
        rintro ⟨⟨_, rfl, _⟩, within⟩
        exact inRange within

theorem digitsValue_nonneg {digits : Str} (all : ∀ char ∈ digits, isDigit char = true) :
    0 ≤ digitsValue digits := by
  have grows : ∀ value : Int, 0 ≤ value → (∀ char ∈ digits, isDigit char = true) →
      0 ≤ digits.foldl (fun value digit => 10 * value + (digit.toNat - 48 : Int)) value := by
    clear all
    induction digits with
    | nil => exact fun _ nonneg _ => nonneg
    | cons char rest ih =>
        intro value nonneg all
        obtain ⟨head, tail⟩ := List.forall_mem_cons.mp all
        simp only [isDigit, Bool.and_eq_true, decide_eq_true_eq, UInt8.le_iff_toNat_le] at head
        have low : 48 ≤ char.toNat := head.1
        exact ih _ (by dsimp only; omega) tail
  exact grows 0 (le_refl 0) all

/-- A text without a minus sign holds no negative number. -/
theorem stoi_nonneg {text : Str} {number : Int} (converted : stoi text = .ok number)
    (noMinus : 45 ∉ text) : 0 ≤ number := by
  obtain ⟨⟨rest, result⟩, _⟩ := stoi_eq_ok.mp converted
  obtain ⟨sign, digits, numeral, rfl⟩ := numeral_of_strtol result
  obtain ⟨⟨blanks, shape, _⟩, isSign, _, all, _⟩ := numeral
  have notMinus : sign ≠ [45] := by
    rintro rfl
    have member : 45 ∈ cString text := by simp [shape]
    exact noMinus ((List.takeWhile_sublist _).subset member)
  rw [signed, if_neg notMinus, Int.one_mul]
  exact digitsValue_nonneg all

theorem isNumeric_iff {text : Str} {number : Int} {rest : Str}
    (converted : strtol text = some (number, rest)) : isNumeric text = true ↔ rest = [] := by
  have nonempty : text.isEmpty = false := by
    cases text with
    | nil => cases converted
    | cons char more => rfl
  simp [isNumeric, nonempty, converted]

/-- A comma is part of a number only behind a zero byte. -/
theorem isNumeric_append {text tail : Str} {char : UInt8} (notDigit : isDigit char = false)
    (notSpace : isSpace char = false) (notSign : char ≠ 43 ∧ char ≠ 45) (notNul : char ≠ 0)
    {number : Int}
    (numeric : isNumeric (text ++ char :: tail) = true)
    (converted : stoi (text ++ char :: tail) = .ok number) :
    isNumeric text = true ∧ stoi text = .ok number ∧ 0 ∈ text := by
  obtain ⟨⟨rest, result⟩, inRange⟩ := stoi_eq_ok.mp converted
  obtain rfl := (isNumeric_iff result).mp numeric
  by_cases hasNul : 0 ∈ text
  · rw [strtol, cString_append_of_nul hasNul, ← strtol] at result
    exact ⟨(isNumeric_iff result).mpr rfl, stoi_eq_ok.mpr ⟨⟨_, result⟩, inRange⟩, hasNul⟩
  · obtain ⟨sign, digits, ⟨⟨blanks, shape, blank⟩, isSign, _, all, _⟩, _⟩ :=
      numeral_of_strtol result
    have member : char ∈ cString (text ++ char :: tail) := by
      rw [cString_append_of_noNul hasNul, cString, List.takeWhile_cons_of_pos (by simpa)]
      simp
    rw [shape, List.append_nil] at member
    rcases List.mem_append.mp member with inBlanks | member
    · cases notSpace.symm.trans (blank char inBlanks)
    · rcases List.mem_append.mp member with inSign | inDigits
      · rcases isSign with rfl | rfl | rfl
        · cases inSign
        · exact absurd (List.mem_singleton.mp inSign) notSign.1
        · exact absurd (List.mem_singleton.mp inSign) notSign.2
      · cases notDigit.symm.trans (all char inDigits)

end BabyLuigi.Cron
