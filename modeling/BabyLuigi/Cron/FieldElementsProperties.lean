import BabyLuigi.Cron.ValidationProperties

/-! What the elements of a text that validation lets through expand to. -/

set_option autoImplicit false

namespace BabyLuigi.Cron

variable {field : CronFieldPos} {value : Str}

/-! ### Numbers of words -/

theorem literal_plain {number : Int} (known : field.literals.lookup value = some number) :
    0 ≤ number ∧ number ≤ field.rangeEnd ∧ 0 ∉ value ∧ listChar ∉ value := by
  have all : ∀ pair ∈ field.literals,
      0 ≤ pair.2 ∧ pair.2 ≤ field.rangeEnd ∧ 0 ∉ pair.1 ∧ listChar ∉ pair.1 := by
    cases field <;> decide
  obtain ⟨earlier, later, split, _⟩ := List.lookup_eq_some_iff.mp known
  exact all (value, number) (by simp [split])

theorem fromLiteral_cases {number : Int} (converted : fromLiteral field value = .ok number) :
    field.literals.lookup value = some number ∨
      field.literals.lookup value = none ∧
        (isNumeric value = true ∧ stoi value = .ok number ∨ number = -1) := by
  unfold fromLiteral at converted
  split at converted
  · rename_i known
    exact .inl ((Except.ok.inj converted) ▸ known)
  · rename_i unknown
    refine .inr ⟨unknown, ?_⟩
    split at converted
    · exact .inl ⟨‹_›, converted⟩
    · exact .inr (Except.ok.inj converted).symm

theorem fromLiteral_lower {number : Int} (converted : fromLiteral field value = .ok number)
    (noMinus : rangeChar ∉ value) : -1 ≤ number := by
  rcases fromLiteral_cases converted with known | ⟨_, ⟨_, number⟩ | rfl⟩
  · have nonneg := (literal_plain known).1
    omega
  · have nonneg := stoi_nonneg number noMinus
    omega
  · exact le_refl _

/-- What stands behind a comma leaves the number of a word, or spoils it. -/
theorem fromLiteral_before_comma {word tail : Str} {number : Int}
    (converted : fromLiteral field (word ++ listChar :: tail) = .ok number) :
    number = -1 ∨ fromLiteral field word = .ok number := by
  rcases fromLiteral_cases converted with known | ⟨_, ⟨numeric, number⟩ | rfl⟩
  · exact absurd (by simp) (literal_plain known).2.2.2
  · obtain ⟨wordNumeric, wordNumber, hasNul⟩ :=
      isNumeric_append (by decide) (by decide) (by decide) (by decide) numeric number
    refine .inr ?_
    cases known : field.literals.lookup word with
    | some literal => exact absurd hasNul (literal_plain known).2.2.1
    | none => simp only [fromLiteral, known, if_pos wordNumeric, wordNumber]
  · exact .inl rfl

/-! ### Loops of numbers -/

theorem countFrom_ok {step last : Int} (positive : 1 ≤ step) (fits : last + step ≤ intMax)
    (fuel : Nat) : ∀ i, last - i + 1 ≤ fuel →
      ∃ list, countFrom step last fuel i = .ok list ∧ (∀ number ∈ list, number ≤ last) ∧
        (i ≤ last → list ≠ []) := by
  induction fuel with
  | zero =>
      intro i enough
      have past : ¬ i ≤ last := by omega
      exact ⟨[], by simp [countFrom, past], by simp, fun within => absurd within past⟩
  | succ fuel ih =>
      intro i enough
      by_cases within : i ≤ last
      · obtain ⟨rest, counted, bounded, _⟩ := ih (i + step) (by omega)
        have noOverflow : ¬ i + step > intMax := by omega
        refine ⟨i :: rest, ?_, List.forall_mem_cons.mpr ⟨within, bounded⟩, fun _ => by simp⟩
        simp only [countFrom, if_pos within, if_neg noOverflow, bind_of_ok counted]
        rfl
      · exact ⟨[], by simp [countFrom, within], by simp, fun held => absurd held within⟩

theorem countUp_ok (first : Int) {last step : Int} (positive : 1 ≤ step) (fits : last + step ≤ intMax) :
    ∃ list, countUp first last step = .ok list ∧ (∀ number ∈ list, number ≤ last) ∧
      (first ≤ last → list ≠ []) :=
  countFrom_ok positive fits _ first (by omega)

/-- The element expands to some numbers, none above the last of the field. -/
def Reads (field : CronFieldPos) (value : Str) : Prop :=
  ∃ list, createElement field value = .ok list ∧ list ≠ [] ∧
    ∀ number ∈ list, number ≤ field.rangeEnd

theorem reads_of_range {offset last step : Int}
    (isRange : (hasStep value || hasRange value) = true)
    (range : rangeOf field value = .ok (offset, last, step)) (positive : 1 ≤ step)
    (fits : field.rangeEnd + step ≤ intMax) (offsetWithin : offset ≤ field.rangeEnd)
    (lastWithin : last ≤ field.rangeEnd)
    (forward : field.allowBackwardRange = false → offset ≤ last) : Reads field value := by
  obtain ⟨list, counted, bounded, nonempty⟩ :=
    countUp_ok offset positive (show last + step ≤ intMax by omega)
  simp only [Reads, createElement, if_pos isRange, bind_of_ok range]
  split
  · rename_i backward
    obtain ⟨upper, upCounted, upBounded, upNonempty⟩ :=
      countUp_ok offset positive fits
    obtain ⟨lower, lowCounted, lowBounded, _⟩ :=
      countUp_ok field.rangeStart positive (show last + step ≤ intMax by omega)
    rw [bind_of_ok upCounted, bind_of_ok lowCounted]
    refine ⟨upper ++ lower, rfl, by simp [upNonempty offsetWithin], ?_⟩
    intro number member
    rcases List.mem_append.mp member with inUpper | inLower
    · exact upBounded number inUpper
    · exact (lowBounded number inLower).trans lastWithin
  · rename_i notBackward
    have ordered : offset ≤ last := by
      cases allowed : field.allowBackwardRange with
      | true => simpa [allowed] using notBackward
      | false => exact forward allowed
    exact ⟨list, counted, nonempty ordered, fun number member =>
      (bounded number member).trans lastWithin⟩

/-! ### Validated parts -/

def Validated (field : CronFieldPos) (value : Str) : Prop :=
  ∃ fuel, validateWithin fuel field value = .ok true

/-- Texts that are validated whole: no suffix is cut off them. -/
def Plain (field : CronFieldPos) (value : Str) : Prop :=
  field ≠ .dayOfWeek ∧ (field = .dayOfMonth → 87 ∉ value)

/-- The texts without the suffixes of their field. -/
def Unsuffixed (field : CronFieldPos) (value : Str) : Prop :=
  (field = .dayOfWeek → 76 ∉ value ∧ 35 ∉ value) ∧ (field = .dayOfMonth → 87 ∉ value)

/-- The texts of a day of the month that are no list of numbers. -/
def Special (field : CronFieldPos) (value : Str) : Prop :=
  field = .dayOfMonth ∧ (value = ascii "L" ∨ value = ascii "?")

theorem plain_of_numbers (numbers : field ≠ .dayOfWeek ∧ field ≠ .dayOfMonth) : Plain field value :=
  ⟨numbers.1, fun isDay => absurd isDay numbers.2⟩

theorem Plain.unsuffixed (plain : Plain field value) : Unsuffixed field value :=
  ⟨fun isWeekday => absurd isWeekday plain.1, plain.2⟩

theorem Unsuffixed.noWeekday (plain : Unsuffixed .dayOfMonth value) :
    parseNearestWeekday value = [] := by
  simp [parseNearestWeekday, before, plain.2 rfl]

theorem Unsuffixed.noSuffix (plain : Unsuffixed .dayOfWeek value) :
    parseLastDayOfWeek value = [] ∧ parseNthDayOfWeek value = ([], []) := by
  simp [parseLastDayOfWeek, parseNthDayOfWeek, before, plain.1 rfl]

theorem Unsuffixed.part {part : Str} (plain : Unsuffixed field value) (sub : part ⊆ value) :
    Unsuffixed field part :=
  ⟨fun isWeekday => ⟨fun member => (plain.1 isWeekday).1 (sub member),
    fun member => (plain.1 isWeekday).2 (sub member)⟩,
    fun isDay member => plain.2 isDay (sub member)⟩

theorem Accepted.mono {passes weaker : Str → Prop} (accepted : Accepted field passes value)
    (weakens : ∀ part, passes part → weaker part) : Accepted field weaker value := by
  cases accepted with
  | every => exact .every
  | step pieces passed noList converted positive bounds within =>
      exact .step pieces (weakens _ passed) noList converted positive bounds within
  | list noStep isList isOpen each =>
      exact .list noStep isList isOpen fun element member =>
        ⟨(each element member).1, weakens _ (each element member).2⟩
  | range noStep noList pieces first second firstPlain secondPlain start last forward =>
      exact .range noStep noList pieces (weakens _ first) (weakens _ second) firstPlain secondPlain
        start last forward
  | single nonempty noStep noList noRange converted nonneg low high =>
      exact .single nonempty noStep noList noRange converted nonneg low high

theorem accepted_of_validated (plain : Unsuffixed field value) (validated : Validated field value) :
    (Special field value ∨ field = .dayOfWeek ∧ value = ascii "?") ∨
      Accepted field (Validated field) value := by
  obtain ⟨fuel, valid⟩ := validated
  cases fuel with
  | zero => cases valid
  | succ fuel =>
      have shared (valid : validateBase field (validateWithin fuel field) value = .ok true) :
          Accepted field (Validated field) value :=
        (accepted_of_validateBase valid).mono fun _ passed => ⟨fuel, passed⟩
      cases field with
      | dayOfMonth =>
          simp only [validateWithin] at valid
          split at valid
          · rename_i special
            exact .inl (.inl ⟨rfl, by simpa using special⟩)
          · split at valid
            · cases pure_eq_ok.mp valid
            · rw [plain.noWeekday] at valid
              exact .inr (shared valid)
      | dayOfWeek =>
          simp only [validateWithin, plain.noSuffix, List.isEmpty_nil, Bool.not_true,
            Bool.false_eq_true, if_false] at valid
          split at valid
          · exact .inl (.inr ⟨rfl, ‹_›⟩)
          · exact .inr (shared valid)
      | minute => exact .inr (shared valid)
      | hour => exact .inr (shared valid)
      | month => exact .inr (shared valid)

theorem fromLiteral_every : fromLiteral field (ascii "*") = .ok (-1) := by
  cases field <;> rfl

/-- What validation tells of a text, by the separators in it. -/
inductive Shape (field : CronFieldPos) (value : Str) : Prop where
  | word {number : Int} : value ≠ [] → stepChar ∉ value → listChar ∉ value → rangeChar ∉ value →
      fromLiteral field value = .ok number → number ≤ field.rangeEnd → Shape field value
  | range {first second : Str} {start last : Int} : stepChar ∉ value → listChar ∉ value →
      splitRange value = [first, second] → Validated field first → Validated field second →
      fromLiteral field first = .ok start → fromLiteral field second = .ok last →
      (field.allowBackwardRange = false → start < last) → Shape field value
  | list : stepChar ∉ value → listChar ∈ value → value.getLast? ≠ some listChar →
      (∀ element ∈ splitList value, Validated field element) → Shape field value
  | step {range stepText : Str} {step first last : Int} : splitStep value = [range, stepText] →
      Validated field range → listChar ∉ stepText → stoi stepText = .ok step → 1 ≤ step →
      boundsOf field range = .ok (first, last) → step ≤ rangeLength field first last →
      Shape field value

theorem shape_of_validated (plain : Unsuffixed field value) (validated : Validated field value) :
    Shape field value := by
  rcases accepted_of_validated plain validated with (⟨rfl, rfl | rfl⟩ | ⟨rfl, rfl⟩) | accepted
  · exact .word (by decide) (by decide) (by decide) (by decide) rfl (by decide)
  · exact .word (by decide) (by decide) (by decide) (by decide) rfl (by decide)
  · exact .word (by decide) (by decide) (by decide) (by decide) rfl (by decide)
  · cases accepted with
    | every =>
        exact .word (by decide) (by decide) (by decide) (by decide) fromLiteral_every
          (by cases field <;> decide)
    | step pieces passed noList converted positive bounds within =>
        exact .step pieces passed noList converted positive bounds within
    | list noStep isList isOpen each =>
        exact .list noStep isList isOpen fun element member => (each element member).2
    | range noStep noList pieces first second _ _ start last forward =>
        exact .range noStep noList pieces first second start last forward
    | single nonempty noStep noList noRange converted _ _ high =>
        exact .word nonempty noStep noList noRange converted high

theorem nonempty_of_validated (plain : Unsuffixed field value) (validated : Validated field value) :
    value ≠ [] := by
  cases shape_of_validated plain validated with
  | word nonempty => exact nonempty
  | range _ _ pieces => exact List.ne_nil_of_mem (mem_of_split_eq_pair pieces)
  | list _ isList => exact List.ne_nil_of_mem isList
  | step pieces => exact List.ne_nil_of_mem (mem_of_split_eq_pair pieces)

/-- A piece between commas, in front of any step: a word or a range of words. -/
inductive Atom (field : CronFieldPos) (value : Str) : Prop where
  | word {number : Int} : rangeChar ∉ value → fromLiteral field value = .ok number →
      number ≤ field.rangeEnd → Atom field value
  | range {first second : Str} {start last : Int} : splitRange value = [first, second] →
      fromLiteral field first = .ok start → fromLiteral field second = .ok last →
      start ≤ field.rangeEnd → last ≤ field.rangeEnd →
      (field.allowBackwardRange = false → start < last) → Atom field value

theorem number_of_word {number : Int} (plain : Unsuffixed field value)
    (validated : Validated field value) (noRange : rangeChar ∉ value) (noStep : stepChar ∉ value)
    (noList : listChar ∉ value) (converted : fromLiteral field value = .ok number) :
    number ≤ field.rangeEnd := by
  cases shape_of_validated plain validated with
  | word _ _ _ _ isNumber within =>
      cases converted.symm.trans isNumber
      exact within
  | range _ _ pieces => exact absurd (mem_of_split_eq_pair pieces) noRange
  | list _ isList => exact absurd isList noList
  | step pieces => exact absurd (mem_of_split_eq_pair pieces) noStep

theorem atom_of_validated (plain : Unsuffixed field value) (validated : Validated field value)
    (noStep : stepChar ∉ value) (noList : listChar ∉ value) : Atom field value := by
  cases shape_of_validated plain validated with
  | word _ _ _ noRange converted within => exact .word noRange converted within
  | list _ isList => exact absurd isList noList
  | step pieces => exact absurd (mem_of_split_eq_pair pieces) noStep
  | @range first second start last _ _ pieces firstPassed secondPassed isStart isLast forward =>
      have within {part : Str} {number : Int} (member : part ∈ splitRange value)
          (passed : Validated field part) (converted : fromLiteral field part = .ok number) :
          number ≤ field.rangeEnd := by
        obtain ⟨alone, sub⟩ := of_mem_split value part member
        exact number_of_word (plain.part sub) passed alone (fun held => noStep (sub held))
          (fun held => noList (sub held)) converted
      exact .range pieces isStart isLast (within (by simp [pieces]) firstPassed isStart)
        (within (by simp [pieces]) secondPassed isLast) forward

/-! ### Days of the month with a suffix -/

theorem parseNearestWeekday_leading (rest : Str) : parseNearestWeekday (87 :: rest) = [] := by
  simp [parseNearestWeekday, before]

/-- Nothing that starts with the suffix of a weekday is validated. -/
theorem not_validated_leading (fuel : Nat) :
    ∀ rest, validateWithin fuel .dayOfMonth (87 :: rest) ≠ .ok true := by
  induction fuel with
  | zero =>
      intro rest valid
      cases valid
  | succ fuel ih =>
      intro rest valid
      have leading {part : Str} {pieces : List Str} {delimiter : UInt8} (notDelimiter : 87 ≠ delimiter)
          (split : split (87 :: rest) delimiter = part :: pieces) :
          validateWithin fuel .dayOfMonth part ≠ .ok true := by
        rcases pieces_cases (87 :: rest) delimiter with impossible | ⟨nonempty, absent⟩ |
            ⟨first, more, shape, absent⟩
        · cases impossible
        · rw [split_of_absent nonempty absent] at split
          obtain ⟨rfl, _⟩ := List.cons.inj split
          exact ih rest
        · rw [shape, split_append absent] at split
          obtain ⟨rfl, _⟩ := List.cons.inj split
          cases first with
          | nil => exact absurd (List.cons.inj shape).1 notDelimiter
          | cons char tail =>
              obtain ⟨rfl, _⟩ := List.cons.inj shape
              exact ih tail
      simp only [validateWithin, parseNearestWeekday_leading] at valid
      split at valid
      · rename_i special
        rcases Bool.or_eq_true_iff.mp special with same | same
        · exact absurd (List.cons.inj (of_decide_eq_true same)).1 (by decide)
        · exact absurd (List.cons.inj (of_decide_eq_true same)).1 (by decide)
      · split at valid
        · cases pure_eq_ok.mp valid
        · have accepted := accepted_of_validateBase valid
          rw [if_pos List.isEmpty_nil] at accepted
          generalize shape : 87 :: rest = value at accepted
          cases accepted with
          | every => exact absurd (List.cons.inj shape).1 (by decide)
          | step pieces passed =>
              subst shape
              exact leading (by decide) pieces passed
          | list _ isList _ each =>
              subst shape
              have some : splitList (87 :: rest) ≠ [] := split_ne_nil (List.cons_ne_nil 87 rest)
              obtain ⟨first, more, pieces⟩ := List.exists_cons_of_ne_nil some
              have passed := (each first (by rw [pieces]; exact List.mem_cons_self)).2
              exact leading (by decide) pieces passed
          | range _ _ pieces passed =>
              subst shape
              exact leading (by decide) pieces passed
          | single _ _ _ _ converted nonneg =>
              subst shape
              have noNumber : fromLiteral .dayOfMonth (87 :: rest) = .ok (-1) := rfl
              cases noNumber.symm.trans converted
              exact absurd nonneg (by decide)

theorem dayOfMonth_cases (validated : Validated .dayOfMonth value) :
    parseNearestWeekday value ≠ [] ∧ listChar ∉ value ∨ Plain .dayOfMonth value := by
  obtain ⟨fuel, valid⟩ := validated
  by_cases suffix : 87 ∈ value
  · obtain ⟨front, back, rfl, absent⟩ := List.eq_append_cons_of_mem suffix
    cases front with
    | nil => exact absurd valid (not_validated_leading fuel back)
    | cons char more =>
        have weekday : parseNearestWeekday (char :: more ++ 87 :: back) = char :: more := by
          rw [parseNearestWeekday, before, if_pos (by simp), takeWhile_piece absent]
        refine .inl ⟨by rw [weekday]; exact List.cons_ne_nil _ _, fun isList => ?_⟩
        cases fuel with
        | zero => cases valid
        | succ fuel =>
            simp only [validateWithin, weekday] at valid
            split at valid
            · rename_i special
              rcases Bool.or_eq_true_iff.mp special with same | same
              · rw [of_decide_eq_true same] at suffix
                exact absurd suffix (by decide)
              · rw [of_decide_eq_true same] at suffix
                exact absurd suffix (by decide)
            · split at valid
              · cases pure_eq_ok.mp valid
              · rename_i notList
                have isListed : hasList (char :: more ++ 87 :: back) = true := mem_of_contains.mpr isList
                exact notList (by rw [isListed]; rfl)
  · exact .inr ⟨by decide, fun _ => suffix⟩

/-! ### Elements -/

theorem Atom.reads (atom : Atom field value) (noStep : stepChar ∉ value) : Reads field value := by
  have notStep : hasStep value = false := by simpa [hasStep] using noStep
  cases atom with
  | word noRange converted within =>
      have notRange : hasRange value = false := by simpa [hasRange] using noRange
      refine ⟨[_], ?_, by simp, by simpa using within⟩
      simp only [createElement, notStep, notRange, Bool.or_self, Bool.false_eq_true, if_false,
        bind_of_ok converted]
      rfl
  | @range first second start last pieces isStart isLast startWithin lastWithin forward =>
      obtain ⟨_, _, _, shape, _⟩ := split_eq_pair pieces
      have isRange : (hasStep value || hasRange value) = true := by simp [hasRange, shape]
      have bounds : rangeOf field value = .ok (start, last, 1) := by
        simp only [rangeOf, notStep, Bool.false_eq_true, if_false, pieces, twoPieces]
        simp only [bind, Except.bind, isStart, isLast]
        rfl
      refine reads_of_range isRange bounds le_rfl (by cases field <;> decide) startWithin lastWithin ?_
      exact fun onlyForward => (forward onlyForward).le

theorem Atom.reads_step {rest stepText : Str} {step : Int} (atom : Atom field value)
    (nonempty : value ≠ [])
    (pieces : splitStep (value ++ stepChar :: rest) = [value, stepText])
    (converted : stoi stepText = .ok step) (positive : 1 ≤ step)
    (fits : field.rangeEnd + step ≤ intMax) : Reads field (value ++ stepChar :: rest) := by
  have isStep : hasStep (value ++ stepChar :: rest) = true := by simp [hasStep]
  have range {first last : Int} (bounds : boundsOf field value = .ok (first, last)) :
      rangeOf field (value ++ stepChar :: rest) = .ok (first, last, step) := by
    have two : twoPieces [value, stepText] = .ok (value, stepText) := rfl
    simp only [rangeOf, isStep, if_true, pieces, bind_of_ok two, bind_of_ok converted]
    unfold boundsOf at bounds
    split
    · rename_i every
      rw [if_pos every] at bounds
      cases bounds
      rfl
    · rename_i notEvery
      rw [if_neg notEvery] at bounds
      split
      · rename_i none
        simp only [none] at bounds
        cases bounds
      · rename_i single
        simp only [single] at bounds
        obtain ⟨_, isFirst, same⟩ := bind_eq_ok.mp bounds
        cases pure_eq_ok.mp same
        rw [bind_of_ok isFirst]
        rfl
      · rename_i several
        simp only [several] at bounds
        obtain ⟨_, isFirst, bounds⟩ := bind_eq_ok.mp bounds
        obtain ⟨_, isSecond, same⟩ := bind_eq_ok.mp bounds
        cases pure_eq_ok.mp same
        rw [bind_of_ok isFirst, bind_of_ok isSecond]
        rfl
  have whole : (hasStep (value ++ stepChar :: rest) || hasRange (value ++ stepChar :: rest)) = true := by
    rw [isStep, Bool.true_or]
  have within : field.rangeStart ≤ field.rangeEnd := by cases field <;> decide
  by_cases every : value = ascii "*"
  · have bounds : boundsOf field value = .ok (field.rangeStart, field.rangeEnd) := if_pos every
    exact reads_of_range whole (range bounds) positive fits within le_rfl fun _ => within
  · cases atom with
    | @word number noRange isNumber numberWithin =>
        have single : splitRange value = [value] := split_of_absent nonempty noRange
        have bounds : boundsOf field value = .ok (number, field.rangeEnd) := by
          simp only [boundsOf, if_neg every, single, bind_of_ok isNumber]
          rfl
        exact reads_of_range whole (range bounds) positive fits numberWithin le_rfl fun _ => numberWithin
    | @range first second start last rangePieces isStart isLast startWithin lastWithin forward =>
        have bounds : boundsOf field value = .ok (start, last) := by
          simp only [boundsOf, if_neg every, rangePieces, bind_of_ok isStart, bind_of_ok isLast]
          rfl
        exact reads_of_range whole (range bounds) positive fits startWithin lastWithin
          fun onlyForward => (forward onlyForward).le

theorem atoms_of_validated (plain : Unsuffixed field value) (validated : Validated field value)
    (noStep : stepChar ∉ value) :
    ∀ element ∈ splitList value, element ≠ [] ∧ stepChar ∉ element ∧ Atom field element := by
  have single (noList : listChar ∉ value) :
      ∀ element ∈ splitList value, element ≠ [] ∧ stepChar ∉ element ∧ Atom field element := by
    have nonempty := nonempty_of_validated plain validated
    rw [splitList, split_of_absent nonempty noList]
    simpa [nonempty, noStep] using atom_of_validated plain validated noStep noList
  cases shape_of_validated plain validated with
  | word _ _ noList => exact single noList
  | range _ noList => exact single noList
  | step pieces => exact absurd (mem_of_split_eq_pair pieces) noStep
  | list _ _ _ each =>
      intro element member
      obtain ⟨alone, sub⟩ := of_mem_split value element member
      have partPlain := plain.part sub
      have partNoStep : stepChar ∉ element := fun held => noStep (sub held)
      exact ⟨nonempty_of_validated partPlain (each element member), partNoStep,
        atom_of_validated partPlain (each element member) partNoStep alone⟩

/-- Bounds read across the elements of a list still lie in the field. -/
theorem bounds_of_validated {first last : Int} (plain : Unsuffixed field value)
    (validated : Validated field value) (noStep : stepChar ∉ value)
    (bounds : boundsOf field value = .ok (first, last)) : -1 ≤ first ∧ last ≤ field.rangeEnd := by
  have atoms := atoms_of_validated plain validated noStep
  have alone : ∀ piece ∈ splitRange value, rangeChar ∉ piece := fun piece member =>
    (of_mem_split value piece member).1
  unfold boundsOf at bounds
  split at bounds
  · cases bounds
    exact ⟨by cases field <;> decide, le_rfl⟩
  · split at bounds
    · cases bounds
    · rename_i piece pieces
      obtain ⟨start, isStart, same⟩ := bind_eq_ok.mp bounds
      cases pure_eq_ok.mp same
      exact ⟨fromLiteral_lower isStart (alone piece (by simp [pieces])), le_rfl⟩
    · rename_i piece second more pieces
      obtain ⟨start, isStart, rest⟩ := bind_eq_ok.mp bounds
      obtain ⟨stop, isStop, same⟩ := bind_eq_ok.mp rest
      cases pure_eq_ok.mp same
      refine ⟨fromLiteral_lower isStart (alone piece (by simp [pieces])), ?_⟩
      have second_eq := secondPiece_of_split pieces
      have present : rangeChar ∈ value := by
        by_contra absent
        have single := split_of_absent (nonempty_of_validated plain validated) absent
        cases pieces.symm.trans single
      let Within (word : Str) : Prop :=
        ∀ number, fromLiteral field word = .ok number → number ≤ field.rangeEnd
      have each : ∀ element ∈ splitList value, rangeChar ∈ element →
          Within (secondPiece rangeChar element) := by
        intro element member isRange number converted
        cases (atoms element member).2.2 with
        | word noRange => exact absurd isRange noRange
        | range parts _ isLast _ lastWithin =>
            rw [secondPiece_of_split parts] at converted
            cases converted.symm.trans isLast
            exact lastWithin
      have within := secondPiece_of_pieces (by decide) Within value each present
      rw [second_eq] at within
      rcases within with direct | ⟨word, tail, rfl, direct⟩
      · exact direct _ isStop
      · rcases fromLiteral_before_comma isStop with rfl | converted
        · cases field <;> decide
        · exact direct _ converted

theorem rangeLength_le {first last : Int} (low : -1 ≤ first) (high : last ≤ field.rangeEnd) :
    rangeLength field first last ≤ field.rangeEnd + 1 := by
  simp only [rangeLength]
  split_ifs <;> omega

theorem isOpen_of_validated (plain : Unsuffixed field value) (validated : Validated field value)
    (noStep : stepChar ∉ value) : value.getLast? ≠ some listChar := by
  cases shape_of_validated plain validated with
  | list _ _ isOpen => exact isOpen
  | word _ _ noList => exact fun closes => noList (List.mem_of_getLast? closes)
  | range _ noList => exact fun closes => noList (List.mem_of_getLast? closes)
  | step pieces => exact absurd (mem_of_split_eq_pair pieces) noStep

/-- The step of a text belongs to the last element before it. -/
theorem reads_of_step {range rest stepText : Str} {step : Int} (plain : Unsuffixed field range)
    (validated : Validated field range) (noStep : stepChar ∉ range) (noList : listChar ∉ rest)
    (pieces : split rest stepChar = [stepText]) (converted : stoi stepText = .ok step)
    (positive : 1 ≤ step) (fits : field.rangeEnd + step ≤ intMax) :
    ∀ element ∈ splitList (range ++ stepChar :: rest), element ≠ [] ∧ Reads field element := by
  have atoms := atoms_of_validated plain validated noStep
  have absentTail : listChar ∉ stepChar :: rest := by
    simpa using ⟨by decide, noList⟩
  obtain ⟨init, last, whole, extended⟩ := split_append_tail range
    (nonempty_of_validated plain validated) (isOpen_of_validated plain validated noStep) absentTail
  obtain ⟨lastNonempty, lastNoStep, atom⟩ := atoms last (by simp [splitList, whole])
  have lastPieces : splitStep (last ++ stepChar :: rest) = [last, stepText] := by
    rw [splitStep, split_append lastNoStep, pieces]
  rw [splitList, extended]
  intro element member
  rcases List.mem_append.mp member with inInit | isLast
  · obtain ⟨elementNonempty, elementNoStep, inner⟩ :=
      atoms element (by simp [splitList, whole, inInit])
    exact ⟨elementNonempty, inner.reads elementNoStep⟩
  · obtain rfl := List.mem_singleton.mp isLast
    exact ⟨by simp, atom.reads_step lastNonempty lastPieces converted positive fits⟩

/-- Every element of a validated text expands to numbers of the field. -/
theorem reads_of_validated (plain : Unsuffixed field value) (validated : Validated field value) :
    splitList value ≠ [] ∧ ∀ element ∈ splitList value, element ≠ [] ∧ Reads field element := by
  refine ⟨split_ne_nil (nonempty_of_validated plain validated), ?_⟩
  have unstepped (noStep : stepChar ∉ value) :
      ∀ element ∈ splitList value, element ≠ [] ∧ Reads field element := fun element member =>
    have atoms := atoms_of_validated plain validated noStep element member
    ⟨atoms.1, atoms.2.2.reads atoms.2.1⟩
  cases shape_of_validated plain validated with
  | word _ noStep => exact unstepped noStep
  | range noStep => exact unstepped noStep
  | list noStep => exact unstepped noStep
  | @step range stepText step first last pieces passed noList converted positive bounds within =>
      obtain ⟨noStep, _, rest, rfl, shape⟩ := split_eq_pair pieces
      have rangePlain : Unsuffixed field range := plain.part fun char member => by simp [member]
      obtain ⟨low, high⟩ := bounds_of_validated rangePlain passed noStep bounds
      have fits : field.rangeEnd + step ≤ intMax := by
        have bounded : rangeLength field first last ≤ field.rangeEnd + 1 := rangeLength_le low high
        have small : field.rangeEnd ≤ 59 := by cases field <;> decide
        simp only [intMax]
        omega
      have restNoList : listChar ∉ rest := by
        rcases shape with ⟨rfl, _⟩ | rfl
        · exact noList
        · simpa using ⟨noList, by decide⟩
      have tail : split rest stepChar = [stepText] := by
        rw [splitStep, split_append noStep] at pieces
        exact (List.cons.inj pieces).2
      exact reads_of_step rangePlain passed noStep restNoList tail converted positive fits

/-! ### Matching and stepping -/

theorem createList_of_validated (plain : Unsuffixed field value) (validated : Validated field value) :
    ∃ list, createList field value = .ok list ∧ list ≠ [] ∧
      ∀ number ∈ list, number ≤ field.rangeEnd := by
  obtain ⟨nonempty, each⟩ := reads_of_validated plain validated
  choose! expand created some bounded using fun element member => (each element member).2
  refine ⟨((splitList value).map expand).flatten, ?_, ?_, ?_⟩
  · rw [createList, bind_of_ok (mapM_of_forall created)]
    rfl
  · obtain ⟨first, rest, pieces⟩ := List.exists_cons_of_ne_nil nonempty
    have firstSome := some first (by simp [pieces])
    simp [pieces, firstSome]
  · intro number member
    obtain ⟨_, isList, inList⟩ := List.mem_flatten.mp member
    obtain ⟨element, isElement, rfl⟩ := List.mem_map.mp isList
    exact bounded element isElement number inList

theorem scan_mem (number first : Int) (rest : List Int) :
    ∀ current, nextElement.scan number first current rest = first ∨
      nextElement.scan number first current rest ∈ rest := by
  induction rest with
  | nil => exact fun _ => .inl rfl
  | cons next rest ih =>
      intro current
      rw [nextElement.scan]
      split
      · exact .inr List.mem_cons_self
      · rcases ih next with isFirst | member
        · exact .inl isFirst
        · exact .inr (List.mem_cons_of_mem next member)

theorem nextElement_mem (number : Int) {list : List Int} (nonempty : list ≠ []) :
    ∃ element ∈ list, nextElement number list = some element := by
  obtain ⟨first, rest, rfl⟩ := List.exists_cons_of_ne_nil nonempty
  refine ⟨_, ?_, rfl⟩
  rcases scan_mem number first rest first with isFirst | member
  · rw [isFirst]
    exact List.mem_cons_self
  · exact List.mem_cons_of_mem first member

theorem chooseElement_of_validated (plain : Unsuffixed field value)
    (validated : Validated field value) (number : Int) :
    ∃ element, chooseElement field value number = .ok element ∧ element ≤ field.rangeEnd := by
  obtain ⟨list, created, nonempty, bounded⟩ := createList_of_validated plain validated
  obtain ⟨element, member, chosen⟩ := nextElement_mem number nonempty
  refine ⟨element, ?_, bounded element member⟩
  rw [chooseElement, bind_of_ok created, chosen]
  rfl

theorem createList_alone {list : List Int} (nonempty : value ≠ []) (alone : listChar ∉ value)
    (created : createElement field value = .ok list) : createList field value = .ok list := by
  have single : splitList value = [value] := split_of_absent nonempty alone
  simp only [createList, single, List.mapM_cons, bind_of_ok created, List.mapM_nil]
  simp [bind, Except.bind, pure, Except.pure]

theorem matchNumber_of_reads (nonempty : value ≠ []) (alone : listChar ∉ value)
    (reads : Reads field value) (number : Int) :
    ∃ matched, matchNumber field value number = .ok matched := by
  obtain ⟨list, created, _⟩ := reads
  unfold matchNumber
  split
  · exact ⟨true, rfl⟩
  · split
    · rw [bind_of_ok (createList_alone nonempty alone created)]
      exact ⟨_, rfl⟩
    · rename_i scalar
      simp only [Bool.or_eq_true, not_or, Bool.not_eq_true] at scalar
      simp only [createElement, scalar, Bool.or_self, Bool.false_eq_true, if_false] at created
      obtain ⟨converted, isNumber, _⟩ := bind_eq_ok.mp created
      rw [bind_of_ok isNumber]
      exact ⟨_, rfl⟩

/-- On a validated text the matcher of a number answers for every element. -/
theorem matchNumber_of_validated (plain : Unsuffixed field value) (validated : Validated field value) :
    ∀ element ∈ splitList value, ∀ number, ∃ matched, matchNumber field element number = .ok matched :=
  fun element member number =>
    matchNumber_of_reads ((reads_of_validated plain validated).2 element member).1
      (of_mem_split value element member).1 ((reads_of_validated plain validated).2 element member).2
      number

end BabyLuigi.Cron
