import BabyLuigi.Cron.AscendingScheduleProperties

/-! The fields without suffixes match the numbers they list. -/

set_option autoImplicit false

namespace BabyLuigi.Cron

open DateTime

variable {field : CronFieldPos} {element value : Str} {time : DateTime}

/-! ### Elements -/

theorem matchNumber_listed {part : List Int} (nonempty : element ≠ [])
    (alone : listChar ∉ element) (notEvery : element ≠ ascii "*")
    (created : createElement field element = .ok part) (number : Int) :
    matchNumber field element number = .ok (decide (number ∈ part)) := by
  have noList : hasList element = false := by simpa [hasList] using alone
  rw [matchNumber, if_neg notEvery]
  split
  · rw [bind_of_ok (createList_alone nonempty alone created), List.contains_eq_mem]
    rfl
  · rename_i scalar
    simp only [noList, Bool.false_or, Bool.or_eq_true, not_or, Bool.not_eq_true] at scalar
    simp only [createElement, scalar, Bool.or_self, Bool.false_eq_true, if_false] at created
    obtain ⟨converted, isNumber, same⟩ := bind_eq_ok.mp created
    obtain rfl := pure_eq_ok.mp same
    rw [bind_of_ok isNumber]
    simp [pure, Except.pure]

/-- Only a text that is a star by itself has a star among its elements. -/
theorem elements_notEvery (plain : Unsuffixed field value) (validated : Validated field value)
    (notEvery : value ≠ ascii "*") : ∀ element ∈ splitList value, element ≠ ascii "*" := by
  have single {text : Str} (nonempty : text ≠ []) (notStar : text ≠ ascii "*")
      (noList : listChar ∉ text) : ∀ element ∈ splitList text, element ≠ ascii "*" := by
    rw [splitList, split_of_absent nonempty noList]
    simpa using notStar
  have unstepped {text : Str} (unsuffixed : Unsuffixed field text) (valid : Validated field text)
      (notStar : text ≠ ascii "*") (noStep : stepChar ∉ text) :
      ∀ element ∈ splitList text, element ≠ ascii "*" := by
    have nonempty := nonempty_of_validated unsuffixed valid
    rcases accepted_of_validated unsuffixed valid with (⟨_, rfl | rfl⟩ | ⟨_, rfl⟩) | accepted
    · exact single nonempty notStar (by decide)
    · exact single nonempty notStar (by decide)
    · exact single nonempty notStar (by decide)
    · cases accepted with
      | every => exact absurd rfl notStar
      | step pieces => exact absurd (mem_of_split_eq_pair pieces) noStep
      | list _ _ _ each => exact fun element member => (each element member).1
      | range _ noList => exact single nonempty notStar noList
      | single _ _ noList => exact single nonempty notStar noList
  by_cases noStep : stepChar ∉ value
  · exact unstepped plain validated notEvery noStep
  · cases shape_of_validated plain validated with
    | word _ absent => exact absurd absent noStep
    | range absent => exact absurd absent noStep
    | list absent => exact absurd absent noStep
    | @step range stepText step first last pieces passed noList =>
        obtain ⟨rangeNoStep, _, rest, rfl, shape⟩ := split_eq_pair pieces
        have rangePlain : Unsuffixed field range := plain.part fun char member => by simp [member]
        have absentTail : listChar ∉ stepChar :: rest := by
          rcases shape with ⟨rfl, _⟩ | rfl
          · simpa using ⟨by decide, noList⟩
          · simpa using ⟨by decide, noList, by decide⟩
        obtain ⟨init, final, whole, extended⟩ := split_append_tail range
          (nonempty_of_validated rangePlain passed) (isOpen_of_validated rangePlain passed rangeNoStep)
          absentTail
        rw [splitList, extended]
        intro element member
        rcases List.mem_append.mp member with inInit | isFinal
        · have rangeNotStar : range ≠ ascii "*" := by
            rintro rfl
            have alone : init ++ [final] = [] ++ [ascii "*"] := whole.symm
            rw [(List.append_inj' alone rfl).1] at inInit
            cases inInit
          refine unstepped rangePlain passed rangeNotStar rangeNoStep element ?_
          rw [splitList, whole]
          exact List.mem_append_left _ inInit
        · rw [List.mem_singleton.mp isFinal]
          intro same
          have held : stepChar ∈ final ++ stepChar :: rest := by simp
          rw [same] at held
          exact absurd held (by decide)

/-- A day of the month that is a list holds neither letter nor question mark. -/
theorem dayOfMonth_list (validated : Validated .dayOfMonth value) (isList : listChar ∈ value) :
    76 ∉ value ∧ 63 ∉ value := by
  obtain ⟨fuel, valid⟩ := validated
  cases fuel with
  | zero => cases valid
  | succ fuel =>
      have listed : hasList value = true := mem_of_contains.mpr isList
      simp only [validateWithin, listed, Bool.true_and] at valid
      split at valid
      · rename_i special
        rcases Bool.or_eq_true_iff.mp special with same | same
        · rw [of_decide_eq_true same] at isList
          exact absurd isList (by decide)
        · rw [of_decide_eq_true same] at isList
          exact absurd isList (by decide)
      · split at valid
        · cases pure_eq_ok.mp valid
        · rename_i plain
          simp only [Bool.or_eq_true, not_or, List.contains_eq_mem, decide_eq_true_eq] at plain
          exact ⟨plain.1.2, plain.2⟩

/-! ### Listed numbers -/

/-- No element of the text matches without naming a number. -/
def NamesNumbers (field : CronFieldPos) (value : Str) : Prop :=
  ∀ element ∈ splitList value, element ≠ ascii "*" ∧
    (field = .dayOfMonth ∨ field = .dayOfWeek → element ≠ ascii "?") ∧
    (field = .dayOfMonth → element ≠ ascii "L")

theorem matchField_listed {part : List Int} (plain : Unsuffixed field element)
    (nonempty : element ≠ []) (alone : listChar ∉ element) (names : NamesNumbers field element)
    (created : createElement field element = .ok part) :
    matchField field element time = .ok (decide (Cron.number time field ∈ part)) := by
  have member : element ∈ splitList element := by
    rw [splitList, split_of_absent nonempty alone]
    exact List.mem_cons_self
  obtain ⟨notEvery, notAny, notLast⟩ := names element member
  have numbers := matchNumber_listed nonempty alone notEvery created
  cases field with
  | minute | hour | month => exact numbers _
  | dayOfMonth =>
      rw [matchField, matchDayOfMonth_number (notAny (.inl rfl)) (notLast rfl) plain.noWeekday]
      exact numbers _
  | dayOfWeek =>
      rw [matchField, matchDayOfWeek_number (notAny (.inr rfl)) plain.noSuffix.1
        (congrArg Prod.fst plain.noSuffix.2)]
      exact numbers _

theorem anyMatches_listed {values : List Str} {expand : Str → List Int}
    (each : ∀ element ∈ values,
      matchField field element time = .ok (decide (Cron.number time field ∈ expand element))) :
    CronExpression.anyMatches field time values =
      .ok (decide (Cron.number time field ∈ (values.map expand).flatten)) := by
  induction values with
  | nil => rfl
  | cons first rest ih =>
      obtain ⟨head, tail⟩ := List.forall_mem_cons.mp each
      rw [CronExpression.anyMatches, bind_of_ok head, ih tail]
      by_cases listed : Cron.number time field ∈ expand first
      · simp [listed, pure, Except.pure]
      · simp [listed]

/-- A validated field of numbers expands to a list, and matches what is on it. -/
theorem CronExpression.fieldMatches_listed {expression : CronExpression} (field : CronFieldPos)
    (plain : Unsuffixed field (expression.value field))
    (validated : Validated field (expression.value field))
    (names : NamesNumbers field (expression.value field)) :
    ∃ list, createList field (expression.value field) = .ok list ∧
      (∀ number ∈ list, number ≤ field.rangeEnd) ∧
      ∀ time, expression.fieldMatches time field = .ok (decide (Cron.number time field ∈ list)) := by
  have nonempty := nonempty_of_validated plain validated
  obtain ⟨_, reads⟩ := reads_of_validated plain validated
  choose! expand created _ bounded using fun element member => (reads element member).2
  refine ⟨((splitList (expression.value field)).map expand).flatten, ?_, ?_, fun time => ?_⟩
  · rw [createList, bind_of_ok (mapM_of_forall created)]
    rfl
  · intro number member
    obtain ⟨_, isList, inList⟩ := List.mem_flatten.mp member
    obtain ⟨element, isElement, rfl⟩ := List.mem_map.mp isList
    exact bounded element isElement number inList
  · have notEvery : expression.value field ≠ ascii "*" := by
      intro every
      rw [every] at names
      exact (names (ascii "*") List.mem_cons_self).1 rfl
    rw [fieldMatches_eq, if_neg notEvery, elements_eq nonempty]
    refine anyMatches_listed fun element member => ?_
    obtain ⟨alone, sub⟩ := of_mem_split _ element member
    have elementNames : NamesNumbers field element := by
      intro part isPart
      rw [splitList, split_of_absent (reads element member).1 alone] at isPart
      rw [List.mem_singleton.mp isPart]
      exact names element member
    exact matchField_listed (plain.part sub) (reads element member).1 alone elementNames
      (created element member)

end BabyLuigi.Cron
