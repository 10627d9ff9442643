import BabyLuigi.Cron.SearchProperties

/-! The steps of a schedule whose lists ascend pass no minute at which it is due. -/

set_option autoImplicit false

namespace BabyLuigi.Cron

open DateTime

variable {field : CronFieldPos} {value element : Str} {time due : DateTime}

/-! ### The chosen element -/

theorem scan_above {number first : Int} {rest : List Int} :
    ∀ {current : Int}, (current :: rest).Pairwise (· < ·) → number < current →
      nextElement.scan number first current rest = first := by
  induction rest with
  | nil =>
      intro current _ _
      rfl
  | cons next rest ih =>
      intro current ascending above
      obtain ⟨before, ascending⟩ := List.pairwise_cons.mp ascending
      have following := before next List.mem_cons_self
      rw [nextElement.scan, if_neg (by omega)]
      exact ih ascending (above.trans following)

theorem scan_successor {number first later : Int} {rest : List Int} :
    ∀ {current : Int}, (current :: rest).Pairwise (· < ·) → current ≤ number → later ∈ rest →
      number < later → number < nextElement.scan number first current rest ∧
        nextElement.scan number first current rest ≤ later := by
  induction rest with
  | nil =>
      intro current _ _ member
      exact absurd member List.not_mem_nil
  | cons next rest ih =>
      intro current ascending reached member above
      obtain ⟨_, ascending⟩ := List.pairwise_cons.mp ascending
      have least : next ≤ later := by
        rcases List.mem_cons.mp member with rfl | inRest
        · exact le_rfl
        · exact ((List.pairwise_cons.mp ascending).1 later inRest).le
      rw [nextElement.scan]
      split
      · rename_i straddles
        exact ⟨straddles.2, least⟩
      · have passed : next ≤ number := by omega
        have inRest : later ∈ rest := (List.mem_cons.mp member).resolve_left (by omega)
        exact ih ascending passed inRest above

/-- From an ascending list the least number above is chosen. -/
theorem nextElement_successor {number later : Int} {list : List Int}
    (ascending : list.Pairwise (· < ·)) (member : later ∈ list) (above : number < later) :
    ∃ chosen, nextElement number list = some chosen ∧ number < chosen ∧ chosen ≤ later := by
  cases list with
  | nil => exact absurd member List.not_mem_nil
  | cons first rest =>
      refine ⟨_, rfl, ?_⟩
      have least : first ≤ later := by
        rcases List.mem_cons.mp member with rfl | inRest
        · exact le_rfl
        · exact ((List.pairwise_cons.mp ascending).1 later inRest).le
      by_cases reached : first ≤ number
      · have inRest : later ∈ rest := (List.mem_cons.mp member).resolve_left (by omega)
        exact scan_successor ascending reached inRest above
      · rw [scan_above ascending (not_le.mp reached)]
        exact ⟨not_le.mp reached, least⟩

/-! ### Matched numbers -/

theorem createElement_subset {list : List Int} (created : createList field value = .ok list)
    (member : element ∈ splitList value) :
    ∃ part, createElement field element = .ok part ∧ part ⊆ list := by
  obtain ⟨parts, collected, same⟩ := bind_eq_ok.mp created
  choose! expand expanded using mapM_returns_iff.mp ⟨parts, collected⟩
  rw [mapM_of_forall expanded] at collected
  cases collected
  obtain rfl := pure_eq_ok.mp same
  refine ⟨expand element, expanded element member, fun number inPart => ?_⟩
  exact List.mem_flatten.mpr ⟨_, List.mem_map_of_mem member, inPart⟩

theorem mem_of_matchNumber {number : Int} {part : List Int} (nonempty : element ≠ [])
    (alone : listChar ∉ element) (notEvery : element ≠ ascii "*")
    (created : createElement field element = .ok part)
    (matched : matchNumber field element number = .ok true) : number ∈ part := by
  have noList : hasList element = false := by simpa [hasList] using alone
  rw [matchNumber, if_neg notEvery] at matched
  split at matched
  · rw [bind_of_ok (createList_alone nonempty alone created)] at matched
    exact List.contains_iff_mem.mp (pure_eq_ok.mp matched)
  · rename_i scalar
    simp only [noList, Bool.false_or, Bool.or_eq_true, not_or, Bool.not_eq_true] at scalar
    simp only [createElement, scalar, Bool.or_self, Bool.false_eq_true, if_false] at created
    obtain ⟨converted, isNumber, same⟩ := bind_eq_ok.mp created
    obtain rfl := pure_eq_ok.mp same
    rw [bind_of_ok isNumber] at matched
    simpa using pure_eq_ok.mp matched

theorem nextElement_of_follows {number element : Int} {list : List Int}
    (created : createList field value = .ok list) (follows : Follows field value number element) :
    nextElement number list = some element := by
  obtain ⟨other, alsoCreated, inList⟩ := follows
  cases created.symm.trans alsoCreated
  exact nextElement_eq_some.mpr inList

theorem Passes.jumps (passes : Passes field value time due) : Jumps field value := by
  cases passes with
  | skips jumps => exact jumps
  | overflows _ jumps => exact jumps

/-- The text is a day of the month left open, or it expands to ascending
numbers of the field, no day of the month beyond the 29th. -/
def Ascends (field : CronFieldPos) (value : Str) : Prop :=
  field = .dayOfMonth ∧ value = ascii "?" ∨
    ∀ list, createList field value = .ok list → list.Pairwise (· < ·) ∧
      ∀ number ∈ list, field.rangeStart ≤ number ∧ (field = .dayOfMonth → number ≤ 29)

namespace CronExpression

variable {expression : CronExpression} {text : Str}

/-- A number at which a field of ascending numbers fits is in its list. -/
theorem number_mem_of_fits {list : List Int} (validated : Validated field (expression.value field))
    (jumps : Jumps field (expression.value field))
    (created : createList field (expression.value field) = .ok list)
    (low : ∀ number ∈ list, field.rangeStart ≤ number) (fits : expression.FieldFits due field) :
    number due field ∈ list := by
  have plain := (jumps.plain validated).unsuffixed
  obtain ⟨element, member, matched⟩ := fits.resolve_left jumps.notEvery
  have alone := elements_alone member
  rw [elements_eq (nonempty_of_validated plain validated)] at member
  have nonempty := ((reads_of_validated plain validated).2 element member).1
  obtain ⟨part, expanded, subset⟩ := createElement_subset created member
  have isNumber (word : Str) (unread : createElement field word = .ok [-1]) : element ≠ word := by
    rintro rfl
    cases unread.symm.trans expanded
    have start : 0 ≤ field.rangeStart := by cases field <;> decide
    have below := low (-1) (subset List.mem_cons_self)
    omega
  have notStar : element ≠ ascii "*" := isNumber _ (by cases field <;> rfl)
  have numbers {number : Int} (matched : matchNumber field element number = .ok true) : number ∈ list :=
    subset (mem_of_matchNumber nonempty alone notStar expanded matched)
  cases field with
  | minute | hour | month => exact numbers matched
  | dayOfWeek => exact absurd jumps id
  | dayOfMonth =>
      have noWeekday := (plain.part (of_mem_split _ element member).2).noWeekday
      have notAny : element ≠ ascii "?" := isNumber _ rfl
      have notLast : element ≠ ascii "L" := isNumber _ rfl
      rw [matchField, matchDayOfMonth_number notAny notLast noWeekday] at matched
      exact numbers matched

/-- Inside its period a later due minute has the larger number. -/
theorem number_lt (nonneg : 0 ≤ time.timePoint) (dueMinute : IsMinute due)
    (ordered : time.timePoint < due.timePoint) (same : SamePeriod time due field)
    (stepped : field = .minute ∨ ¬ expression.FieldFits time field)
    (fits : expression.FieldFits due field) : number time field < number due field := by
  obtain ⟨rest, split, _, _, _, _, _, restLow, restHigh⟩ := exists_rest nonneg
  have dueSplit := dueMinute.split
  have days := days_mono nonneg ordered.le
  have unfit (isNumbers : field = .hour ∨ field = .month) :
      number time field ≠ number due field := by
    intro equal
    refine stepped.resolve_left (by rintro rfl; simp at isNumbers) ?_
    rcases isNumbers with rfl | rfl
    · simpa only [FieldFits, matchField, show time.hour = due.hour from equal] using fits
    · simpa only [FieldFits, matchField, show time.month = due.month from equal] using fits
  cases field with
  | minute =>
      simp only [SamePeriod, number, dayTicks, hourTicks, minuteTicks, secondTicks] at *
      omega
  | hour =>
      have differ : time.hour ≠ due.hour := unfit (.inl rfl)
      simp only [SamePeriod, number, dayTicks, hourTicks, minuteTicks, secondTicks] at *
      omega
  | dayOfMonth =>
      have otherDay : due.daysSinceEpoch ≠ time.daysSinceEpoch := fun sameDay =>
        stepped.resolve_left (by decide) ((fieldFits_date (.inl rfl) sameDay).mp fits)
      have date := (validDate nonneg).2.2
      have dueDate := (validDate dueMinute.nonneg).2.2
      rw [toDays_day] at date dueDate
      rw [same.1, same.2] at dueDate
      simp only [number]
      omega
  | month =>
      have differ : time.month ≠ due.month := unfit (.inr rfl)
      have months := month_mono nonneg dueMinute.nonneg days same
      simp only [number]
      omega
  | dayOfWeek => exact absurd same id

/-- A field of ascending numbers, stepped where it does not fit, passes no due minute. -/
theorem not_passes_of_ascends (validated : Validated field (expression.value field))
    (ascends : Jumps field (expression.value field) → Ascends field (expression.value field))
    (nonneg : 0 ≤ time.timePoint) (dueMinute : IsMinute due)
    (ordered : time.timePoint < due.timePoint) (stepped : field = .minute ∨ ¬ expression.FieldFits time field)
    (fits : expression.FieldFits due field) :
    ¬ Passes field (expression.value field) time due := by
  intro passes
  have jumps := passes.jumps
  obtain ⟨list, created, nonempty, _⟩ := createList_of_validated (jumps.plain validated).unsuffixed validated
  rcases ascends jumps with ⟨rfl, isOpen⟩ | ascends
  · refine stepped.resolve_left (by decide) (.inr ⟨ascii "?", ?_, rfl⟩)
    rw [isOpen]
    exact List.mem_singleton.mpr rfl
  · obtain ⟨ascending, bounds⟩ := ascends list created
    cases passes with
    | @skips element _ follows same leaves =>
        have member := number_mem_of_fits validated jumps created
          (fun number member => (bounds number member).1) fits
        obtain ⟨least, found, above, below⟩ := nextElement_successor ascending member
          (number_lt nonneg dueMinute ordered same stepped fits)
        cases found.symm.trans (nextElement_of_follows created follows)
        omega
    | @overflows element isDay _ follows _ leaves =>
        obtain ⟨day, member, found⟩ := nextElement_mem (number time field) nonempty
        cases found.symm.trans (nextElement_of_follows created follows)
        have last := (bounds _ member).2 isDay
        have length := lengthOfMonth_bounds time.year time.month
        have firstDay := (validDate dueMinute.nonneg).1.firstDay
        omega

/-- No step passes a due minute where the fields that jump have ascending numbers. -/
theorem neverPasses_of_ascends {unit : Int} {start : DateTime} (parsed : ofText text = .ok expression)
    (nonneg : 0 ≤ start.timePoint) (dueMinute : IsMinute due)
    (ascends : ∀ field, Jumps field (expression.value field) → Ascends field (expression.value field))
    (fits : ∀ field, expression.FieldFits due field) : expression.NeverPasses unit start due :=
  fun _ field onTheWay steps =>
    not_passes_of_ascends (validated_of_ofText parsed field) (ascends field)
      (nonneg.trans onTheWay.since) dueMinute onTheWay.before steps.stepped (fits field)

end CronExpression

end BabyLuigi.Cron
