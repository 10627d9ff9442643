import BabyLuigi.Cron.CronField
import BabyLuigi.Cron.TextProperties

/-! The texts that validation lets through, and what the conversions behind the
matchers and the steps make of them. -/

set_option autoImplicit false

namespace BabyLuigi.Cron

/-- The bounds of the part of a text before the step. -/
def boundsOf (field : CronFieldPos) (range : Str) : Except Fault (Int × Int) :=
  if range = ascii "*" then .ok (field.rangeStart, field.rangeEnd)
  else
    match splitRange range with
    | [] => .error .undefinedBehavior
    | [first] => do return (← fromLiteral field first, field.rangeEnd)
    | first :: second :: _ => do return (← fromLiteral field first, ← fromLiteral field second)

/-- The length of a range, which a step must not exceed. -/
def rangeLength (field : CronFieldPos) (first last : Int) : Int :=
  if last < first then
    (field.rangeEnd - first) + last + (if field.rangeStart < 1 then 1 else 0)
  else last - first

/-- The shapes of the texts that the shared part of validation accepts, given
the check of their parts. -/
inductive Accepted (field : CronFieldPos) (passes : Str → Prop) : Str → Prop where
  | every : Accepted field passes (ascii "*")
  | step {value range stepText : Str} {step first last : Int} :
      splitStep value = [range, stepText] → passes range → listChar ∉ stepText →
      stoi stepText = .ok step → 1 ≤ step → boundsOf field range = .ok (first, last) →
      step ≤ rangeLength field first last → Accepted field passes value
  | list {value : Str} :
      stepChar ∉ value → listChar ∈ value → value.getLast? ≠ some listChar →
      (∀ element ∈ splitList value, element ≠ ascii "*" ∧ passes element) →
      Accepted field passes value
  | range {value first second : Str} {start last : Int} :
      stepChar ∉ value → listChar ∉ value → splitRange value = [first, second] →
      passes first → passes second → first ≠ ascii "*" → second ≠ ascii "*" →
      fromLiteral field first = .ok start → fromLiteral field second = .ok last →
      (field.allowBackwardRange = false → start < last) → Accepted field passes value
  | single {value : Str} {number : Int} :
      value ≠ [] → stepChar ∉ value → listChar ∉ value → rangeChar ∉ value →
      fromLiteral field value = .ok number → 0 ≤ number → field.rangeStart ≤ number →
      number ≤ field.rangeEnd → Accepted field passes value

theorem allPass_eq_true {check : Str → Except Fault Bool} {values : List Str}
    (all : allPass check values = .ok true) : ∀ value ∈ values, check value = .ok true := by
  induction values with
  | nil => simp
  | cons value rest ih =>
      obtain ⟨passed, checked, more⟩ := bind_eq_ok.mp all
      cases passed with
      | false => cases pure_eq_ok.mp more
      | true => exact List.forall_mem_cons.mpr ⟨checked, ih more⟩

theorem mem_of_contains {value : Str} {char : UInt8} : value.contains char = true ↔ char ∈ value := by
  simp

section Shapes

variable {field : CronFieldPos} {check : Str → Except Fault Bool} {value : Str}
  (nonempty : ¬ value.isEmpty = true) (notEvery : value ≠ ascii "*")
  (valid : validateBase field check value = .ok true)

theorem boundsOf_bind (field : CronFieldPos) (range : Str) (rest : Int × Int → Except Fault Bool) :
    boundsOf field range >>= rest =
      if range = ascii "*" then rest (field.rangeStart, field.rangeEnd)
      else
        match splitRange range with
        | [] => .error .undefinedBehavior
        | [first] => fromLiteral field first >>= fun start => rest (start, field.rangeEnd)
        | first :: second :: _ =>
          fromLiteral field first >>= fun start => fromLiteral field second >>= fun last =>
            rest (start, last) := by
  unfold boundsOf
  split
  · rfl
  · split
    · rfl
    · rw [bind_assoc]
      rfl
    · simp only [bind_assoc]
      rfl

include nonempty notEvery valid

theorem accepted_step (isStep : hasStep value = true) :
    Accepted field (fun part => check part = .ok true) value := by
  rw [validateBase, if_neg nonempty, if_neg notEvery, if_pos isStep] at valid
  split at valid
  · rename_i range stepText pieces
    obtain ⟨passed, checked, valid⟩ := bind_eq_ok.mp valid
    cases passed with
    | false => cases pure_eq_ok.mp valid
    | true =>
        simp only [Bool.not_true, Bool.false_eq_true, if_false] at valid
        split at valid
        · cases pure_eq_ok.mp valid
        · rename_i plain
          simp only [Bool.or_eq_true, not_or, hasList, mem_of_contains] at plain
          obtain ⟨step, converted, valid⟩ := bind_eq_ok.mp valid
          split at valid
          · cases pure_eq_ok.mp valid
          · rename_i positive
            obtain ⟨⟨first, last⟩, isBounds, valid⟩ := bind_eq_ok.mp
              ((boundsOf_bind field range fun bounds =>
                pure (decide (step ≤ rangeLength field bounds.1 bounds.2))).trans valid)
            exact .step pieces checked plain.1.2 converted (by omega) isBounds
              (of_decide_eq_true (pure_eq_ok.mp valid))
  · cases pure_eq_ok.mp valid

theorem accepted_list (noStep : ¬ hasStep value = true) (isList : hasList value = true) :
    Accepted field (fun part => check part = .ok true) value := by
  rw [validateBase, if_neg nonempty, if_neg notEvery, if_neg noStep, if_pos isList] at valid
  rw [hasStep, mem_of_contains] at noStep
  rw [hasList, mem_of_contains] at isList
  split at valid
  · cases pure_eq_ok.mp valid
  · rename_i isOpen
    simp only [Bool.or_eq_true, decide_eq_true_eq, not_or] at isOpen
    obtain ⟨passed, checked, valid⟩ := bind_eq_ok.mp valid
    cases passed with
    | false => cases pure_eq_ok.mp valid
    | true =>
        refine .list noStep isList isOpen.2 ?_
        intro element member
        have passes := allPass_eq_true checked element member
        split at passes
        · cases pure_eq_ok.mp passes
        · exact ⟨‹_›, passes⟩

theorem accepted_range (noStep : ¬ hasStep value = true) (noList : ¬ hasList value = true)
    (isRange : hasRange value = true) :
    Accepted field (fun part => check part = .ok true) value := by
  rw [validateBase, if_neg nonempty, if_neg notEvery, if_neg noStep, if_neg noList, if_pos isRange]
    at valid
  rw [hasStep, mem_of_contains] at noStep
  rw [hasList, mem_of_contains] at noList
  split at valid
  · rename_i first second pieces
    split at valid
    · cases pure_eq_ok.mp valid
    · rename_i plain
      simp only [Bool.or_eq_true, decide_eq_true_eq, not_or] at plain
      obtain ⟨firstPassed, firstChecked, valid⟩ := bind_eq_ok.mp valid
      cases firstPassed with
      | false => cases pure_eq_ok.mp valid
      | true =>
          obtain ⟨secondPassed, secondChecked, valid⟩ := bind_eq_ok.mp valid
          cases secondPassed with
          | false => cases pure_eq_ok.mp valid
          | true =>
              obtain ⟨start, isStart, valid⟩ := bind_eq_ok.mp valid
              obtain ⟨last, isLast, valid⟩ := bind_eq_ok.mp valid
              refine .range noStep noList pieces firstChecked secondChecked plain.1.1.1
                plain.1.2 isStart isLast ?_
              intro forward
              rw [forward] at valid
              exact of_decide_eq_true (pure_eq_ok.mp valid)
  · cases pure_eq_ok.mp valid

theorem accepted_single (noStep : ¬ hasStep value = true) (noList : ¬ hasList value = true)
    (noRange : ¬ hasRange value = true) :
    Accepted field (fun part => check part = .ok true) value := by
  rw [validateBase, if_neg nonempty, if_neg notEvery, if_neg noStep, if_neg noList, if_neg noRange]
    at valid
  rw [hasStep, mem_of_contains] at noStep
  rw [hasList, mem_of_contains] at noList
  rw [hasRange, mem_of_contains] at noRange
  obtain ⟨number, converted, valid⟩ := bind_eq_ok.mp valid
  obtain ⟨nonneg, low, high⟩ := of_decide_eq_true (pure_eq_ok.mp valid)
  refine .single ?_ noStep noList noRange converted nonneg low high
  rintro rfl
  exact nonempty rfl

end Shapes

theorem accepted_of_validateBase {field : CronFieldPos} {check : Str → Except Fault Bool}
    {value : Str} (valid : validateBase field check value = .ok true) :
    Accepted field (fun part => check part = .ok true) value := by
  by_cases nonempty : value.isEmpty = true
  · rw [validateBase, if_pos nonempty] at valid
    cases pure_eq_ok.mp valid
  · by_cases every : value = ascii "*"
    · exact every ▸ .every
    · by_cases step : hasStep value = true
      · exact accepted_step nonempty every valid step
      · by_cases list : hasList value = true
        · exact accepted_list nonempty every valid step list
        · by_cases range : hasRange value = true
          · exact accepted_range nonempty every valid step list range
          · exact accepted_single nonempty every valid step list range

end BabyLuigi.Cron
