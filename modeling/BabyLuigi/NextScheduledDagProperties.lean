import BabyLuigi.ConcurrentShyguy

/-! What the selection over the schedules returns: the earliest time any of
them gives, and the first DAG that gives it. -/

set_option autoImplicit false

namespace BabyLuigi.ConcurrentShyguy

variable {Store : Type} {calcNext : CalcNext} {nowSystem : Int}

/-- What a scan that returns has selected, given what it had before. -/
structure Selected (calcNext : CalcNext) (nowSystem : Int) (entries : List (Str × Str))
    (next result : Option (Str × Int)) : Prop where
  returns : ∀ entry ∈ entries, ∃ found, calcNext entry.2 nowSystem = .ok found
  exhausted : result = none → next = none ∧
    ∀ entry ∈ entries, calcNext entry.2 nowSystem = .ok none
  origin : ∀ name tp, result = some (name, tp) → next = some (name, tp) ∨
    ∃ schedule, (name, schedule) ∈ entries ∧ calcNext schedule nowSystem = .ok (some tp)
  notAfter : ∀ name tp, result = some (name, tp) → (∀ other ∈ next, tp ≤ other.2) ∧
    ∀ entry ∈ entries, ∀ other, calcNext entry.2 nowSystem = .ok (some other) → tp ≤ other

theorem Selected.cons_thrown {entry : Str × Str} {rest : List (Str × Str)}
    {next result : Option (Str × Int)} (thrown : calcNext entry.2 nowSystem = .ok none)
    (selected : Selected calcNext nowSystem rest next result) :
    Selected calcNext nowSystem (entry :: rest) next result where
  returns := by
    simpa [thrown] using selected.returns
  exhausted empty := by
    simpa [thrown] using selected.exhausted empty
  origin name tp chosen := by
    refine (selected.origin name tp chosen).imp_right ?_
    intro held
    obtain ⟨schedule, member, found⟩ := held
    exact ⟨schedule, .tail _ member, found⟩
  notAfter name tp chosen := by
    simpa [thrown] using selected.notAfter name tp chosen

theorem Selected.cons_found {entry : Str × Str} {rest : List (Str × Str)} {tp : Int}
    {next result : Option (Str × Int)} (found : calcNext entry.2 nowSystem = .ok (some tp))
    {updated : Str × Int}
    (choice : (updated = (entry.1, tp) ∧ ∀ other ∈ next, tp ≤ other.2) ∨
      (next = some updated ∧ updated.2 ≤ tp))
    (selected : Selected calcNext nowSystem rest (some updated) result) :
    Selected calcNext nowSystem (entry :: rest) next result where
  returns := by
    simpa [found] using selected.returns
  exhausted empty := by
    cases (selected.exhausted empty).1
  origin name chosenTp chosen := by
    rcases selected.origin name chosenTp chosen with kept | ⟨schedule, member, origin⟩
    · rcases choice with ⟨rfl, _⟩ | ⟨known, _⟩
      · cases kept
        exact .inr ⟨entry.2, .head _, found⟩
      · exact .inl (known.trans kept)
    · exact .inr ⟨schedule, .tail _ member, origin⟩
  notAfter name chosenTp chosen := by
    obtain ⟨least, later⟩ := selected.notAfter name chosenTp chosen
    have below : chosenTp ≤ updated.2 := least updated rfl
    rcases choice with ⟨rfl, earlier⟩ | ⟨rfl, earlier⟩
    · refine ⟨fun other known => below.trans (earlier other known), ?_⟩
      intro other member time given
      rcases List.mem_cons.mp member with rfl | member
      · cases found.symm.trans given
        exact below
      · exact later other member time given
    · refine ⟨fun other known => by cases known; exact below, ?_⟩
      intro other member time given
      rcases List.mem_cons.mp member with rfl | member
      · cases found.symm.trans given
        exact below.trans earlier
      · exact later other member time given

theorem selectNext_spec {entries : List (Str × Str)} {next result : Option (Str × Int)}
    (selected : selectNext calcNext nowSystem entries next = .ok result) :
    Selected calcNext nowSystem entries next result := by
  induction entries generalizing next with
  | nil =>
      cases selected
      exact ⟨by simp, fun empty => ⟨empty, by simp⟩, fun _ _ chosen => .inl chosen,
        fun _ _ chosen => ⟨by simp [chosen], by simp⟩⟩
  | cons entry rest ih =>
      obtain ⟨dagName, cronExpr⟩ := entry
      rw [selectNext] at selected
      split at selected
      · cases selected
      · exact (ih selected).cons_thrown ‹_›
      · rename_i tp found
        split at selected
        · exact (ih selected).cons_found found (.inl ⟨rfl, by simp⟩)
        · rename_i name best
          split at selected
          · refine (ih selected).cons_found found (.inl ⟨rfl, ?_⟩)
            intro _ impossible
            cases impossible
            exact le_of_lt ‹_›
          · exact (ih selected).cons_found found (.inr ⟨rfl, by simpa using ‹¬ tp < best›⟩)

theorem selectNext_keeps {entries : List (Str × Str)} (name : Str) {best : Int}
    (returns : ∀ entry ∈ entries, ∃ found, calcNext entry.2 nowSystem = .ok found)
    (later : ∀ entry ∈ entries, ∀ tp, calcNext entry.2 nowSystem = .ok (some tp) → best ≤ tp) :
    selectNext calcNext nowSystem entries (some (name, best)) = .ok (some (name, best)) := by
  induction entries with
  | nil => rfl
  | cons entry rest ih =>
      obtain ⟨found, given⟩ := returns entry (.head _)
      have kept := ih (fun other member => returns other (.tail _ member))
        (fun other member => later other (.tail _ member))
      rw [selectNext, given]
      cases found with
      | none => exact kept
      | some tp =>
          have notEarlier : ¬ tp < best := not_lt.mpr (later entry (.head _) tp given)
          simpa [notEarlier] using kept

/-- The entry that gives the least time first in the order wins. -/
theorem selectNext_first (before after : List (Str × Str)) (name : Str) {schedule : Str} {tp : Int}
    (next : Option (Str × Int)) (found : calcNext schedule nowSystem = .ok (some tp))
    (returns : ∀ entry ∈ before ++ after, ∃ result, calcNext entry.2 nowSystem = .ok result)
    (earlier : ∀ entry ∈ before, ∀ other, calcNext entry.2 nowSystem = .ok (some other) → tp < other)
    (later : ∀ entry ∈ after, ∀ other, calcNext entry.2 nowSystem = .ok (some other) → tp ≤ other)
    (unset : ∀ other ∈ next, tp < other.2) :
    selectNext calcNext nowSystem (before ++ (name, schedule) :: after) next =
      .ok (some (name, tp)) := by
  induction before generalizing next with
  | nil =>
      have kept := selectNext_keeps name
        (fun entry member => returns entry (by simpa using member)) later
      rw [List.nil_append, selectNext, found]
      cases next with
      | none => exact kept
      | some other =>
          have sooner : tp < other.2 := unset other rfl
          simpa [sooner] using kept
  | cons entry rest ih =>
      obtain ⟨result, given⟩ := returns entry (by simp)
      have rest := fun next => ih next
        (fun other member => returns other (by simp_all))
        (fun other member => earlier other (.tail _ member))
      rw [List.cons_append, selectNext, given]
      cases result with
      | none => exact rest next unset
      | some other =>
          have sooner : tp < other := earlier entry (.head _) other given
          cases next with
          | none => exact rest _ (by simpa using sooner)
          | some best =>
              dsimp only
              split
              · exact rest _ (by simpa using sooner)
              · exact rest _ unset

def notificationFor (clocks : ClockReadings) (name schedule : Str) (tp : Int) :
    NotificationType where
  time := clocks.nowSteady + (tp - clocks.nowSystem)
  associatedRequest := {
    data := .dag { name := name, schedule := some schedule }
    command := .execute }
  commandType := .execute

theorem nextScheduledDag_of_selectNext {traversal : UnorderedMap.Traversal Str Str}
    {clocks : ClockReadings} {state : ConcurrentShyguy Store} {name schedule : Str} {tp : Int}
    (entry : state.schedules.lookup name = some schedule)
    (selected : selectNext calcNext clocks.nowSystem (traversal.entries state.schedules) none =
      .ok (some (name, tp))) :
    nextScheduledDag calcNext traversal clocks state =
      .ok (some (notificationFor clocks name schedule tp)) := by
  have nonempty : state.schedules.keys ≠ [] :=
    List.ne_nil_of_mem (UnorderedMap.mem_keys_of_lookup entry)
  simp [nextScheduledDag, nonempty, selected, entry, notificationFor]

/-- A notification names a scheduled DAG with its schedule, for the earliest
time that any schedule gives. -/
theorem nextScheduledDag_some {traversal : UnorderedMap.Traversal Str Str}
    {clocks : ClockReadings} {state : ConcurrentShyguy Store} {notification : NotificationType}
    (result : nextScheduledDag calcNext traversal clocks state = .ok (some notification)) :
    ∃ name schedule tp, notification = notificationFor clocks name schedule tp ∧
      state.schedules.lookup name = some schedule ∧
      calcNext schedule clocks.nowSystem = .ok (some tp) ∧
      (∀ other otherSchedule, state.schedules.lookup other = some otherSchedule →
        ∃ found, calcNext otherSchedule clocks.nowSystem = .ok found ∧ ∀ time ∈ found, tp ≤ time) := by
  unfold nextScheduledDag at result
  split at result
  · cases result
  · split at result
    · cases result
    · cases result
    · rename_i name tp selected
      have spec := selectNext_spec selected
      rcases spec.origin name tp rfl with impossible | ⟨schedule, member, found⟩
      · cases impossible
      · have entry := UnorderedMap.Traversal.mem_entries.mp member
        rw [entry] at result
        cases result
        refine ⟨name, schedule, tp, rfl, entry, found, ?_⟩
        intro other otherSchedule listed
        have listedEntry : (other, otherSchedule) ∈ traversal.entries state.schedules :=
          UnorderedMap.Traversal.mem_entries.mpr listed
        obtain ⟨outcome, given⟩ := spec.returns _ listedEntry
        refine ⟨outcome, given, ?_⟩
        intro time chosen
        cases chosen
        exact (spec.notAfter name tp rfl).2 _ listedEntry time given

theorem nextScheduledDag_none {traversal : UnorderedMap.Traversal Str Str}
    {clocks : ClockReadings} {state : ConcurrentShyguy Store}
    (result : nextScheduledDag calcNext traversal clocks state = .ok none)
    {name schedule : Str} (entry : state.schedules.lookup name = some schedule) :
    calcNext schedule clocks.nowSystem = .ok none := by
  have member := UnorderedMap.mem_keys_of_lookup entry
  unfold nextScheduledDag at result
  split at result
  · rename_i empty
    rw [List.isEmpty_iff.mp empty] at member
    cases member
  · split at result
    · cases result
    · rename_i selected
      exact ((selectNext_spec selected).exhausted rfl).2 (name, schedule)
        (UnorderedMap.Traversal.mem_entries.mpr entry)
    · split at result <;> cases result

end BabyLuigi.ConcurrentShyguy
