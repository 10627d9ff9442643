import BabyLuigi.NextScheduledDagProperties
import BabyLuigi.ScheduleThread
import Mathlib.Data.Int.LeastGreatest

/-! Runs of the schedule loop: when an occurrence is enqueued more than once,
and when one is missed. -/

set_option autoImplicit false

namespace BabyLuigi.ScheduleThread

open ConcurrentShyguy

variable {Store : Type} {calcNext : CalcNext}

theorem occurrenceOf_instant (pass : SchedulePass Store) (occurrence : Int) :
    pass.occurrenceOf (pass.instant occurrence) = occurrence := by
  simp only [SchedulePass.occurrenceOf, SchedulePass.instant]
  omega

/-- A pass that selects nothing changes nothing; one that selects an occurrence
stores its instant, and calls `execute_at` unless that instant was stored. -/
theorem run_cases {pass : SchedulePass Store} {thread after : ScheduleThread}
    (result : pass.run calcNext thread = .ok after) :
    (nextScheduledDag calcNext pass.traversal pass.clocks pass.server = .ok none ∧
      pass.selected calcNext = none ∧ after = thread) ∨
    ∃ name occurrence, pass.selected calcNext = some (name, occurrence) ∧
      after.lastEnqueued = thread.lastEnqueued.insert name (pass.instant occurrence) ∧
      ((thread.lastEnqueued.lookup name).getD 0 ≠ pass.instant occurrence ∧
          after.executed = (name, occurrence) :: thread.executed ∨
        (thread.lastEnqueued.lookup name).getD 0 = pass.instant occurrence ∧
          after.executed = thread.executed) := by
  unfold SchedulePass.run at result
  split at result
  · cases result
  · rename_i nothing
    cases result
    exact .inl ⟨nothing, by simp only [SchedulePass.selected, nothing], rfl⟩
  · rename_i scheduled found
    obtain ⟨name, schedule, tp, rfl, _⟩ := nextScheduledDag_some found
    have time : (notificationFor pass.clocks name schedule tp).time = pass.instant tp := rfl
    refine .inr ⟨name, tp, ?_, ?_⟩
    · simp only [SchedulePass.selected, found, notificationFor, Option.some.injEq, Prod.mk.injEq,
        true_and]
      exact occurrenceOf_instant pass tp
    · rw [time] at result
      simp only [notificationFor] at result
      split at result
      · rename_i different
        cases result
        refine ⟨rfl, .inl ⟨different, ?_⟩⟩
        simp [executed, occurrenceOf_instant]
      · rename_i same
        cases result
        rw [not_not] at same
        exact ⟨by simp [same], .inr ⟨same, rfl⟩⟩

/-- The newest pass that selected the DAG, with what it selected. -/
def latestSelection (calcNext : CalcNext) (name : Str) :
    List (SchedulePass Store) → Option (SchedulePass Store × Int)
  | [] => none
  | pass :: past =>
    match pass.selected calcNext with
    | none => latestSelection calcNext name past
    | some (selectedName, occurrence) =>
      if selectedName = name then some (pass, occurrence) else latestSelection calcNext name past

/-! ### Occurrences enqueued more than once -/

/-- An occurrence that was enqueued and is selected again gets the instant
that the newest selection of its DAG got. -/
def SameInstant (calcNext : CalcNext) (past : List (SchedulePass Store)) (thread : ScheduleThread)
    (pass : SchedulePass Store) : Prop :=
  ∀ name occurrence, pass.selected calcNext = some (name, occurrence) →
    (name, occurrence) ∈ thread.executed →
    ∀ latest latestOccurrence, latestSelection calcNext name past = some (latest, latestOccurrence) →
      latest.instant latestOccurrence = pass.instant occurrence

/-- What the loop remembers of its passes. -/
structure Remembers (calcNext : CalcNext) (past : List (SchedulePass Store))
    (thread : ScheduleThread) : Prop where
  lastEnqueued : ∀ name, thread.lastEnqueued.lookup name =
    (latestSelection calcNext name past).map fun latest => latest.1.instant latest.2
  executed : ∀ name occurrence, (name, occurrence) ∈ thread.executed →
    (latestSelection calcNext name past).isSome = true

theorem Remembers.pass {past : List (SchedulePass Store)} {thread after : ScheduleThread}
    {pass : SchedulePass Store} (remembers : Remembers calcNext past thread)
    (result : pass.run calcNext thread = .ok after) :
    Remembers calcNext (pass :: past) after := by
  rcases run_cases result with ⟨_, nothing, rfl⟩ | ⟨name, occurrence, selected, stored, change⟩
  · exact ⟨by simpa [latestSelection, nothing] using remembers.lastEnqueued,
      by simpa [latestSelection, nothing] using remembers.executed⟩
  · constructor
    · intro other
      rw [stored]
      by_cases same : name = other
      · subst other
        simp [latestSelection, selected]
      · rw [AList.lookup_insert_ne (Ne.symm same)]
        simpa [latestSelection, selected, same] using remembers.lastEnqueued other
    · intro other time member
      by_cases same : name = other
      · simp [latestSelection, selected, same]
      · have kept : (other, time) ∈ thread.executed := by
          rcases change with ⟨_, extended⟩ | ⟨_, unchanged⟩
          · rw [extended] at member
            rcases List.mem_cons.mp member with equal | member
            · exact absurd (congrArg Prod.fst equal).symm same
            · exact member
          · rwa [unchanged] at member
        simpa [latestSelection, selected, same] using remembers.executed other time kept

theorem Run.remembers {admits : List (SchedulePass Store) → ScheduleThread → SchedulePass Store → Prop}
    {past : List (SchedulePass Store)} {thread : ScheduleThread}
    (run : Run calcNext admits past thread) : Remembers calcNext past thread := by
  induction run with
  | start => exact ⟨by simp [initial, latestSelection], by simp [initial, executed]⟩
  | pass _ _ result ih => exact ih.pass result

/-- Each occurrence of each DAG is passed to `execute_at` at most once in every
run whose passes give a repeated occurrence the instant it had. -/
theorem executed_at_most_once {past : List (SchedulePass Store)} {thread : ScheduleThread}
    (run : Run calcNext (SameInstant calcNext) past thread) : thread.executed.Nodup := by
  induction run with
  | start => exact .nil
  | @pass past thread after pass previous sameInstant result ih =>
      rcases run_cases result with ⟨_, _, rfl⟩ | ⟨name, occurrence, selected, _, change⟩
      · exact ih
      · rcases change with ⟨different, extended⟩ | ⟨_, unchanged⟩
        · rw [extended]
          refine ih.cons fun member => different ?_
          have remembers := previous.remembers
          obtain ⟨latest, found⟩ :=
            Option.isSome_iff_exists.mp (remembers.executed name occurrence member)
          rw [remembers.lastEnqueued name, found]
          exact sameInstant name occurrence selected member latest.1 latest.2 found
        · exact unchanged ▸ ih

/-- The condition is also needed: a pass that breaks it enqueues an occurrence again. -/
theorem sameInstant_of_nodup
    {admits : List (SchedulePass Store) → ScheduleThread → SchedulePass Store → Prop}
    {past : List (SchedulePass Store)} {thread after : ScheduleThread} {pass : SchedulePass Store}
    (run : Run calcNext admits past thread) (result : pass.run calcNext thread = .ok after)
    (once : after.executed.Nodup) : SameInstant calcNext past thread pass := by
  intro name occurrence selected member latest latestOccurrence found
  rcases run_cases result with ⟨_, nothing, _⟩ | ⟨chosen, time, chosenSelected, _, change⟩
  · cases nothing.symm.trans selected
  · cases chosenSelected.symm.trans selected
    rcases change with ⟨_, extended⟩ | ⟨same, _⟩
    · rw [extended, List.nodup_cons] at once
      exact absurd member once.1
    · rw [run.remembers.lastEnqueued name, found] at same
      exact same

def everyMinute : CalcNext := fun _ now =>
  .ok (some ((now / minuteTicks + 1) * minuteTicks))

def onWholeMinutes (_ : Str) (time : Int) : Prop := minuteTicks ∣ time

theorem exactNext_everyMinute : ExactNext onWholeMinutes everyMinute where
  returns _ _ := ⟨_, rfl⟩
  least schedule now tp := by
    have next : IsLeast {time | onWholeMinutes schedule time ∧ now < time}
        ((now / minuteTicks + 1) * minuteTicks) := by
      refine ⟨⟨⟨_, Int.mul_comm _ _⟩, ?_⟩, ?_⟩
      · simp only [minuteTicks]
        omega
      · intro time held
        obtain ⟨⟨minutes, rfl⟩, later⟩ := held
        simp only [minuteTicks] at later ⊢
        omega
    simp only [everyMinute, Except.ok.injEq, Option.some.injEq]
    exact ⟨fun same => same ▸ next, fun least => next.unique least⟩

def scheduledServer (names : List Str) : ConcurrentShyguy Unit :=
  names.foldr (fun name server =>
    { server with
      dags := server.dags.insert name (.ofName name)
      schedules := server.schedules.insert name (ascii "* * * * *") }) (ConcurrentShyguy.initial none)

def passAt (names : List Str) (nowSystem nowSteady : Int) : SchedulePass Unit where
  server := scheduledServer names
  clocks := { nowSystem := nowSystem, nowSteady := nowSteady }
  traversal := .storage _ _

/-- Two passes whose clock readings are equally far apart enqueue once. -/
theorem executed_at_most_once_etl :
    ∃ thread, Run everyMinute (SameInstant everyMinute)
        [passAt [ascii "etl"] 1000 1005, passAt [ascii "etl"] 0 5] thread ∧
      thread.executed = [(ascii "etl", minuteTicks)] ∧ thread.executed.Nodup := by
  have run : ∃ thread, Run everyMinute (SameInstant everyMinute)
      [passAt [ascii "etl"] 1000 1005, passAt [ascii "etl"] 0 5] thread ∧
      thread.executed = [(ascii "etl", minuteTicks)] := by
    refine ⟨_, .pass (.pass .start ?_ rfl) ?_ rfl, rfl⟩
    · intro _ _ _ impossible
      cases impossible
    · intro _ _ impossible _ _ _ empty
      cases impossible
      cases empty
      rfl
  obtain ⟨thread, run, executed⟩ := run
  exact ⟨thread, run, executed, executed_at_most_once run⟩

/-- A wake-up between two reads of the clocks that are not equally far apart
enqueues the same occurrence again. -/
theorem occurrence_enqueued_twice :
    ExactNext onWholeMinutes everyMinute ∧
    ∃ thread, Run everyMinute (fun past _ pass => Timed 0 past pass)
        [passAt [ascii "etl"] 1000 1007, passAt [ascii "etl"] 0 5] thread ∧
      thread.executed = [(ascii "etl", minuteTicks), (ascii "etl", minuteTicks)] ∧
      ¬ thread.executed.Nodup := by
  refine ⟨exactNext_everyMinute, _, .pass (.pass .start ⟨by decide, by decide⟩ rfl)
    ⟨by decide, by decide⟩ rfl, rfl, by decide⟩

/-! ### Occurrences missed -/

/-- The clock readings of one call are less than a minute apart, and the call
reads the system clock less than a minute after the occurrence slept for. -/
structure Punctual (calcNext : CalcNext) (offset : Int) (past : List (SchedulePass Store))
    (pass : SchedulePass Store) : Prop extends Timed offset past pass where
  sinceBoot : 0 ≤ pass.clocks.nowSteady
  readsTogether : pass.clocks.nowSteady < pass.clocks.nowSystem + offset + minuteTicks
  wakesInTime : ∀ previous ∈ past.head?, ∀ name occurrence,
    previous.selected calcNext = some (name, occurrence) →
    pass.clocks.nowSystem < occurrence + minuteTicks

/-- No DAG with the same next occurrence comes before this one in the pass. -/
def ComesFirst (calcNext : CalcNext) (pass : SchedulePass Store) (name : Str) (occurrence : Int) :
    Prop :=
  ∃ before schedule after,
    pass.traversal.entries pass.server.schedules = before ++ (name, schedule) :: after ∧
    ∀ entry ∈ before, calcNext entry.2 pass.clocks.nowSystem ≠ .ok (some occurrence)

/-- Stored instants stand for occurrences that were enqueued. -/
def StoredExecuted (offset : Int) (thread : ScheduleThread) : Prop :=
  ∀ name instant, thread.lastEnqueued.lookup name = some instant →
    ∃ occurrence gap, (name, occurrence) ∈ thread.executed ∧ minuteTicks ∣ occurrence ∧
      0 ≤ gap ∧ gap < minuteTicks ∧ instant = occurrence + offset + gap

theorem selected_spec {pass : SchedulePass Store} {name : Str} {occurrence : Int}
    (selected : pass.selected calcNext = some (name, occurrence)) :
    (∃ schedule, pass.server.schedules.lookup name = some schedule ∧
      calcNext schedule pass.clocks.nowSystem = .ok (some occurrence)) ∧
    ∀ other schedule time, pass.server.schedules.lookup other = some schedule →
      calcNext schedule pass.clocks.nowSystem = .ok (some time) → occurrence ≤ time := by
  unfold SchedulePass.selected at selected
  split at selected
  · rename_i scheduled found
    obtain ⟨foundName, schedule, tp, rfl, entry, next, least⟩ := nextScheduledDag_some found
    simp only [notificationFor, Option.some.injEq, Prod.mk.injEq] at selected
    obtain ⟨rfl, rfl⟩ := selected
    have same : pass.occurrenceOf (pass.clocks.nowSteady + (tp - pass.clocks.nowSystem)) = tp :=
      occurrenceOf_instant pass tp
    rw [same]
    refine ⟨⟨schedule, entry, next⟩, ?_⟩
    intro other otherSchedule time listed given
    obtain ⟨outcome, returned, notAfter⟩ := least other otherSchedule listed
    cases returned.symm.trans given
    exact notAfter time rfl
  · cases selected

/-- Instants less than a minute apart stand for the same whole minute. -/
theorem eq_of_minutes {first second : Int} (gap : Int) (firstWhole : minuteTicks ∣ first)
    (secondWhole : minuteTicks ∣ second) (apart : first = second + gap) (above : -minuteTicks < gap)
    (below : gap < minuteTicks) : first = second := by
  obtain ⟨firstMinutes, rfl⟩ := firstWhole
  obtain ⟨secondMinutes, rfl⟩ := secondWhole
  simp only [minuteTicks] at apart above below ⊢
  omega

section Missed

variable {occurs : Str → Int → Prop} {offset : Int} (exactNext : ExactNext occurs calcNext)
  (wholeMinutes : ∀ schedule time, occurs schedule time → minuteTicks ∣ time)

include exactNext

theorem next_of_occurs {schedule : Str} {now occurrence : Int}
    (occurring : occurs schedule occurrence) (soon : now < occurrence) :
    ∃ next, calcNext schedule now = .ok (some next) ∧ next ≤ occurrence := by
  obtain ⟨least, member, lower⟩ :=
    Int.exists_least_of_bdd (P := fun time => occurs schedule time ∧ now < time)
      ⟨now, fun time member => le_of_lt member.2⟩ ⟨occurrence, occurring, soon⟩
  exact ⟨least, (exactNext.least _ _ _).mpr ⟨member, lower⟩, lower occurrence ⟨occurring, soon⟩⟩

theorem selected_of_comesFirst {pass : SchedulePass Store} {name schedule : Str}
    {occurrence : Int} (entry : pass.server.schedules.lookup name = some schedule)
    (next : calcNext schedule pass.clocks.nowSystem = .ok (some occurrence))
    (earliest : ∀ other ∈ pass.traversal.entries pass.server.schedules, ∀ time,
      calcNext other.2 pass.clocks.nowSystem = .ok (some time) → occurrence ≤ time)
    (first : ComesFirst calcNext pass name occurrence) :
    pass.selected calcNext = some (name, occurrence) := by
  obtain ⟨before, listed, after, entries, before_later⟩ := first
  have member : ∀ other, other ∈ before ++ (name, listed) :: after →
      other ∈ pass.traversal.entries pass.server.schedules := fun other => entries ▸ id
  obtain rfl : listed = schedule := by
    have found := UnorderedMap.Traversal.mem_entries.mp (member (name, listed) (by simp))
    exact Option.some.inj (found.symm.trans entry)
  have winner := selectNext_first before after name none next (fun other _ => exactNext.returns other.2 _)
    (fun other listed time given => lt_of_le_of_ne
      (earliest other (member other (by simp [listed])) time given)
      fun same => before_later other listed (same ▸ given))
    (fun other listed time given => earliest other (member other (by simp [listed])) time given)
    (by simp)
  rw [← entries] at winner
  simp only [SchedulePass.selected, nextScheduledDag_of_selectNext entry winner, notificationFor,
    Option.some.injEq, Prod.mk.injEq, true_and]
  exact occurrenceOf_instant pass occurrence

include wholeMinutes

theorem StoredExecuted.pass {past : List (SchedulePass Store)} {thread after : ScheduleThread}
    {pass : SchedulePass Store} (stored : StoredExecuted offset thread)
    (punctual : Punctual calcNext offset past pass) (result : pass.run calcNext thread = .ok after) :
    StoredExecuted offset after ∧
      (∀ pair ∈ thread.executed, pair ∈ after.executed) ∧
      ∀ pair, pass.selected calcNext = some pair → pair ∈ after.executed := by
  rcases run_cases result with ⟨_, nothing, rfl⟩ | ⟨name, occurrence, selected, inserted, change⟩
  · exact ⟨stored, fun _ => id, fun _ selected => by cases nothing.symm.trans selected⟩
  · obtain ⟨⟨schedule, _, next⟩, _⟩ := selected_spec selected
    obtain ⟨⟨occurring, later⟩, _⟩ := (exactNext.least _ _ _).mp next
    have whole := wholeMinutes _ _ occurring
    have kept : ∀ pair ∈ thread.executed, pair ∈ after.executed := by
      rcases change with ⟨_, extended⟩ | ⟨_, unchanged⟩
      · exact fun pair member => extended ▸ .tail _ member
      · exact fun pair member => unchanged ▸ member
    have enqueued : (name, occurrence) ∈ after.executed := by
      rcases change with ⟨_, extended⟩ | ⟨same, unchanged⟩
      · exact extended ▸ .head _
      · cases known : thread.lastEnqueued.lookup name with
        | none =>
            have positive := punctual.sinceBoot
            simp only [known, Option.getD_none, SchedulePass.instant] at same
            omega
        | some instant =>
            obtain ⟨before, gap, member, beforeWhole, nonneg, short, rfl⟩ := stored name instant known
            have first := punctual.steadySecond
            have near := punctual.readsTogether
            simp only [known, Option.getD_some, SchedulePass.instant] at same
            have equal : before = occurrence :=
              eq_of_minutes (pass.clocks.nowSteady - pass.clocks.nowSystem - offset - gap)
                beforeWhole whole (by omega) (by omega) (by omega)
            exact unchanged ▸ equal ▸ member
    refine ⟨?_, kept, ?_⟩
    · intro other instant found
      rw [inserted] at found
      by_cases same : other = name
      · subst other
        rw [AList.lookup_insert, Option.some.injEq] at found
        have first := punctual.steadySecond
        have near := punctual.readsTogether
        simp only [SchedulePass.instant] at found
        exact ⟨occurrence, pass.clocks.nowSteady - pass.clocks.nowSystem - offset, enqueued, whole,
          by omega, by omega, by omega⟩
      · rw [AList.lookup_insert_ne same] at found
        obtain ⟨before, gap, member, rest⟩ := stored other instant found
        exact ⟨before, gap, kept _ member, rest⟩
    · intro pair chosen
      cases selected.symm.trans chosen
      exact enqueued

theorem Run.storedExecuted {past : List (SchedulePass Store)} {thread : ScheduleThread}
    (run : Run calcNext (fun past _ pass => Punctual calcNext offset past pass) past thread) :
    StoredExecuted offset thread := by
  induction run with
  | start => exact fun _ _ found => by simp [initial] at found
  | pass _ punctual result ih => exact (ih.pass exactNext wholeMinutes punctual result).1

/-- Every pair a pass of the run selected has been enqueued. -/
theorem Run.executed_of_selected {past : List (SchedulePass Store)} {thread : ScheduleThread}
    (run : Run calcNext (fun past _ pass => Punctual calcNext offset past pass) past thread)
    {pass : SchedulePass Store} (member : pass ∈ past) {pair : Str × Int}
    (selected : pass.selected calcNext = some pair) : pair ∈ thread.executed := by
  induction run with
  | start => cases member
  | pass previous punctual result ih =>
      obtain ⟨_, kept, enqueued⟩ :=
        (previous.storedExecuted exactNext wholeMinutes).pass exactNext wholeMinutes punctual result
      rcases List.mem_cons.mp member with rfl | member
      · exact enqueued pair selected
      · exact kept pair (ih member)

/-- A DAG that stays scheduled misses no occurrence: if it comes first, at the
last call before the occurrence, among the DAGs that have it next, then the
occurrence has been enqueued by the first call at or after it. -/
theorem no_occurrence_missed (later earlier : List (SchedulePass Store))
    {call final : SchedulePass Store} {thread : ScheduleThread}
    (run : Run calcNext (fun past _ pass => Punctual calcNext offset past pass)
      (later ++ call :: earlier) thread)
    (punctual : Punctual calcNext offset (later ++ call :: earlier) final)
    (name schedule : Str) {occurrence : Int} (occurring : occurs schedule occurrence)
    (scheduled : ∀ pass ∈ later ++ [call], pass.server.schedules.lookup name = some schedule)
    (before : ∀ pass ∈ later ++ [call], pass.clocks.nowSystem < occurrence)
    (reached : occurrence ≤ final.clocks.nowSystem)
    (comesFirst : ∀ last ∈ (later ++ [call]).head?, ComesFirst calcNext last name occurrence) :
    (name, occurrence) ∈ thread.executed := by
  obtain ⟨last, past, split⟩ : ∃ last past, later ++ [call] = last :: past := by
    cases later with
    | nil => exact ⟨call, [], rfl⟩
    | cons last rest => exact ⟨last, rest ++ [call], rfl⟩
  have shape : later ++ call :: earlier = last :: (past ++ earlier) := by
    rw [← List.singleton_append, ← List.append_assoc, split]
    rfl
  have entry := scheduled last (by simp [split])
  have soon := before last (by simp [split])
  obtain ⟨next, given, notAfter⟩ := next_of_occurs exactNext occurring soon
  -- Whatever the last pass selects is due before the final call, hence at `occurrence`.
  have choice : ∃ name, last.selected calcNext = some (name, occurrence) := by
    rw [shape] at run
    cases run with
    | pass _ _ result =>
        rcases run_cases result with ⟨nothing, _⟩ | ⟨chosen, time, selected, _⟩
        · cases (nextScheduledDag_none nothing entry).symm.trans given
        · obtain ⟨⟨_, _, due⟩, least⟩ := selected_spec selected
          obtain ⟨⟨timeOccurs, _⟩, _⟩ := (exactNext.least _ _ _).mp due
          have early := (least name schedule next entry given).trans notAfter
          have late := punctual.wakesInTime last (by simp [shape]) chosen time selected
          obtain rfl : time = occurrence :=
            eq_of_minutes (time - occurrence) (wholeMinutes _ _ timeOccurs)
              (wholeMinutes _ _ occurring) (by omega) (by omega)
              (by simp only [minuteTicks]; omega)
          exact ⟨chosen, selected⟩
  obtain ⟨chosen, selected⟩ := choice
  have least := (selected_spec selected).2
  obtain rfl : next = occurrence := le_antisymm notAfter (least name schedule next entry given)
  have wins := selected_of_comesFirst exactNext entry given
    (fun other member time => least other.1 other.2 time (UnorderedMap.Traversal.mem_entries.mp member))
    (comesFirst last (by simp [split]))
  exact run.executed_of_selected exactNext wholeMinutes (by simp [shape]) wins

end Missed

theorem punctual_at_start (names : List Str) :
    Punctual everyMinute 0 [] (passAt names 0 0) where
  steadySecond := le_rfl
  follows := by simp
  sinceBoot := le_rfl
  readsTogether := show (0 : Int) < 0 + 0 + minuteTicks by decide
  wakesInTime := by simp

theorem punctual_a_minute_later (names : List Str) :
    Punctual everyMinute 0 [passAt names 0 0] (passAt names minuteTicks minuteTicks) where
  steadySecond := by simp [passAt]
  follows := by
    intro _ impossible
    cases impossible
    show (0 : Int) ≤ minuteTicks + 0
    decide
  sinceBoot := show (0 : Int) ≤ minuteTicks by decide
  readsTogether := show minuteTicks < minuteTicks + 0 + minuteTicks by decide
  wakesInTime := by
    intro _ impossible name occurrence selected
    cases impossible
    obtain ⟨⟨schedule, _, next⟩, _⟩ := selected_spec selected
    have later := ((exactNext_everyMinute.least _ _ _).mp next).1.2
    simp only [passAt] at later ⊢
    omega

/-- A DAG alone in the schedules is enqueued for the next minute. -/
theorem no_occurrence_missed_etl :
    ∃ thread, Run everyMinute (fun past _ pass => Punctual everyMinute 0 past pass)
        [passAt [ascii "etl"] 0 0] thread ∧
      (ascii "etl", minuteTicks) ∈ thread.executed := by
  have run : ∃ thread, Run everyMinute (fun past _ pass => Punctual everyMinute 0 past pass)
      [passAt [ascii "etl"] 0 0] thread := ⟨_, .pass .start (punctual_at_start _) rfl⟩
  obtain ⟨thread, run⟩ := run
  refine ⟨thread, run, no_occurrence_missed exactNext_everyMinute (fun _ _ => id)
    [] [] run (punctual_a_minute_later _) (ascii "etl") (ascii "* * * * *") ⟨1, rfl⟩ ?_ ?_ le_rfl ?_⟩
  · intro _ either
    rcases either with _ | ⟨_, ⟨⟩⟩
    rfl
  · intro _ either
    rcases either with _ | ⟨_, ⟨⟩⟩
    show (0 : Int) < minuteTicks
    decide
  · intro _ impossible
    cases impossible
    exact ⟨[], ascii "* * * * *", [], rfl, by simp⟩

/-- Of two DAGs that are due together only the first is enqueued: the loop
sleeps until that minute and the next call looks beyond it. -/
theorem coinciding_occurrence_missed :
    ExactNext onWholeMinutes everyMinute ∧
    ∃ thread, Run everyMinute (fun past _ pass => Punctual everyMinute 0 past pass)
        [passAt [ascii "etl", ascii "report"] 0 0] thread ∧
      Punctual everyMinute 0 [passAt [ascii "etl", ascii "report"] 0 0]
        (passAt [ascii "etl", ascii "report"] minuteTicks minuteTicks) ∧
      (scheduledServer [ascii "etl", ascii "report"]).schedules.lookup (ascii "report") =
        some (ascii "* * * * *") ∧
      onWholeMinutes (ascii "* * * * *") minuteTicks ∧
      thread.executed = [(ascii "etl", minuteTicks)] ∧
      (ascii "report", minuteTicks) ∉ thread.executed := by
  have run : ∃ thread, Run everyMinute (fun past _ pass => Punctual everyMinute 0 past pass)
      [passAt [ascii "etl", ascii "report"] 0 0] thread ∧
      thread.executed = [(ascii "etl", minuteTicks)] :=
    ⟨_, .pass .start (punctual_at_start _) rfl, rfl⟩
  obtain ⟨thread, run, executed⟩ := run
  refine ⟨exactNext_everyMinute, thread, run, punctual_a_minute_later _, rfl, ⟨1, rfl⟩, executed, ?_⟩
  rw [executed]
  decide

end BabyLuigi.ScheduleThread
