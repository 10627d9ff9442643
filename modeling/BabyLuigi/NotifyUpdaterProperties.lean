import BabyLuigi.NotifyUpdater
import BabyLuigi.Support.Transition

/-! Which notifications reach the sleeping thread, and when. -/

set_option autoImplicit false

namespace BabyLuigi.WakeupWorld

/-- The latest notification posted since the last return. -/
def undelivered : List WakeupEvent → Option NotificationType
  | [] => none
  | .posted notification :: _ => some notification
  | .slept _ :: rest => undelivered rest
  | .returned _ :: _ => none

/-- What one action can do. -/
theorem act_cases {world after : WakeupWorld} {action : WakeupAction}
    (result : world.act action = some after) :
    (∃ notification, action = .notifyWakeup notification ∧
      after = { world with
        updater := world.updater.notifyWakeup notification
        events := .posted notification :: world.events }) ∨
    (∃ nextTime, action = .beginSleep nextTime ∧ world.updater.sleeper = .running ∧
      after = { world with
        updater := world.updater.beginSleep nextTime
        events := .slept nextTime :: world.events }) ∨
    (∃ deadline, world.updater.sleeper = .waiting deadline ∧
      (action = .wakeSpuriously ∨ action = .timeOut ∧ deadline ≤ world.now) ∧
      after = { world with updater := { world.updater with sleeper := .woken } }) ∨
    (action = .endSleep ∧ world.updater.sleeper = .woken ∧
      after = { world with
        updater := world.updater.endSleep
        events := .returned world.updater.cachedTime :: world.events }) ∨
    ∃ later, action = .tick later ∧ after = { world with now := later } := by
  cases action with
  | notifyWakeup notification =>
      cases result
      exact .inl ⟨notification, rfl, rfl⟩
  | beginSleep nextTime =>
      simp only [act] at result
      split at result
      · cases result
        exact .inr (.inl ⟨nextTime, rfl, ‹_›, rfl⟩)
      all_goals cases result
  | wakeSpuriously =>
      simp only [act] at result
      split at result
      · cases result
        exact .inr (.inr (.inl ⟨_, ‹_›, .inl rfl, rfl⟩))
      all_goals cases result
  | timeOut =>
      simp only [act] at result
      split at result
      · split at result
        · cases result
          exact .inr (.inr (.inl ⟨_, ‹_›, .inr ⟨rfl, ‹_›⟩, rfl⟩))
        · cases result
      all_goals cases result
  | endSleep =>
      simp only [act] at result
      split at result
      · cases result
        exact .inr (.inr (.inr (.inl ⟨rfl, ‹_›, rfl⟩)))
      all_goals cases result
  | tick later =>
      simp only [act] at result
      split at result
      · cases result
        exact .inr (.inr (.inr (.inr ⟨later, rfl, rfl⟩)))
      · cases result

/-- Each call returned the latest notification posted since the return before it. -/
def ReturnsLatest (events : List WakeupEvent) : Prop :=
  Transition.EachEvent
    (fun event earlier => ∀ result, event = .returned result → result = undelivered earlier) events

/-- What the stored notification says about the events, in every interleaving. -/
structure Stored (world : WakeupWorld) : Prop where
  cached : world.updater.cachedTime = undelivered world.events
  latest : ReturnsLatest world.events

theorem Stored.act {world after : WakeupWorld} {action : WakeupAction} (stored : Stored world)
    (result : world.act action = some after) : Stored after := by
  rcases act_cases result with
      ⟨notification, _, rfl⟩ | ⟨nextTime, _, _, rfl⟩ | ⟨_, _, _, rfl⟩ | ⟨_, _, rfl⟩ | ⟨_, _, rfl⟩
  · exact ⟨rfl, stored.latest.cons fun _ impossible => by cases impossible⟩
  · exact ⟨stored.cached, stored.latest.cons fun _ impossible => by cases impossible⟩
  · exact ⟨stored.cached, stored.latest⟩
  · refine ⟨rfl, stored.latest.cons ?_⟩
    intro result same
    cases same
    exact stored.cached
  · exact ⟨stored.cached, stored.latest⟩

theorem Run.stored {admits : WakeupWorld → WakeupAction → Prop} {start : Int}
    {world : WakeupWorld} (run : Run admits start world) : Stored world := by
  induction run with
  | start => exact ⟨rfl, Transition.eachEvent_nil⟩
  | act _ _ _ result ih => exact ih.act result

/-- No wake-up is lost: a thread that waits has nothing to receive, and one
that has something to receive and is inside a call can return it at once. -/
structure Delivers (world : WakeupWorld) : Prop where
  notStranded : ∀ deadline, world.updater.sleeper = .waiting deadline →
    undelivered world.events = none
  prompt : ∀ notification, undelivered world.events = some notification →
    world.updater.sleeper ≠ .running →
    ∃ after, world.act .endSleep = some after ∧ after.now = world.now ∧
      after.events = .returned (some notification) :: world.events
  latest : ReturnsLatest world.events

theorem Stored.delivers {world : WakeupWorld} (stored : Stored world)
    (notStranded : ∀ deadline, world.updater.sleeper = .waiting deadline →
      undelivered world.events = none) : Delivers world where
  notStranded := notStranded
  prompt notification waits inside := by
    cases phase : world.updater.sleeper with
    | running => exact absurd phase inside
    | waiting deadline =>
        rw [notStranded deadline phase] at waits
        cases waits
    | woken =>
        have cached := stored.cached.trans waits
        refine ⟨{ world with
          updater := world.updater.endSleep
          events := .returned world.updater.cachedTime :: world.events }, ?_, rfl, ?_⟩
        · simp only [WakeupWorld.act, phase]
        · simp only [cached]
  latest := stored.latest

/-- A call starts only while no notification is stored. -/
def StartsWithNothingStored (world : WakeupWorld) (action : WakeupAction) : Prop :=
  ∀ nextTime, action = .beginSleep nextTime → world.updater.cachedTime = none

theorem notStranded_act {world after : WakeupWorld} {action : WakeupAction}
    (notStranded : ∀ deadline, world.updater.sleeper = .waiting deadline →
      undelivered world.events = none)
    (stored : Stored world) (nothing : StartsWithNothingStored world action)
    (result : world.act action = some after) :
    ∀ deadline, after.updater.sleeper = .waiting deadline → undelivered after.events = none := by
  rcases act_cases result with
      ⟨notification, _, rfl⟩ | ⟨nextTime, isBegin, _, rfl⟩ | ⟨_, _, _, rfl⟩ | ⟨_, _, rfl⟩ |
      ⟨_, _, rfl⟩
  · intro deadline waits
    simp only [NotifyUpdater.notifyWakeup] at waits
    split at waits <;> cases waits
  · intro _ _
    exact stored.cached.symm.trans (nothing nextTime isBegin)
  · intro _ waits
    cases waits
  · intro _ waits
    cases waits
  · exact notStranded

/-- In every interleaving in which each call starts with nothing stored, no
wake-up is lost. -/
theorem run_delivers {start : Int} {world : WakeupWorld}
    (run : Run StartsWithNothingStored start world) : Delivers world := by
  apply run.stored.delivers
  induction run with
  | start =>
      intro _ waits
      cases waits
  | act _ earlier nothing result ih => exact notStranded_act ih earlier.stored nothing result

/-- A call that starts with something stored waits for its deadline with it. -/
theorem beginSleep_delivers_iff {admits : WakeupWorld → WakeupAction → Prop} {start : Int}
    {world after : WakeupWorld} {nextTime : Int} (run : Run admits start world)
    (result : world.act (.beginSleep nextTime) = some after) :
    Delivers after ↔ world.updater.cachedTime = none := by
  rcases act_cases result with
      ⟨_, ⟨⟩, _⟩ | ⟨_, ⟨⟩, _, rfl⟩ | ⟨_, _, ⟨⟨⟩⟩ | ⟨⟨⟩, _⟩, _⟩ | ⟨⟨⟩, _⟩ | ⟨_, ⟨⟩, _⟩
  constructor
  · intro delivers
    exact run.stored.cached.trans (delivers.notStranded nextTime rfl)
  · intro nothing
    apply (run.stored.act result).delivers
    intro _ _
    exact run.stored.cached.symm.trans nothing

def notification (time : Int) : NotificationType where
  time := time
  associatedRequest := { data := .monostate, command := .notSet }
  commandType := .error

/-- A notification that arrives while the thread waits. -/
theorem run_delivers_woken :
    ∃ world, Run StartsWithNothingStored 0 world ∧ world.updater.sleeper = .woken ∧
      undelivered world.events = some (notification 5) ∧ Delivers world := by
  have run : ∃ world, Run StartsWithNothingStored 0 world ∧ world.updater.sleeper = .woken ∧
      undelivered world.events = some (notification 5) := by
    refine ⟨_, .act (.notifyWakeup (notification 5))
      (.act (.beginSleep 100) .start ?_ rfl) ?_ rfl, rfl, rfl⟩
    · intro _ _
      rfl
    · intro _ impossible
      cases impossible
  obtain ⟨world, run, woken, posted⟩ := run
  exact ⟨world, run, woken, posted, run_delivers run⟩

/-- A notification that arrives between two calls: the next call waits with it
stored, and nothing but the deadline or chance ends the wait. -/
theorem early_notification_strands :
    ∃ world, Run (fun _ _ => True) 0 world ∧ world.updater.sleeper = .waiting 100 ∧
      world.updater.cachedTime = some (notification 5) ∧ ¬ Delivers world ∧
      world.act .endSleep = none ∧ world.act .timeOut = none := by
  refine ⟨_, .act (.beginSleep 100)
    (.act (.notifyWakeup (notification 5)) .start trivial rfl) trivial rfl, rfl, rfl, ?_, rfl, rfl⟩
  intro delivers
  cases delivers.notStranded 100 rfl

end BabyLuigi.WakeupWorld
