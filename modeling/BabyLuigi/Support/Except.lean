/-!
# Calls that may fail

Taking a chain of calls apart at its first call.
-/

set_option autoImplicit false

namespace BabyLuigi

variable {Error Value Result : Type}

theorem bind_eq_ok {source : Except Error Value} {continuation : Value → Except Error Result}
    {result : Result} : (source >>= continuation) = .ok result ↔
      ∃ value, source = .ok value ∧ continuation value = .ok result := by
  cases source with
  | error error => simp [bind, Except.bind]
  | ok value => simp [bind, Except.bind]

theorem bind_of_ok {source : Except Error Value} {value : Value}
    (first : source = .ok value) (continuation : Value → Except Error Result) :
    (source >>= continuation) = continuation value := by
  rw [first]
  rfl

theorem bind_of_error {source : Except Error Value} {error : Error}
    (first : source = .error error) (continuation : Value → Except Error Result) :
    (source >>= continuation) = .error error := by
  rw [first]
  rfl

theorem map_eq_ok {source : Except Error Value} {change : Value → Result} {result : Result} :
    change <$> source = .ok result ↔ ∃ value, source = .ok value ∧ change value = result := by
  cases source with
  | error error => simp [Functor.map, Except.map]
  | ok value => simp [Functor.map, Except.map]

theorem toOption_eq_some {source : Except Error Value} {value : Value} :
    source.toOption = some value ↔ source = .ok value := by
  cases source <;> simp [Except.toOption]

/-- A loop over a list returns when every call of its body does. -/
theorem mapM_returns_iff {source : List Value} {convert : Value → Except Error Result} :
    (∃ results, source.mapM convert = .ok results) ↔
      ∀ element ∈ source, ∃ result, convert element = .ok result := by
  induction source with
  | nil => simp [pure, Except.pure]
  | cons first rest ih =>
      rw [List.forall_mem_cons, ← ih, List.mapM_cons]
      constructor
      · intro returned
        obtain ⟨_, result⟩ := returned
        obtain ⟨head, converted, result⟩ := bind_eq_ok.mp result
        obtain ⟨tail, collected, _⟩ := bind_eq_ok.mp result
        exact ⟨⟨head, converted⟩, tail, collected⟩
      · intro returned
        obtain ⟨⟨head, converted⟩, tail, collected⟩ := returned
        exact ⟨head :: tail, by rw [bind_of_ok converted, bind_of_ok collected]; rfl⟩

/-- A loop whose calls all return collects what they return. -/
theorem mapM_of_forall {source : List Value} {convert : Value → Except Error Result}
    {converted : Value → Result} (each : ∀ element ∈ source, convert element = .ok (converted element)) :
    source.mapM convert = .ok (source.map converted) := by
  induction source with
  | nil => rfl
  | cons first rest ih =>
      obtain ⟨head, tail⟩ := List.forall_mem_cons.mp each
      rw [List.mapM_cons, bind_of_ok head, bind_of_ok (ih tail)]
      rfl

/-- The call fails, if it does, with one of these errors. -/
def FailsWithin (allowed : Error → Prop) (call : Except Error Value) : Prop :=
  ∀ error, call = .error error → allowed error

theorem failsWithin_ok (allowed : Error → Prop) (value : Value) :
    FailsWithin allowed (.ok value) := by
  intro error impossible
  cases impossible

theorem failsWithin_error {allowed : Error → Prop} {error : Error} (isAllowed : allowed error) :
    FailsWithin allowed (.error error : Except Error Value) := by
  intro other same
  cases same
  exact isAllowed

theorem FailsWithin.bind {allowed : Error → Prop} {source : Except Error Value}
    {continuation : Value → Except Error Result} (first : FailsWithin allowed source)
    (next : ∀ value, FailsWithin allowed (continuation value)) :
    FailsWithin allowed (source >>= continuation) := by
  cases source with
  | error error => exact failsWithin_error (first error rfl)
  | ok value => exact next value

theorem FailsWithin.map {allowed : Error → Prop} {source : Except Error Value}
    (fails : FailsWithin allowed source) (change : Value → Result) :
    FailsWithin allowed (source.map change) := by
  cases source with
  | error error => exact failsWithin_error (fails error rfl)
  | ok value => exact failsWithin_ok allowed _

theorem failsWithin_mapM {allowed : Error → Prop} {convert : Value → Except Error Result}
    (each : ∀ element, FailsWithin allowed (convert element)) (source : List Value) :
    FailsWithin allowed (source.mapM convert) := by
  induction source with
  | nil => exact failsWithin_ok allowed []
  | cons first rest ih =>
      rw [List.mapM_cons]
      exact (each first).bind fun _ => ih.bind fun _ => failsWithin_ok allowed _

theorem pure_eq_ok {value result : Value} :
    (pure value : Except Error Value) = .ok result ↔ value = result := by
  simp [pure, Except.pure]

end BabyLuigi
