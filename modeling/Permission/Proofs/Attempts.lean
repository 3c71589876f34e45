/-!
# Outcomes of attempts

An attempt gives a value or an error.  These lemmas take apart what was put together from attempts,
and they know nothing of what is attempted.
-/

set_option autoImplicit false

namespace Permission

variable {Error Fault Value Result : Type}

/-- A result of two steps is a result of the second on what the first one gave. -/
theorem ok_of_bind {first : Except Error Value} {second : Value → Except Error Result}
    {result : Result} (done : first >>= second = .ok result) :
    ∃ value, first = .ok value ∧ second value = .ok result := by
  cases first with
  | error error => cases done
  | ok value => exact ⟨value, rfl, done⟩

theorem ok_of_mapError {change : Error → Fault} {attempt : Except Error Result} {result : Result}
    (done : attempt.mapError change = .ok result) : attempt = .ok result := by
  cases attempt with
  | error error => cases done
  | ok value =>
      cases done
      rfl

theorem map_eq_ok_iff {attempt : Except Error Value} {change : Value → Result} {result : Result} :
    attempt.map change = .ok result ↔ ∃ value, attempt = .ok value ∧ result = change value := by
  cases attempt with
  | error error => simp [Except.map]
  | ok value =>
      constructor
      · intro same
        cases same
        exact ⟨value, rfl, rfl⟩
      · intro found
        obtain ⟨_, same, given⟩ := found
        cases same
        exact congrArg Except.ok given.symm

theorem map_eq_error_iff {attempt : Except Error Value} {change : Value → Result} {error : Error} :
    attempt.map change = .error error ↔ attempt = .error error := by
  cases attempt <;> simp [Except.map]

theorem map_mapError (change : Error → Fault) (further : Value → Result)
    (attempt : Except Error Value) :
    (attempt.mapError change).map further = (attempt.map further).mapError change := by
  cases attempt <;> rfl

end Permission
