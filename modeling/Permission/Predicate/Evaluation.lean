import Permission.Predicate

/-!
# Evaluating predicates

A predicate is evaluated against the permissions that are granted, and the evaluation records the
names that it asks for.  Connectives and lists stop as soon as the result is known.
-/

set_option autoImplicit false

namespace Permission

/-- The result of an evaluation with the names that were looked up, in order. -/
structure Evaluation where
  result : Bool
  lookups : List String
  deriving DecidableEq, Repr

namespace Predicate

def evaluateAny (granted : String → Bool) : List String → Evaluation
  | [] => { result := false, lookups := [] }
  | name :: names =>
    if granted name then
      { result := true, lookups := [name] }
    else
      let later := evaluateAny granted names
      { later with lookups := name :: later.lookups }

def evaluateAll (granted : String → Bool) : List String → Evaluation
  | [] => { result := true, lookups := [] }
  | name :: names =>
    if granted name then
      let later := evaluateAll granted names
      { later with lookups := name :: later.lookups }
    else
      { result := false, lookups := [name] }

/-- Evaluates a predicate from left to right.  The right operand of a conjunction or a disjunction
is left out when the left one decides. -/
def evaluate (granted : String → Bool) : Predicate → Evaluation
  | .has name => { result := granted name, lookups := [name] }
  | .anyOf names => evaluateAny granted names
  | .allOf names => evaluateAll granted names
  | .and lhs rhs =>
    let left := lhs.evaluate granted
    if left.result then
      let right := rhs.evaluate granted
      { result := right.result, lookups := left.lookups ++ right.lookups }
    else
      left
  | .or lhs rhs =>
    let left := lhs.evaluate granted
    if left.result then
      left
    else
      let right := rhs.evaluate granted
      { result := right.result, lookups := left.lookups ++ right.lookups }
  | .not operand =>
    let inner := operand.evaluate granted
    { inner with result := !inner.result }

def holds (granted : String → Bool) (predicate : Predicate) : Bool :=
  (predicate.evaluate granted).result

theorem evaluateAny_result (granted : String → Bool) (names : List String) :
    (evaluateAny granted names).result = names.any granted := by
  induction names with
  | nil => rfl
  | cons name names ih =>
      unfold evaluateAny
      cases known : granted name <;> simp [known, ih]

theorem evaluateAll_result (granted : String → Bool) (names : List String) :
    (evaluateAll granted names).result = names.all granted := by
  induction names with
  | nil => rfl
  | cons name names ih =>
      unfold evaluateAll
      cases known : granted name <;> simp [known, ih]

@[simp]
theorem holds_has (granted : String → Bool) (name : String) :
    holds granted (.has name) = granted name := rfl

@[simp]
theorem holds_anyOf (granted : String → Bool) (names : List String) :
    holds granted (.anyOf names) = names.any granted :=
  evaluateAny_result granted names

@[simp]
theorem holds_allOf (granted : String → Bool) (names : List String) :
    holds granted (.allOf names) = names.all granted :=
  evaluateAll_result granted names

@[simp]
theorem holds_and (granted : String → Bool) (lhs rhs : Predicate) :
    holds granted (.and lhs rhs) = (holds granted lhs && holds granted rhs) := by
  unfold holds
  rw [evaluate]
  cases left : (lhs.evaluate granted).result <;> simp [left]

@[simp]
theorem holds_or (granted : String → Bool) (lhs rhs : Predicate) :
    holds granted (.or lhs rhs) = (holds granted lhs || holds granted rhs) := by
  unfold holds
  rw [evaluate]
  cases left : (lhs.evaluate granted).result <;> simp [left]

@[simp]
theorem holds_not (granted : String → Bool) (operand : Predicate) :
    holds granted (.not operand) = !holds granted operand := rfl

end Predicate
end Permission
