import Permission.Predicate.Evaluation

/-!
# What an evaluation asks for

An evaluation asks for names of the leaves from left to right and leaves out those that can no
longer matter.  Its main statement here is that the names that it did ask for settle everything:
grants that agree on them are asked for the same names and lead to the same result.
-/

set_option autoImplicit false

namespace Permission
namespace Predicate

/-! ### Names that are asked for -/

theorem lookups_evaluateAny (granted : String → Bool) (names : List String) :
    (evaluateAny granted names).lookups <+: names := by
  induction names with
  | nil => exact List.prefix_rfl
  | cons name names ih =>
      unfold evaluateAny
      by_cases known : granted name = true
      · rw [if_pos known]
        exact ⟨names, rfl⟩
      · rw [if_neg known]
        exact List.cons_prefix_cons.mpr ⟨rfl, ih⟩

/-- A search for a missing name is a search for a granted one among the opposite grants. -/
theorem evaluateAll_eq_evaluateAny (granted : String → Bool) (names : List String) :
    evaluateAll granted names =
      { result := !(evaluateAny (fun name => !granted name) names).result,
        lookups := (evaluateAny (fun name => !granted name) names).lookups } := by
  induction names with
  | nil => rfl
  | cons name names ih =>
      unfold evaluateAll evaluateAny
      cases known : granted name with
      | true => simp [ih]
      | false => simp

theorem lookups_sublist (granted : String → Bool) (predicate : Predicate) :
    (predicate.evaluate granted).lookups.Sublist predicate.leaves := by
  induction predicate with
  | has name => exact .refl [name]
  | anyOf names => exact (lookups_evaluateAny granted names).sublist
  | allOf names =>
      rw [evaluate, evaluateAll_eq_evaluateAny]
      exact (lookups_evaluateAny _ names).sublist
  | and lhs rhs first second =>
      rw [evaluate, leaves]
      by_cases left : (lhs.evaluate granted).result = true
      · rw [if_pos left]
        exact first.append second
      · rw [if_neg left]
        exact first.trans (List.sublist_append_left _ _)
  | or lhs rhs first second =>
      rw [evaluate, leaves]
      by_cases left : (lhs.evaluate granted).result = true
      · rw [if_pos left]
        exact first.trans (List.sublist_append_left _ _)
      · rw [if_neg left]
        exact first.append second
  | not operand ih => exact ih

/-! ### Two evaluations -/

theorem evaluateAny_congr {granted other : String → Bool} {names : List String}
    (agree : ∀ name ∈ (evaluateAny granted names).lookups, granted name = other name) :
    evaluateAny other names = evaluateAny granted names := by
  induction names with
  | nil => rfl
  | cons name names ih =>
      unfold evaluateAny at agree ⊢
      by_cases known : granted name = true
      · rw [if_pos known] at agree ⊢
        rw [if_pos ((agree name List.mem_cons_self).symm.trans known)]
      · rw [if_neg known] at agree ⊢
        have same := agree name List.mem_cons_self
        rw [if_neg (same ▸ known), ih fun later member => agree later (List.mem_cons_of_mem _ member)]

/-- Grants that agree on what was asked for lead through the same evaluation. -/
theorem evaluate_congr {granted other : String → Bool} {predicate : Predicate}
    (agree : ∀ name ∈ (predicate.evaluate granted).lookups, granted name = other name) :
    predicate.evaluate other = predicate.evaluate granted := by
  -- The left operand is evaluated alike first.  Then both evaluations stop there, or both ask the
  -- right operand, and only in that case does the agreement cover it.
  induction predicate with
  | has name =>
      have same := agree name List.mem_cons_self
      rw [evaluate, evaluate, same]
  | anyOf names => exact evaluateAny_congr agree
  | allOf names =>
      rw [evaluate, evaluateAll_eq_evaluateAny] at agree
      rw [evaluate, evaluate, evaluateAll_eq_evaluateAny, evaluateAll_eq_evaluateAny,
        evaluateAny_congr fun name member => congrArg (!·) (agree name member)]
  | and lhs rhs first second =>
      rw [evaluate] at agree
      rw [evaluate, evaluate]
      by_cases left : (lhs.evaluate granted).result = true
      · rw [if_pos left] at agree ⊢
        rw [first fun name member => agree name (List.mem_append_left _ member), if_pos left,
          second fun name member => agree name (List.mem_append_right _ member)]
      · rw [if_neg left] at agree ⊢
        rw [first agree, if_neg left]
  | or lhs rhs first second =>
      rw [evaluate] at agree
      rw [evaluate, evaluate]
      by_cases left : (lhs.evaluate granted).result = true
      · rw [if_pos left] at agree ⊢
        rw [first agree, if_pos left]
      · rw [if_neg left] at agree ⊢
        rw [first fun name member => agree name (List.mem_append_left _ member), if_neg left,
          second fun name member => agree name (List.mem_append_right _ member)]
  | not operand ih => rw [evaluate, evaluate, ih agree]

/-- An evaluation depends only on what it asks for: names of the leaves in their order, all of them
permissions that the predicate refers to.  Grants that agree on these names are asked for the same
names and give the same result, so the permissions of a predicate settle every decision on it. -/
theorem evaluate_depends_on_lookups (predicate : Predicate) (granted other : String → Bool) :
    (predicate.evaluate granted).lookups.Sublist predicate.leaves ∧
      (∀ name ∈ (predicate.evaluate granted).lookups, name ∈ predicate.permissions) ∧
        ((∀ name ∈ (predicate.evaluate granted).lookups, granted name = other name) →
          (predicate.evaluate other).lookups = (predicate.evaluate granted).lookups ∧
            (predicate.evaluate other).result = (predicate.evaluate granted).result) ∧
          ((∀ name ∈ predicate.permissions, granted name = other name) →
            (predicate.evaluate other).result = (predicate.evaluate granted).result) := by
  have ordered := lookups_sublist granted predicate
  have listed : ∀ name ∈ (predicate.evaluate granted).lookups, name ∈ predicate.permissions :=
    fun name member => mem_permissions.mpr (ordered.subset member)
  refine ⟨ordered, listed, fun agree => ?_, fun agree => ?_⟩
  · rw [evaluate_congr agree]
    exact ⟨rfl, rfl⟩
  · rw [evaluate_congr fun name member => agree name (listed name member)]

/-- Without `a` neither `b` nor, when `c` is granted, `d` is asked for. -/
def halfAsked : Predicate :=
  .and (.not (.allOf ["a", "b"])) (.anyOf ["c", "d"])

theorem evaluate_depends_on_lookups_halfAsked :
    (∀ name ∈ (halfAsked.evaluate (· == "c")).lookups, (name == "c") = (name != "a")) ∧
      (halfAsked.evaluate (· != "a")).lookups = (halfAsked.evaluate (· == "c")).lookups ∧
        (halfAsked.evaluate (· != "a")).result = (halfAsked.evaluate (· == "c")).result ∧
          halfAsked.evaluate (· == "c") = { result := true, lookups := ["a", "c"] } := by
  have agree : ∀ name ∈ (halfAsked.evaluate (· == "c")).lookups,
      (name == "c") = (name != "a") := by decide
  obtain ⟨_, _, same, _⟩ := evaluate_depends_on_lookups halfAsked (· == "c") (· != "a")
  exact ⟨agree, (same agree).1, (same agree).2, by decide⟩

end Predicate
end Permission
