import Permission.Proofs.Guard
import Permission.Proofs.Lowering.Crowded

/-!
# Storing what a source compiles to

The predicate of a source is restored from its embedded form as far as it nests no deeper than the
reader of JSON admits, and a guard then decides on the restored predicate as on the source.  The
limits on the reading of expressions do not keep within that depth: every further compound argument
of a call costs a level of the stored form and none of the expression.
-/

set_option autoImplicit false

namespace Permission

theorem compile_ok {source : String} {predicate : Predicate}
    (compiled : compile source = .ok predicate) :
    ∃ expr, Expr.ofSource source = .ok expr ∧ expr.lower = .ok predicate := by
  obtain ⟨expr, spelled, lowered⟩ := ok_of_bind compiled
  exact ⟨expr, spelled, ok_of_mapError lowered⟩

/-- The predicate of a source is restored exactly if its expression says that it nests at most 127
deep.  A guard then decides on what is restored as a guard decides on the source, whatever either
was asked before. -/
theorem compiled_restored_within_limit {source : String} {predicate : Predicate}
    (compiled : compile source = .ok predicate) :
    ∃ expr, Expr.ofSource source = .ok expr ∧
      Predicate.extract predicate.embed =
        (if expr.storedNesting ≤ 127 then .ok predicate else .error .malformed) ∧
      (expr.storedNesting ≤ 127 → ∃ binding, Binding.extract predicate.embed = .ok binding ∧
        ∀ bound unbound : Guard, bound.Reached → unbound.Reached → ∀ granted,
          (bound.isPermitted binding granted).1 =
            (unbound.isPermitted (.source source) granted).1) := by
  obtain ⟨expr, spelled, lowered⟩ := compile_ok compiled
  have depth := Expr.nesting_of_lower expr lowered
  have extracted := Predicate.extract_embed predicate
  rw [depth] at extracted
  refine ⟨expr, spelled, extracted, ?_⟩
  intro shallow
  refine ⟨.predicate predicate, ?_, ?_⟩
  · rw [Binding.extract, extracted, if_pos (show expr.storedNesting ≤ Json.nestingLimit from shallow)]
    rfl
  · intro bound unbound boundReached unboundReached granted
    rw [Guard.isPermitted_faithful boundReached.faithful,
      Guard.isPermitted_faithful unboundReached.faithful, Binding.required, Binding.required,
      compiled]

theorem compiled_restored_pair :
    compile (crowded 1) = .ok (.or (.not (.has "a")) (.not (.has "a"))) ∧
      ∃ expr, Expr.ofSource (crowded 1) = .ok expr ∧
        Predicate.extract (Predicate.or (.not (.has "a")) (.not (.has "a"))).embed =
          (if expr.storedNesting ≤ 127 then .ok (.or (.not (.has "a")) (.not (.has "a")))
            else .error .malformed) ∧
        (expr.storedNesting ≤ 127 → ∃ binding,
          Binding.extract (Predicate.or (.not (.has "a")) (.not (.has "a"))).embed = .ok binding ∧
          ∀ bound unbound : Guard, bound.Reached → unbound.Reached → ∀ granted,
            (bound.isPermitted binding granted).1 =
              (unbound.isPermitted (.source (crowded 1)) granted).1) :=
  ⟨compile_crowded 1, compiled_restored_within_limit (compile_crowded 1)⟩

/-- Two levels deep at each of its arguments, a call of 127 of them compiles to a predicate whose
embedded form is refused. -/
theorem crowded_not_restored : ∃ predicate, compile (crowded 126) = .ok predicate ∧
    Predicate.extract predicate.embed ≠ .ok predicate := by
  refine ⟨crowdedPredicate 126, compile_crowded 126, ?_⟩
  rw [Predicate.extract_embed, crowdedPredicate_nesting, if_neg (by decide)]
  intro restored
  cases restored

end Permission
