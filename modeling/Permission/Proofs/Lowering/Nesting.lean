import Permission.Proofs.Lowering
import Permission.Proofs.Storage

/-!
# How deep the predicate of an expression nests

Lowering folds the arguments of a call into a chain of connectives, so the stored form of a
predicate can nest deeper than the expression is high.  How deep it nests is read off the
expression here, before it is lowered.
-/

set_option autoImplicit false

namespace Permission
namespace Builtin

def joinNesting (left right : Nat) : Nat :=
  max left right + 1

/-- How deep the predicate of a call nests, for the depths of those arguments that are no plain
names. -/
def nesting : Builtin → List String → List Nat → Nat
  | .has, _ :: _, _ => 1
  | .has, [], depth :: _ => depth
  | .has, [], [] => 2
  | _, [], first :: later => later.foldl joinNesting first
  | _, _, depths => depths.foldl joinNesting 2

theorem foldl_nesting {join : Predicate → Predicate → Predicate}
    (joins : ∀ left right, (join left right).nesting = joinNesting left.nesting right.nesting)
    (start : Predicate) (others : List Predicate) :
    (others.foldl join start).nesting =
      (others.map Predicate.nesting).foldl joinNesting start.nesting := by
  induction others generalizing start with
  | nil => rfl
  | cons first others ih =>
      rw [List.foldl_cons, ih, joins]
      rfl

theorem predicate_nesting (builtin : Builtin) (names : List String) (others : List Predicate) :
    (builtin.predicate names others).nesting =
      builtin.nesting names (others.map Predicate.nesting) := by
  cases builtin with
  | has =>
      cases names with
      | cons name names => rfl
      | nil => cases others <;> rfl
  | anyOf =>
      cases names with
      | cons name names => exact foldl_nesting (fun _ _ => rfl) (.anyOf (name :: names)) others
      | nil =>
          cases others with
          | nil => rfl
          | cons first later => exact foldl_nesting (fun _ _ => rfl) first later
  | allOf =>
      cases names with
      | cons name names => exact foldl_nesting (fun _ _ => rfl) (.allOf (name :: names)) others
      | nil =>
          cases others with
          | nil => rfl
          | cons first later => exact foldl_nesting (fun _ _ => rfl) first later

end Builtin

namespace Expr

mutual

def storedNesting : Expr → Nat
  | .identifier _ => 1
  | .unary _ operand => operand.storedNesting + 1
  | .binary _ lhs rhs => max lhs.storedNesting rhs.storedNesting + 1
  | .call callee arguments =>
    match calledBuiltin callee with
    | .ok builtin => builtin.nesting (arguments.filterMap identifier?) (compoundNestings arguments)
    | .error _ => 0

def compoundNestings : List Expr → List Nat
  | [] => []
  | .identifier _ :: others => compoundNestings others
  | first :: others => first.storedNesting :: compoundNestings others

end

theorem compoundNestings_compound {first : Expr} (noName : first.form ≠ .identifier)
    (others : List Expr) :
    compoundNestings (first :: others) = first.storedNesting :: compoundNestings others := by
  rw [compoundNestings]
  intro name same
  exact noName (by rw [same]; rfl)

mutual

theorem Lowers.nesting {expr : Expr} {predicate : Predicate} :
    Lowers expr predicate → predicate.nesting = expr.storedNesting
  | .identifier _ => rfl
  | .unary _ content => by rw [Predicate.nesting, content.nesting, storedNesting]
  | .conjunction _ first second | .disjunction _ first second => by
      rw [Predicate.nesting, first.nesting, second.nesting, storedNesting]
  | .call named _ _ content => by
      rw [Builtin.predicate_nesting, content.nestings, storedNesting,
        calledBuiltin_of_named named]

theorem LowersCompound.nestings {arguments : List Expr} {others : List Predicate} :
    LowersCompound arguments others →
      others.map Predicate.nesting = compoundNestings arguments
  | .nil => rfl
  | .name _ later => by rw [compoundNestings, later.nestings]
  | .compound noName here later => by
      rw [List.map_cons, here.nesting, later.nestings, compoundNestings_compound noName]

end

theorem nesting_of_lower (expr : Expr) {predicate : Predicate}
    (lowered : expr.lower = .ok predicate) : predicate.nesting = expr.storedNesting :=
  (lowers_of_lower expr lowered).nesting

end Expr
end Permission
