import Permission.Proofs.Lowering

/-!
# The names of an expression

The names of an expression are its identifiers that are no callees.  Lowering sorts the arguments
of a call, so it changes their order, but neither loses a name nor brings in another one.
-/

set_option autoImplicit false

namespace Permission
namespace Builtin

theorem leaves_foldl {join : Predicate → Predicate → Predicate}
    (joins : ∀ left right, (join left right).leaves = left.leaves ++ right.leaves)
    (start : Predicate) (others : List Predicate) :
    (others.foldl join start).leaves = start.leaves ++ others.flatMap Predicate.leaves := by
  induction others generalizing start with
  | nil => simp
  | cons first others ih => rw [List.foldl_cons, ih, joins, List.flatMap_cons, List.append_assoc]

theorem leaves_joinLeaf {leaf : List String → Predicate}
    {join : Predicate → Predicate → Predicate} (listed : ∀ names, (leaf names).leaves = names)
    (joins : ∀ left right, (join left right).leaves = left.leaves ++ right.leaves)
    (names : List String) (others : List Predicate) :
    (joinLeaf leaf join names others).leaves = names ++ others.flatMap Predicate.leaves := by
  unfold joinLeaf
  split
  · exact leaves_foldl joins _ _
  · rw [leaves_foldl joins, listed]

theorem leaves_predicate {builtin : Builtin} {names : List String} {others : List Predicate}
    (single : builtin = .has → names.length + others.length = 1) :
    (builtin.predicate names others).leaves = names ++ others.flatMap Predicate.leaves := by
  cases builtin with
  | anyOf => exact leaves_joinLeaf (fun _ => rfl) (fun _ _ => rfl) names others
  | allOf => exact leaves_joinLeaf (fun _ => rfl) (fun _ _ => rfl) names others
  | has =>
      have counted := single rfl
      match names, others with
      | [], [operand] => simp [predicate]
      | [name], [] => rfl
      | _ :: _ :: _, _ | [_], _ :: _ | [], [] | [], _ :: _ :: _ =>
          simp only [List.length_cons, List.length_nil] at counted
          omega

end Builtin

namespace Expr

mutual

/-- The identifiers of an expression that are no callees, from left to right. -/
def names : Expr → List String
  | .identifier name => [name]
  | .unary _ operand => operand.names
  | .binary _ lhs rhs => lhs.names ++ rhs.names
  | .call _ arguments => argumentNames arguments

def argumentNames : List Expr → List String
  | [] => []
  | first :: others => first.names ++ argumentNames others

end

theorem LowersCompound.length {arguments : List Expr} {others : List Predicate} :
    LowersCompound arguments others →
      (arguments.filterMap identifier?).length + others.length = arguments.length
  | .nil => rfl
  | .name text later => by
      have counted := later.length
      have shown : (identifier text).identifier? = some text := rfl
      rw [List.filterMap_cons_some shown, List.length_cons, List.length_cons]
      omega
  | .compound noName _ later => by
      have counted := later.length
      rw [List.filterMap_cons_none (identifier?_of_form noName), List.length_cons,
        List.length_cons]
      omega

mutual

/-- The names in a predicate are those of the expression that it stands for, each as often. -/
theorem Lowers.names {expr : Expr} {predicate : Predicate} :
    Lowers expr predicate → predicate.leaves.Perm expr.names
  | .identifier name => .refl [name]
  | .unary _ content => content.names
  | .conjunction _ first second | .disjunction _ first second => first.names.append second.names
  | .call _ single _ content => by
      rw [Builtin.leaves_predicate fun isHas => content.length.trans (single isHas)]
      exact content.names

theorem LowersCompound.names {arguments : List Expr} {others : List Predicate} :
    LowersCompound arguments others →
      (arguments.filterMap identifier? ++ others.flatMap Predicate.leaves).Perm
        (argumentNames arguments)
  | .nil => .refl []
  | .name name later => later.names.cons name
  | .compound noName here later => by
      rw [List.filterMap_cons_none (identifier?_of_form noName), List.flatMap_cons, argumentNames]
      exact (List.perm_append_comm_assoc _ _ _).trans (here.names.append later.names)

end

end Expr
end Permission
