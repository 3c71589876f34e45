/-!
# Predicates

A predicate says which permissions a decision needs.  Its leaves hold plain permission names.
Main statement: `Predicate.permissions` lists the names of the leaves in increasing order.
-/

set_option autoImplicit false

namespace Permission

/-- A condition on the permissions that are granted. -/
inductive Predicate where
  | has (name : String)
  | anyOf (names : List String)
  | allOf (names : List String)
  | and (lhs rhs : Predicate)
  | or (lhs rhs : Predicate)
  | not (operand : Predicate)
  deriving DecidableEq, Repr

namespace Predicate

def leaves : Predicate → List String
  | .has name => [name]
  | .anyOf names => names
  | .allOf names => names
  | .and lhs rhs => lhs.leaves ++ rhs.leaves
  | .or lhs rhs => lhs.leaves ++ rhs.leaves
  | .not operand => operand.leaves

def insertName (name : String) : List String → List String
  | [] => [name]
  | first :: others =>
    if name < first then name :: first :: others
    else if name = first then first :: others
    else first :: insertName name others

/-- The names that a predicate refers to, by increasing code points and each one once. -/
def permissions (predicate : Predicate) : List String :=
  predicate.leaves.foldr insertName []

theorem mem_insertName {name other : String} {names : List String} :
    other ∈ insertName name names ↔ other = name ∨ other ∈ names := by
  induction names with
  | nil => simp [insertName]
  | cons first others ih =>
      unfold insertName
      split
      · simp
      · split
        · rename_i same
          subst same
          simp
        · simp only [List.mem_cons, ih]
          constructor
          · rintro (h | h | h) <;> simp [h]
          · rintro (h | h | h) <;> simp [h]

theorem mem_permissions {name : String} {predicate : Predicate} :
    name ∈ predicate.permissions ↔ name ∈ predicate.leaves := by
  unfold permissions
  induction predicate.leaves with
  | nil => simp
  | cons first others ih => simp [mem_insertName, ih]

/-- The source text of a predicate.  Binary connectives stand in parentheses. -/
def display : Predicate → String
  | .has name => "Has(" ++ name ++ ")"
  | .anyOf names => "Some(" ++ ", ".intercalate names ++ ")"
  | .allOf names => "Every(" ++ ", ".intercalate names ++ ")"
  | .and lhs rhs => "(" ++ lhs.display ++ " And " ++ rhs.display ++ ")"
  | .or lhs rhs => "(" ++ lhs.display ++ " Or " ++ rhs.display ++ ")"
  | .not operand => "Not " ++ operand.display

end Predicate
end Permission
