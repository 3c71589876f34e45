import Permission.Predicate

/-!
# Built-in calls

The three names that an expression may call, and how each joins its arguments into a predicate.
-/

set_option autoImplicit false

namespace Permission

inductive Builtin where
  | has
  | anyOf
  | allOf
  deriving DecidableEq, Repr

namespace Builtin

def all : List Builtin := [.has, .anyOf, .allOf]

def name : Builtin → String
  | .has => "has"
  | .anyOf => "some"
  | .allOf => "every"

def fold (text : String) : List Char :=
  text.toList.map Char.toLower

def named? (text : String) : Option Builtin :=
  all.find? fun builtin => builtin.name.toList == fold text

/-- The one built-in whose name begins with a text, if exactly one does. -/
def suggested? (text : String) : Option Builtin :=
  match all.filter fun builtin => (fold text).isPrefixOf builtin.name.toList with
  | [only] => some only
  | _ => none

/-- Joins a leaf and further predicates from left to right.  A leaf without names is left out when
something else is there. -/
def joinLeaf (leaf : List String → Predicate) (join : Predicate → Predicate → Predicate)
    (names : List String) (others : List Predicate) : Predicate :=
  match names, others with
  | [], first :: later => later.foldl join first
  | _, _ => others.foldl join (leaf names)

/-- The predicate of a call, from its arguments that are plain names and the predicates of the
other ones.  A call of `has` has exactly one argument. -/
def predicate : Builtin → List String → List Predicate → Predicate
  | .has, name :: _, _ => .has name
  | .has, [], operand :: _ => operand
  | .has, [], [] => .anyOf []
  | .anyOf, names, others => joinLeaf .anyOf .or names others
  | .allOf, names, others => joinLeaf .allOf .and names others

end Builtin
end Permission
