import Permission.Builtin
import Permission.Expr

/-!
# Lowering expressions to predicates

Lowering checks what the grammar leaves open: operators, callees, and the number and the form of
arguments.  A node is checked before what stands below it, and operands and arguments are lowered
from left to right, so the first fault in that order is the one that is reported.
-/

set_option autoImplicit false

namespace Permission

/-- Why an expression has no predicate.  A name that no built-in has is unknown if exactly one
built-in begins with it, and not implemented otherwise. -/
inductive LoweringError where
  | expectedIdentifier (found : Expr.Form)
  | unknownCall (name : String) (suggestion : Builtin)
  | notImplemented (name : String)
  | argumentCount (received : Nat)
  | invalidArgument
  | invalidBinaryOperator (kind : Token.Kind)
  | unknownUnaryOperator (kind : Token.Kind)
  deriving DecidableEq, Repr

def LoweringError.message : LoweringError → String
  | .expectedIdentifier found => "expected identifier but found `" ++ found.name ++ "`"
  | .unknownCall name suggestion =>
    "`" ++ name ++ "` not found, did you want `" ++ suggestion.name ++ "`?"
  | .notImplemented name => "`" ++ name ++ "` not implemented yet"
  | .argumentCount received =>
    "expected 1 argument but received `" ++ toString received ++ "`"
  | .invalidArgument =>
    "argument can only be an identifier, binary expression, or prefix expression"
  | .invalidBinaryOperator _ =>
    "operator only supports AND/OR (or their symbolic/keyword spellings)"
  | .unknownUnaryOperator kind => "unknown operator `" ++ kind.name ++ "`"

namespace Expr

def connective (operator : Token) :
    Except LoweringError (Predicate → Predicate → Predicate) :=
  match operator.kind with
  | .and => .ok .and
  | .or => .ok .or
  | kind => .error (.invalidBinaryOperator kind)

def calledBuiltin (callee : Expr) : Except LoweringError Builtin :=
  match callee.identifier? with
  | none => .error (.expectedIdentifier callee.form)
  | some name =>
    match Builtin.named? name with
    | some builtin => .ok builtin
    | none =>
      match Builtin.suggested? name with
      | some suggestion => .error (.unknownCall name suggestion)
      | none => .error (.notImplemented name)

/-- Checks a call before its arguments are lowered. -/
def checkedCall (callee : Expr) (arguments : List Expr) : Except LoweringError Builtin := do
  let builtin ← calledBuiltin callee
  if builtin = .has ∧ arguments.length ≠ 1 then
    .error (.argumentCount arguments.length)
  else if arguments.any (·.form = .call) then
    .error .invalidArgument
  else
    .ok builtin

mutual

def lower : Expr → Except LoweringError Predicate
  | .identifier name => .ok (.has name)
  | .unary operator operand =>
    if operator.kind = .not then do
      let inner ← operand.lower
      return .not inner
    else
      .error (.unknownUnaryOperator operator.kind)
  | .binary operator lhs rhs => do
    let join ← connective operator
    let left ← lhs.lower
    let right ← rhs.lower
    return join left right
  | .call callee arguments => do
    let builtin ← checkedCall callee arguments
    let others ← lowerCompound arguments
    return builtin.predicate (arguments.filterMap identifier?) others

/-- The predicates of those arguments that are no plain names. -/
def lowerCompound : List Expr → Except LoweringError (List Predicate)
  | [] => .ok []
  | .identifier _ :: others => lowerCompound others
  | first :: others => do
    let predicate ← first.lower
    let predicates ← lowerCompound others
    return predicate :: predicates

end

end Expr
end Permission
