import Permission.Token

/-!
# Expressions

The tree of a permission expression as it was written: operators keep their tokens and a call may
have any callee.  The module holds the measures of a tree and its text.
-/

set_option autoImplicit false

namespace Permission

inductive Expr where
  | identifier (name : String)
  | unary (operator : Token) (operand : Expr)
  | binary (operator : Token) (lhs rhs : Expr)
  | call (callee : Expr) (arguments : List Expr)
  deriving Repr

inductive Expr.Form where
  | identifier
  | unary
  | binary
  | call
  deriving DecidableEq, Repr

namespace Expr

def Form.name : Form → String
  | .identifier => "Identifier"
  | .unary => "PrefixExpr"
  | .binary => "BinaryExpr"
  | .call => "FnCall"

def form : Expr → Form
  | .identifier _ => .identifier
  | .unary _ _ => .unary
  | .binary _ _ _ => .binary
  | .call _ _ => .call

def identifier? : Expr → Option String
  | .identifier name => some name
  | _ => none

mutual

/-- The height of a tree.  An identifier has height one and a parenthesis adds none. -/
def height : Expr → Nat
  | .identifier _ => 1
  | .unary _ operand => operand.height + 1
  | .binary _ lhs rhs => max lhs.height rhs.height + 1
  | .call callee arguments => max callee.height (heights arguments) + 1

def heights : List Expr → Nat
  | [] => 0
  | first :: others => max first.height (heights others)

end

mutual

/-- The text of a tree, with every binary expression in parentheses. -/
def display : Expr → String
  | .identifier name => name
  | .unary operator operand => operator.spelling ++ " " ++ operand.display
  | .binary operator lhs rhs =>
    "(" ++ lhs.display ++ " " ++ operator.spelling ++ " " ++ rhs.display ++ ")"
  | .call callee arguments =>
    callee.display ++ "(" ++ ", ".intercalate (displays arguments) ++ ")"

def displays : List Expr → List String
  | [] => []
  | first :: others => first.display :: displays others

end

end Expr
end Permission
