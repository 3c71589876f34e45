import Permission.Expr
import Permission.Json

/-!
# Expressions as JSON

Every node is an object whose first member, `type`, names its form.
-/

set_option autoImplicit false

namespace Permission

def Token.toJson (token : Token) : Json :=
  .object
    [("kind", .string token.kind.name), ("text", .string token.text),
     ("offset", .number (toString token.offset))]

namespace Expr

mutual

def toJson : Expr → Json
  | .identifier name =>
    .object [("type", .string Form.identifier.name), ("name", .string name)]
  | .unary operator operand =>
    .object
      [("type", .string Form.unary.name), ("operator", operator.toJson),
       ("expr", operand.toJson)]
  | .binary operator lhs rhs =>
    .object
      [("type", .string Form.binary.name), ("operator", operator.toJson),
       ("lhs", lhs.toJson), ("rhs", rhs.toJson)]
  | .call callee arguments =>
    .object
      [("type", .string Form.call.name), ("name", callee.toJson),
       ("args", .array (toJsons arguments))]

def toJsons : List Expr → List Json
  | [] => []
  | first :: others => first.toJson :: toJsons others

end

end Expr
end Permission
