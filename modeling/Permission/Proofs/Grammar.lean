import Permission.Expr.Reader

/-!
# The grammar of expressions

The four phrase classes of the grammar, and the lists of arguments, as relations between the
tokens of a phrase, its tree and its need: the number of phrases that are open at once while it
is read, itself included.  Left operands and callees are read on the level of the whole phrase;
right operands, operands of negations, arguments and the contents of groups are read one level
further in.
-/

set_option autoImplicit false

namespace Permission
namespace Grammar

open Permission.Expr

mutual

/-- A sentence: operands joined by `AND` and `OR`, grouped to the left. -/
inductive Junction : List Token → Expr → Nat → Prop
  | operand {tokens : List Token} {phrase : Expr} {need : Nat}
      (content : Operand tokens phrase need) : Junction tokens phrase need
  | junction (operator : Token) {left right : List Token} {lhs rhs : Expr}
      {leftNeed rightNeed : Nat} (joins : operator.kind = .and ∨ operator.kind = .or)
      (first : Junction left lhs leftNeed) (second : Operand right rhs rightNeed) :
      Junction (left ++ operator :: right) (.binary operator lhs rhs)
        (max leftNeed (rightNeed + 1))

/-- A chain of negations before a callable phrase. -/
inductive Operand : List Token → Expr → Nat → Prop
  | negation (operator : Token) {inner : List Token} {operand : Expr} {need : Nat}
      (negates : operator.kind = .not) (content : Operand inner operand need) :
      Operand (operator :: inner) (.unary operator operand) (need + 1)
  | callable {tokens : List Token} {phrase : Expr} {need : Nat}
      (content : Callable tokens phrase need) : Operand tokens phrase need

/-- A primary phrase with any number of calls after it. -/
inductive Callable : List Token → Expr → Nat → Prop
  | primary {tokens : List Token} {phrase : Expr} {need : Nat}
      (content : Primary tokens phrase need) : Callable tokens phrase need
  | emptyCall (opening closing : Token) {left : List Token} {callee : Expr} {need : Nat}
      (opens : opening.kind = .leftParen) (closes : closing.kind = .rightParen)
      (first : Callable left callee need) :
      Callable (left ++ [opening, closing]) (.call callee []) need
  | call (opening closing : Token) {left inner : List Token} {callee : Expr}
      {arguments : List Expr} {leftNeed innerNeed : Nat}
      (opens : opening.kind = .leftParen) (closes : closing.kind = .rightParen)
      (first : Callable left callee leftNeed) (second : Arguments inner arguments innerNeed) :
      Callable (left ++ opening :: (inner ++ [closing])) (.call callee arguments)
        (max leftNeed (innerNeed + 1))

/-- At least one operand, with commas between them. -/
inductive Arguments : List Token → List Expr → Nat → Prop
  | last {tokens : List Token} {argument : Expr} {need : Nat}
      (content : Operand tokens argument need) : Arguments tokens [argument] need
  | more (comma : Token) {left right : List Token} {argument : Expr} {others : List Expr}
      {leftNeed rightNeed : Nat} (separates : comma.kind = .comma)
      (first : Operand left argument leftNeed) (second : Arguments right others rightNeed) :
      Arguments (left ++ comma :: right) (argument :: others) (max leftNeed rightNeed)

/-- An identifier, or a whole sentence in parentheses. -/
inductive Primary : List Token → Expr → Nat → Prop
  | identifier (token : Token) (named : token.kind = .identifier) :
      Primary [token] (.identifier token.text) 1
  | group (opening closing : Token) {inner : List Token} {phrase : Expr} {need : Nat}
      (opens : opening.kind = .leftParen) (closes : closing.kind = .rightParen)
      (content : Junction inner phrase need) :
      Primary (opening :: (inner ++ [closing])) phrase (need + 1)

end

mutual

theorem Operand.begins {tokens : List Token} {phrase : Expr} {need : Nat} :
    Operand tokens phrase need →
      ∃ first others, tokens = first :: others ∧ first.kind ≠ .rightParen
  | .negation operator negates _ => ⟨operator, _, rfl, by rw [negates]; decide⟩
  | .callable content => content.begins

theorem Callable.begins {tokens : List Token} {phrase : Expr} {need : Nat} :
    Callable tokens phrase need →
      ∃ first others, tokens = first :: others ∧ first.kind ≠ .rightParen
  | .primary content => content.begins
  | .emptyCall opening closing _ _ first => by
      rcases first.begins with ⟨token, others, rfl, begins⟩
      exact ⟨token, others ++ [opening, closing], rfl, begins⟩
  | .call opening closing _ _ first _ => by
      rcases first.begins with ⟨token, others, rfl, begins⟩
      exact ⟨token, _, rfl, begins⟩

theorem Primary.begins {tokens : List Token} {phrase : Expr} {need : Nat} :
    Primary tokens phrase need →
      ∃ first others, tokens = first :: others ∧ first.kind ≠ .rightParen
  | .identifier token named => ⟨token, [], rfl, by rw [named]; decide⟩
  | .group opening _ opens _ _ => ⟨opening, _, rfl, by rw [opens]; decide⟩

end

theorem Arguments.begins {tokens : List Token} {arguments : List Expr} {need : Nat}
    (content : Arguments tokens arguments need) :
    ∃ first others, tokens = first :: others ∧ first.kind ≠ .rightParen := by
  cases content with
  | last content => exact content.begins
  | more comma separates first second =>
      rcases first.begins with ⟨token, others, rfl, begins⟩
      exact ⟨token, _, rfl, begins⟩

theorem Operand.callable_of_form {tokens : List Token} {phrase : Expr} {need : Nat}
    (content : Operand tokens phrase need) (noNegation : phrase.form ≠ .unary) :
    Callable tokens phrase need := by
  cases content with
  | negation operator negates content => exact absurd rfl noNegation
  | callable content => exact content

end Grammar
end Permission
