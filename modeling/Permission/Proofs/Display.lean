import Permission.Proofs.Compilation
import Permission.Proofs.Grammar.Soundness
import Permission.Proofs.Lowering
import Permission.Proofs.Tokens.Printed

/-!
# Reading a displayed expression

The text of an expression is read as tokens that depend on the expression only, and these are a
sentence of the grammar whose tree is the expression, as long as no negation is called: a negation
is shown without parentheses, so a call behind it belongs to its operand.
-/

set_option autoImplicit false

namespace Permission
namespace Expr

open Token (Prints separators)

def unplaced (expr : Expr) : Expr :=
  expr.relabel Token.unplaced

mutual

/-- Names and operators have a text of their kind, and each operator stands where its kind may. -/
def Spelled : Expr → Prop
  | .identifier name => Token.Kind.identifier.Admits name
  | .unary operator operand =>
    operator.kind = .not ∧ operator.kind.Admits operator.text ∧ operand.Spelled
  | .binary operator lhs rhs =>
    (operator.kind = .and ∨ operator.kind = .or) ∧ operator.kind.Admits operator.text ∧
      lhs.Spelled ∧ rhs.Spelled
  | .call callee arguments => callee.Spelled ∧ AllSpelled arguments

def AllSpelled : List Expr → Prop
  | [] => True
  | first :: others => first.Spelled ∧ AllSpelled others

end

mutual

def NoNegatedCallee : Expr → Prop
  | .identifier _ => True
  | .unary _ operand => operand.NoNegatedCallee
  | .binary _ lhs rhs => lhs.NoNegatedCallee ∧ rhs.NoNegatedCallee
  | .call callee arguments =>
    callee.form ≠ .unary ∧ callee.NoNegatedCallee ∧ NoNegatedCallees arguments

def NoNegatedCallees : List Expr → Prop
  | [] => True
  | first :: others => first.NoNegatedCallee ∧ NoNegatedCallees others

end

mutual

/-- The number of phrases that are open at once while the text of the expression is read. -/
def need : Expr → Nat
  | .identifier _ => 1
  | .unary _ operand => operand.need + 1
  | .binary _ lhs rhs => max lhs.need (rhs.need + 1) + 1
  | .call callee arguments => max callee.need (argumentsNeed arguments)

/-- The number of phrases that are open at once in a call, itself included, while its arguments are
read. -/
def argumentsNeed : List Expr → Nat
  | [] => 0
  | first :: others => max (first.need + 1) (argumentsNeed others)

end

/-! ### The tokens of the text -/

mutual

/-- The tokens that the text of an expression is read as, without their places. -/
def tokens : Expr → List Token
  | .identifier name => [⟨.identifier, name, 0⟩]
  | .unary operator operand => operator.unplaced :: operand.tokens
  | .binary operator lhs rhs =>
    ⟨.leftParen, "(", 0⟩ ::
      (lhs.tokens ++ operator.unplaced :: (rhs.tokens ++ [⟨.rightParen, ")", 0⟩]))
  | .call callee arguments =>
    callee.tokens ++ ⟨.leftParen, "(", 0⟩ :: (argumentTokens arguments ++ [⟨.rightParen, ")", 0⟩])

def argumentTokens : List Expr → List Token
  | [] => []
  | [only] => only.tokens
  | first :: second :: others =>
    first.tokens ++ ⟨.comma, ",", 0⟩ :: argumentTokens (second :: others)

end

theorem spelling_eq_text {operator : Token} (admitted : operator.kind.Admits operator.text) :
    operator.spelling = operator.text := by
  obtain ⟨first, others, shape, _⟩ := admitted.begins
  have nonempty : operator.text.isEmpty = false := by
    rw [Bool.eq_false_iff]
    intro empty
    rw [String.isEmpty_iff.mp empty] at shape
    cases shape
  rw [Token.spelling, nonempty]
  rfl

theorem prints_opening {text : List Char} {tokens : List Token} (inner : Prints text tokens) :
    Prints ('(' :: text) (⟨.leftParen, "(", 0⟩ :: tokens) := by
  have admitted : Token.Kind.leftParen.Admits "(" := rfl
  exact Prints.token admitted (fun _ _ _ _ goesOn => goesOn) inner

theorem prints_comma {text : List Char} {tokens : List Token} (later : Prints text tokens) :
    Prints (',' :: ' ' :: text) (⟨.comma, ",", 0⟩ :: tokens) := by
  have admitted : Token.Kind.comma.Admits "," := rfl
  exact Prints.token admitted (fun _ _ _ _ goesOn => goesOn) later.blank

theorem prints_closing : Prints [')'] [⟨.rightParen, ")", 0⟩] := by
  have admitted : Token.Kind.rightParen.Admits ")" := rfl
  exact Prints.single admitted

theorem prints_operator {operator : Token} {text : List Char} {tokens : List Token}
    (admitted : operator.kind.Admits operator.text) (operand : Prints text tokens) :
    Prints (operator.spelling.toList ++ ' ' :: text) (operator.unplaced :: tokens) := by
  rw [spelling_eq_text admitted]
  exact (Prints.single admitted).append (by decide) operand.blank

mutual

theorem Spelled.prints : ∀ {expr : Expr}, expr.Spelled →
    Prints expr.display.toList expr.tokens
  | .identifier name, spelled => by
      rw [display, tokens]
      exact Prints.single spelled
  | .unary operator operand, spelled => by
      rw [display, tokens]
      have printed := prints_operator spelled.2.1 spelled.2.2.prints
      simpa using printed
  | .binary operator lhs rhs, spelled => by
      obtain ⟨_, admitted, left, right⟩ := spelled
      rw [display, tokens]
      have closed := right.prints.append (by decide) prints_closing
      have joined := left.prints.append (by decide) (prints_operator admitted closed).blank
      simpa using prints_opening joined
  | .call callee arguments, spelled => by
      rw [display, tokens]
      have closed := spelled.2.prints.append (by decide) prints_closing
      have called := spelled.1.prints.append (by decide) (prints_opening closed)
      simpa using called

theorem AllSpelled.prints : ∀ {arguments : List Expr}, AllSpelled arguments →
    Prints (", ".intercalate (displays arguments)).toList (argumentTokens arguments)
  | [], _ => Prints.nil
  | [only], spelled => by
      rw [displays, displays, argumentTokens]
      simpa using spelled.1.prints
  | first :: second :: others, spelled => by
      have later := AllSpelled.prints spelled.2
      rw [displays, displays, argumentTokens]
      rw [displays] at later
      rw [String.intercalate_cons_cons]
      have listed := spelled.1.prints.append (by decide) (prints_comma later)
      simpa using listed

end

/-! ### The tree of the text -/

theorem form_unplaced (expr : Expr) : expr.unplaced.form = expr.form :=
  form_relabel Token.unplaced expr

mutual

theorem Spelled.operand : ∀ {expr : Expr}, expr.Spelled → expr.NoNegatedCallee →
    Grammar.Operand expr.tokens expr.unplaced expr.need
  | .identifier name, _, _ =>
      .callable (.primary (.identifier ⟨.identifier, name, 0⟩ rfl))
  | .unary operator operand, spelled, plain =>
      .negation operator.unplaced spelled.1 (spelled.2.2.operand plain)
  | .binary operator lhs rhs, spelled, plain => by
      obtain ⟨joins, _, left, right⟩ := spelled
      have sentence := Grammar.Junction.junction operator.unplaced joins
        (.operand (left.operand plain.1)) (right.operand plain.2)
      have grouped := Grammar.Operand.callable (.primary
        (.group ⟨.leftParen, "(", 0⟩ ⟨.rightParen, ")", 0⟩ rfl rfl sentence))
      simpa [tokens, unplaced, relabel, need] using grouped
  | .call callee arguments, spelled, plain => by
      -- An operand that is no negation may be called; a negation would take the call into itself.
      have called : callee.unplaced.form ≠ .unary := by
        rw [form_unplaced]
        exact plain.1
      have first := (spelled.1.operand plain.2.1).callable_of_form called
      cases arguments with
      | nil =>
          have empty := Grammar.Operand.callable
            (.emptyCall ⟨.leftParen, "(", 0⟩ ⟨.rightParen, ")", 0⟩ rfl rfl first)
          simpa [tokens, argumentTokens, unplaced, relabel, relabels, need, argumentsNeed]
            using empty
      | cons argument others =>
          obtain ⟨inner, second, needed⟩ :=
            spelled.2.arguments (List.cons_ne_nil argument others) plain.2.2
          have full := Grammar.Operand.callable
            (.call ⟨.leftParen, "(", 0⟩ ⟨.rightParen, ")", 0⟩ rfl rfl first second)
          rw [← needed] at full
          exact full

theorem AllSpelled.arguments : ∀ {arguments : List Expr}, arguments ≠ [] → AllSpelled arguments →
    NoNegatedCallees arguments →
      ∃ inner, Grammar.Arguments (argumentTokens arguments) (relabels Token.unplaced arguments)
          inner ∧ argumentsNeed arguments = inner + 1
  | [], nonempty, _, _ => absurd rfl nonempty
  | [only], _, spelled, plain => by
      refine ⟨only.need, .last (spelled.1.operand plain.1), ?_⟩
      rw [argumentsNeed, argumentsNeed, Nat.max_zero]
  | first :: second :: others, _, spelled, plain => by
      obtain ⟨inner, later, needed⟩ := spelled.2.arguments (List.cons_ne_nil _ _) plain.2
      refine ⟨max first.need inner, ?_, ?_⟩
      · exact .more ⟨.comma, ",", 0⟩ rfl (spelled.1.operand plain.1) later
      · rw [argumentsNeed, needed]
        omega

end

/-! ### Reading the text -/

theorem keeps_unplaced : Token.Keeps Token.unplaced :=
  ⟨fun _ => rfl, fun _ _ => rfl⟩

/-- The text of an expression is read back, unless one of the limits stops the reader. -/
theorem Spelled.reread {expr : Expr} (spelled : expr.Spelled) (plain : expr.NoNegatedCallee) :
    (Expr.ofSource expr.display).map unplaced =
      if expr.need ≤ limit ∧ expr.height ≤ limit then .ok expr.unplaced
      else .error (.reading .tooDeep) := by
  obtain ⟨placed, read, same⟩ := spelled.prints.ofSource
  have inside := (Token.ofSource_iff_cover.mp read).inside
  have content : Token.content ((placed ++ [Token.atEnd expr.display.utf8ByteSize]).map
      Token.unplaced) = expr.tokens := by
    rw [content_map keeps_unplaced, Token.content_closed inside, same]
  -- The grammar speaks of tokens without places, the reader of those that it was given.
  have sentence : Grammar.Junction expr.tokens expr.unplaced expr.need :=
    .operand (spelled.operand plain)
  rw [← content] at sentence
  have answer := sentence.ofTokens
  rw [ofTokens_map keeps_unplaced, unplaced, height_relabel] at answer
  rw [Expr.ofSource, read]
  change ((ofTokens _).mapError CompilationError.reading).map (relabel Token.unplaced) = _
  rw [map_mapError, answer]
  split
  · rfl
  · rfl

end Expr

/-! ### Trees of sources -/

namespace Grammar

mutual

theorem Junction.spelled {tokens : List Token} {phrase : Expr} {need : Nat} :
    Junction tokens phrase need → (∀ token ∈ tokens, token.kind.Admits token.text) →
      phrase.Spelled
  | .operand content, admitted => content.spelled admitted
  | .junction operator joins first second, admitted => by
      have left := first.spelled fun token member => admitted token (by simp [member])
      have right := second.spelled fun token member => admitted token (by simp [member])
      exact ⟨joins, admitted operator (by simp), left, right⟩

theorem Operand.spelled {tokens : List Token} {phrase : Expr} {need : Nat} :
    Operand tokens phrase need → (∀ token ∈ tokens, token.kind.Admits token.text) →
      phrase.Spelled
  | .negation operator negates content, admitted => by
      have operand := content.spelled fun token member => admitted token (by simp [member])
      exact ⟨negates, admitted operator (by simp), operand⟩
  | .callable content, admitted => content.spelled admitted

theorem Callable.spelled {tokens : List Token} {phrase : Expr} {need : Nat} :
    Callable tokens phrase need → (∀ token ∈ tokens, token.kind.Admits token.text) →
      phrase.Spelled
  | .primary content, admitted => content.spelled admitted
  | .emptyCall opening closing _ _ first, admitted =>
      ⟨first.spelled fun token member => admitted token (by simp [member]), trivial⟩
  | .call opening closing _ _ first second, admitted =>
      ⟨first.spelled fun token member => admitted token (by simp [member]),
        second.spelled fun token member => admitted token (by simp [member])⟩

theorem Arguments.spelled {tokens : List Token} {arguments : List Expr} {need : Nat} :
    Arguments tokens arguments need → (∀ token ∈ tokens, token.kind.Admits token.text) →
      Expr.AllSpelled arguments
  | .last content, admitted => ⟨content.spelled admitted, trivial⟩
  | .more comma _ first second, admitted =>
      ⟨first.spelled fun token member => admitted token (by simp [member]),
        second.spelled fun token member => admitted token (by simp [member])⟩

theorem Primary.spelled {tokens : List Token} {phrase : Expr} {need : Nat} :
    Primary tokens phrase need → (∀ token ∈ tokens, token.kind.Admits token.text) →
      phrase.Spelled
  | .identifier token named, admitted => by
      have name := admitted token (List.mem_singleton_self token)
      rw [named] at name
      exact name
  | .group opening closing _ _ content, admitted =>
      content.spelled fun token member => admitted token (by simp [member])

end

end Grammar

theorem Expr.spelled_of_ofSource {source : String} {expr : Expr}
    (read : Expr.ofSource source = .ok expr) : expr.Spelled := by
  obtain ⟨tokens, lexed, parsed⟩ := ok_of_bind read
  obtain ⟨content, rfl, cover⟩ := Token.ofSource_ok (ok_of_mapError lexed)
  obtain ⟨need, sentence⟩ := Grammar.junction_of_ofTokens (ok_of_mapError parsed)
  rw [Token.content_closed cover.inside] at sentence
  exact sentence.spelled cover.admitted

end Permission
