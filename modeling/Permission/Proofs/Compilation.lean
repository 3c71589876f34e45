import Mathlib.Data.List.Forall2
import Permission.Compilation
import Permission.Proofs.Attempts
import Permission.Proofs.Grammar.Relabelling
import Permission.Proofs.Tokens

/-!
# What compiling sees of a source

Of a token only its kind counts, and its text if it is an identifier.  How an operator is spelled
and where it stands decides neither how a source is read nor what it compiles to.  Main statement:
`compile_of_alike`.
-/

set_option autoImplicit false

namespace Permission

/-- Both attempts give related values, or both fail with the same error. -/
inductive SameOutcome {Error Value : Type} (related : Value → Value → Prop) :
    Except Error Value → Except Error Value → Prop where
  | ok {left right : Value} (values : related left right) :
      SameOutcome related (.ok left) (.ok right)
  | error (fault : Error) : SameOutcome related (.error fault) (.error fault)

namespace Token

/-- Tokens of one kind, and of one text if they are identifiers. -/
structure Alike (left right : Token) : Prop where
  kind : left.kind = right.kind
  name : left.kind = .identifier → left.text = right.text

/-- A token without its place, and without its text unless it is an identifier. -/
def essence (token : Token) : Token where
  kind := token.kind
  text := if token.kind = .identifier then token.text else ""
  offset := 0

theorem keeps_essence : Keeps essence where
  kind := fun _ => rfl
  name := fun _ named => if_pos named

theorem Alike.essence_eq {left right : Token} (alike : Alike left right) :
    left.essence = right.essence := by
  unfold essence
  rw [← alike.kind]
  by_cases named : left.kind = .identifier
  · rw [if_pos named, if_pos named, alike.name named]
  · rw [if_neg named, if_neg named]

theorem map_essence_eq {tokens tokens' : List Token} (alike : List.Forall₂ Alike tokens tokens') :
    tokens.map essence = tokens'.map essence := by
  induction alike with
  | nil => rfl
  | cons here _ ih => rw [List.map_cons, List.map_cons, here.essence_eq, ih]

end Token

namespace Expr

mutual

/-- Trees that are the same but for the texts and the places of their operators. -/
inductive Alike : Expr → Expr → Prop where
  | identifier (name : String) : Alike (.identifier name) (.identifier name)
  | unary {operator operator' : Token} {operand operand' : Expr}
      (kind : operator.kind = operator'.kind) (content : Alike operand operand') :
      Alike (.unary operator operand) (.unary operator' operand')
  | binary {operator operator' : Token} {lhs lhs' rhs rhs' : Expr}
      (kind : operator.kind = operator'.kind) (first : Alike lhs lhs') (second : Alike rhs rhs') :
      Alike (.binary operator lhs rhs) (.binary operator' lhs' rhs')
  | call {callee callee' : Expr} {arguments arguments' : List Expr}
      (called : Alike callee callee') (content : AllAlike arguments arguments') :
      Alike (.call callee arguments) (.call callee' arguments')

inductive AllAlike : List Expr → List Expr → Prop where
  | nil : AllAlike [] []
  | cons {first first' : Expr} {others others' : List Expr} (here : Alike first first')
      (later : AllAlike others others') : AllAlike (first :: others) (first' :: others')

end

theorem kind_eq_of_change {change : Token → Token} (keeps : Token.Keeps change)
    {left right : Token} (same : change left = change right) : left.kind = right.kind := by
  rw [← keeps.kind left, same, keeps.kind right]

mutual

theorem alike_of_relabel {change : Token → Token} (keeps : Token.Keeps change) :
    ∀ {left right : Expr}, left.relabel change = right.relabel change → Alike left right
  | .identifier name, right, same => by
      cases right <;> cases same
      exact .identifier name
  | .unary operator operand, right, same => by
      cases right with
      | unary operator' operand' =>
          injection same with operators operands
          exact .unary (kind_eq_of_change keeps operators) (alike_of_relabel keeps operands)
      | _ => cases same
  | .binary operator lhs rhs, right, same => by
      cases right with
      | binary operator' lhs' rhs' =>
          injection same with operators first second
          exact .binary (kind_eq_of_change keeps operators) (alike_of_relabel keeps first)
            (alike_of_relabel keeps second)
      | _ => cases same
  | .call callee arguments, right, same => by
      cases right with
      | call callee' arguments' =>
          injection same with callees listed
          exact .call (alike_of_relabel keeps callees) (allAlike_of_relabels keeps listed)
      | _ => cases same

theorem allAlike_of_relabels {change : Token → Token} (keeps : Token.Keeps change) :
    ∀ {left right : List Expr}, relabels change left = relabels change right → AllAlike left right
  | [], right, same => by
      cases right <;> cases same
      exact .nil
  | first :: others, right, same => by
      cases right with
      | nil => cases same
      | cons first' others' =>
          injection same with here later
          exact .cons (alike_of_relabel keeps here) (allAlike_of_relabels keeps later)

end

theorem sameOutcome_of_relabel {change : Token → Token} (keeps : Token.Keeps change)
    {Error : Type} {left right : Except Error Expr}
    (same : left.map (relabel change) = right.map (relabel change)) :
    SameOutcome Alike left right := by
  cases left with
  | error fault =>
      cases right <;> cases same
      exact .error fault
  | ok phrase =>
      cases right with
      | error fault => cases same
      | ok phrase' =>
          injection same with relabelled
          exact .ok (alike_of_relabel keeps relabelled)

theorem compile_relabelled {change : Token → Token} (keeps : Token.Keeps change)
    {source : String} {attempt : Except CompilationError Expr}
    (read : (ofSource source).map (relabel change) = attempt) :
    compile source = attempt.bind fun expr => expr.lower.mapError .lowering := by
  rw [← read, compile]
  cases ofSource source with
  | error fault => rfl
  | ok expr =>
      change expr.lower.mapError _ = (expr.relabel change).lower.mapError _
      rw [lower_relabel keeps]

end Expr

/-- Sources whose tokens are alike, one by one, compile to the same predicate or fail with the same
error, and they are read as alike trees or with the same error. -/
theorem compile_of_alike {source source' : String} {tokens tokens' : List Token}
    (read : Token.ofSource source = .ok tokens) (read' : Token.ofSource source' = .ok tokens')
    (alike : List.Forall₂ Token.Alike tokens tokens') :
    compile source = compile source' ∧
      SameOutcome Expr.Alike (Expr.ofTokens tokens) (Expr.ofTokens tokens') := by
  have keeps := Token.keeps_essence
  have trees : (Expr.ofTokens tokens).map (Expr.relabel Token.essence) =
      (Expr.ofTokens tokens').map (Expr.relabel Token.essence) := by
    rw [← Expr.ofTokens_map keeps, ← Expr.ofTokens_map keeps, Token.map_essence_eq alike]
  have sources : (Expr.ofSource source).map (Expr.relabel Token.essence) =
      (Expr.ofSource source').map (Expr.relabel Token.essence) := by
    rw [Expr.ofSource, Expr.ofSource, read, read']
    change ((Expr.ofTokens tokens).mapError _).map _ = ((Expr.ofTokens tokens').mapError _).map _
    rw [map_mapError, map_mapError, trees]
  constructor
  · calc compile source
        = ((Expr.ofSource source').map (Expr.relabel Token.essence)).bind
            fun expr => expr.lower.mapError .lowering := Expr.compile_relabelled keeps sources
      _ = compile source' := (Expr.compile_relabelled keeps rfl).symm
  · exact Expr.sameOutcome_of_relabel keeps trees

/-- Two spellings of one expression, with other blanks. -/
theorem compile_of_alike_spellings :
    Token.ofSource "a && !b" =
        .ok [⟨.identifier, "a", 0⟩, ⟨.and, "&&", 2⟩, ⟨.not, "!", 5⟩, ⟨.identifier, "b", 6⟩,
          Token.atEnd 7] ∧
      Token.ofSource "a And Not b" =
        .ok [⟨.identifier, "a", 0⟩, ⟨.and, "And", 2⟩, ⟨.not, "Not", 6⟩, ⟨.identifier, "b", 10⟩,
          Token.atEnd 11] ∧
      compile "a && !b" = compile "a And Not b" ∧
      SameOutcome Expr.Alike
        (Expr.ofTokens [⟨.identifier, "a", 0⟩, ⟨.and, "&&", 2⟩, ⟨.not, "!", 5⟩,
          ⟨.identifier, "b", 6⟩, Token.atEnd 7])
        (Expr.ofTokens [⟨.identifier, "a", 0⟩, ⟨.and, "And", 2⟩, ⟨.not, "Not", 6⟩,
          ⟨.identifier, "b", 10⟩, Token.atEnd 11]) := by
  have read : Token.ofSource "a && !b" =
      .ok [⟨.identifier, "a", 0⟩, ⟨.and, "&&", 2⟩, ⟨.not, "!", 5⟩, ⟨.identifier, "b", 6⟩,
        Token.atEnd 7] := Cursor.remaining_of_within 5 rfl
  have read' : Token.ofSource "a And Not b" =
      .ok [⟨.identifier, "a", 0⟩, ⟨.and, "And", 2⟩, ⟨.not, "Not", 6⟩, ⟨.identifier, "b", 10⟩,
        Token.atEnd 11] := Cursor.remaining_of_within 5 rfl
  have name (text : String) (offset offset' : Nat) :
      Token.Alike ⟨.identifier, text, offset⟩ ⟨.identifier, text, offset'⟩ := ⟨rfl, fun _ => rfl⟩
  have conjunction : Token.Alike ⟨.and, "&&", 2⟩ ⟨.and, "And", 2⟩ := ⟨rfl, nofun⟩
  have negation : Token.Alike ⟨.not, "!", 5⟩ ⟨.not, "Not", 6⟩ := ⟨rfl, nofun⟩
  have ending : Token.Alike (Token.atEnd 7) (Token.atEnd 11) := ⟨rfl, nofun⟩
  refine ⟨read, read', compile_of_alike read read' ?_⟩
  exact .cons (name "a" 0 0) (.cons conjunction (.cons negation
    (.cons (name "b" 6 10) (.cons ending .nil))))

end Permission
