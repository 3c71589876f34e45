import Permission.Proofs.Display

/-!
# Calls of negations

The text of a tree shows no parentheses around a negation that is called, so it reads as the
negation of the call.  Regrouping moves every such call under the negations before it.  What the
text of a tree reads as is the regrouped tree, and this is the tree itself exactly if no callee is
a negation.
-/

set_option autoImplicit false

namespace Permission
namespace Expr

/-- A call that is made below the negations of its callee. -/
def callInside : Expr → List Expr → Expr
  | .unary operator operand, arguments => .unary operator (callInside operand arguments)
  | callee, arguments => .call callee arguments

mutual

/-- The tree with every call below the negations of its callee. -/
def regrouped : Expr → Expr
  | .identifier name => .identifier name
  | .unary operator operand => .unary operator operand.regrouped
  | .binary operator lhs rhs => .binary operator lhs.regrouped rhs.regrouped
  | .call callee arguments => callInside callee.regrouped (regroupeds arguments)

def regroupeds : List Expr → List Expr
  | [] => []
  | first :: others => first.regrouped :: regroupeds others

end

/-! ### The text stays -/

theorem display_callInside (callee : Expr) (arguments : List Expr) :
    (callInside callee arguments).display = (Expr.call callee arguments).display := by
  fun_induction callInside callee arguments with
  | case1 operator operand arguments ih =>
      rw [display, ih, display, display, display]
      simp only [String.append_assoc]
  | case2 callee arguments noNegation => rfl

mutual

theorem display_regrouped : ∀ expr : Expr, expr.regrouped.display = expr.display
  | .identifier name => rfl
  | .unary operator operand => by rw [regrouped, display, display, display_regrouped operand]
  | .binary operator lhs rhs => by
      rw [regrouped, display, display, display_regrouped lhs, display_regrouped rhs]
  | .call callee arguments => by
      rw [regrouped, display_callInside, display, display, display_regrouped callee,
        displays_regroupeds arguments]

theorem displays_regroupeds : ∀ arguments : List Expr,
    displays (regroupeds arguments) = displays arguments
  | [] => rfl
  | first :: others => by
      rw [regroupeds, displays, displays, display_regrouped first, displays_regroupeds others]

end

theorem Spelled.callInside {callee : Expr} {arguments : List Expr} (called : callee.Spelled)
    (spelled : AllSpelled arguments) : (callee.callInside arguments).Spelled := by
  fun_induction Expr.callInside callee arguments with
  | case1 operator operand arguments ih => exact ⟨called.1, called.2.1, ih called.2.2 spelled⟩
  | case2 callee arguments noNegation => exact ⟨called, spelled⟩

mutual

theorem Spelled.regrouped : ∀ {expr : Expr}, expr.Spelled → expr.regrouped.Spelled
  | .identifier _, spelled => spelled
  | .unary _ _, spelled => ⟨spelled.1, spelled.2.1, spelled.2.2.regrouped⟩
  | .binary _ _ _, spelled =>
      ⟨spelled.1, spelled.2.1, spelled.2.2.1.regrouped, spelled.2.2.2.regrouped⟩
  | .call _ _, spelled => spelled.1.regrouped.callInside spelled.2.regroupeds

theorem AllSpelled.regroupeds : ∀ {arguments : List Expr}, AllSpelled arguments →
    AllSpelled (regroupeds arguments)
  | [], _ => trivial
  | _ :: _, spelled => ⟨spelled.1.regrouped, spelled.2.regroupeds⟩

end

/-! ### No negation is called -/

theorem noNegatedCallee_callInside {callee : Expr} {arguments : List Expr}
    (called : callee.NoNegatedCallee) (plain : NoNegatedCallees arguments) :
    (callee.callInside arguments).NoNegatedCallee := by
  fun_induction callInside callee arguments with
  | case1 operator operand arguments ih => exact ih called plain
  | case2 callee arguments noNegation =>
      refine ⟨?_, called, plain⟩
      intro negation
      cases callee with
      | unary operator operand => exact noNegation operator operand rfl
      | _ => cases negation

mutual

theorem noNegatedCallee_regrouped : ∀ expr : Expr, expr.regrouped.NoNegatedCallee
  | .identifier _ => trivial
  | .unary _ operand => noNegatedCallee_regrouped operand
  | .binary _ lhs rhs => ⟨noNegatedCallee_regrouped lhs, noNegatedCallee_regrouped rhs⟩
  | .call callee arguments =>
      noNegatedCallee_callInside (noNegatedCallee_regrouped callee)
        (noNegatedCallees_regroupeds arguments)

theorem noNegatedCallees_regroupeds : ∀ arguments : List Expr,
    NoNegatedCallees (regroupeds arguments)
  | [] => trivial
  | first :: others => ⟨noNegatedCallee_regrouped first, noNegatedCallees_regroupeds others⟩

end

theorem callInside_of_form {callee : Expr} (noNegation : callee.form ≠ .unary)
    (arguments : List Expr) : callee.callInside arguments = .call callee arguments := by
  cases callee with
  | unary operator operand => exact absurd rfl noNegation
  | _ => rfl

mutual

theorem NoNegatedCallee.regrouped_eq : ∀ {expr : Expr}, expr.NoNegatedCallee →
    expr.regrouped = expr
  | .identifier name, _ => rfl
  | .unary operator operand, plain => by
      have same := NoNegatedCallee.regrouped_eq (show operand.NoNegatedCallee from plain)
      rw [regrouped, same]
  | .binary operator lhs rhs, plain => by
      rw [regrouped, plain.1.regrouped_eq, plain.2.regrouped_eq]
  | .call callee arguments, plain => by
      rw [regrouped, plain.2.1.regrouped_eq, plain.2.2.regroupeds_eq, callInside_of_form plain.1]

theorem NoNegatedCallees.regroupeds_eq : ∀ {arguments : List Expr}, NoNegatedCallees arguments →
    regroupeds arguments = arguments
  | [], _ => rfl
  | first :: others, plain => by
      rw [regroupeds, plain.1.regrouped_eq, plain.2.regroupeds_eq]

end

mutual

theorem noNegatedCallee_relabel (change : Token → Token) : ∀ expr : Expr,
    (expr.relabel change).NoNegatedCallee ↔ expr.NoNegatedCallee
  | .identifier _ => Iff.rfl
  | .unary _ operand => noNegatedCallee_relabel change operand
  | .binary _ lhs rhs =>
      and_congr (noNegatedCallee_relabel change lhs) (noNegatedCallee_relabel change rhs)
  | .call callee arguments => by
      rw [relabel, NoNegatedCallee, NoNegatedCallee, form_relabel,
        noNegatedCallee_relabel change callee, noNegatedCallees_relabels change arguments]

theorem noNegatedCallees_relabels (change : Token → Token) : ∀ arguments : List Expr,
    NoNegatedCallees (relabels change arguments) ↔ NoNegatedCallees arguments
  | [] => Iff.rfl
  | first :: others =>
      and_congr (noNegatedCallee_relabel change first) (noNegatedCallees_relabels change others)

end

theorem regrouped_unplaced_eq_iff {expr : Expr} :
    expr.regrouped.unplaced = expr.unplaced ↔ expr.NoNegatedCallee := by
  constructor
  · intro same
    have plain : expr.regrouped.unplaced.NoNegatedCallee :=
      (noNegatedCallee_relabel Token.unplaced _).mpr (noNegatedCallee_regrouped expr)
    rw [same] at plain
    exact (noNegatedCallee_relabel Token.unplaced expr).mp plain
  · intro plain
    rw [plain.regrouped_eq]

/-! ### Reading the text of a tree -/

theorem Spelled.reread_regrouped {expr : Expr} (spelled : expr.Spelled) :
    (Expr.ofSource expr.display).map unplaced =
      if expr.regrouped.need ≤ limit ∧ expr.regrouped.height ≤ limit then
        .ok expr.regrouped.unplaced
      else .error (.reading .tooDeep) := by
  rw [← display_regrouped]
  exact spelled.regrouped.reread (noNegatedCallee_regrouped expr)

/-- The text of a tree that was read from a source reads as the regrouped tree, up to the places of
operators, or is too deep.  That is the tree itself exactly if no callee is a negation. -/
theorem display_reads_regrouped {source : String} {expr : Expr}
    (read : Expr.ofSource source = .ok expr) :
    (Expr.ofSource expr.display).map unplaced =
        (if expr.regrouped.need ≤ 100 ∧ expr.regrouped.height ≤ 100 then
          .ok expr.regrouped.unplaced
        else .error (.reading .tooDeep)) ∧
      (expr.regrouped.unplaced = expr.unplaced ↔ expr.NoNegatedCallee) :=
  ⟨(spelled_of_ofSource read).reread_regrouped, regrouped_unplaced_eq_iff⟩

def negatedCall : Expr :=
  .call (.unary ⟨.not, "Not", 1⟩ (.identifier "a")) [.identifier "b"]

theorem ofSource_negatedCall : Expr.ofSource "(Not a)(b)" = .ok negatedCall := by
  have tokens : Token.ofSource "(Not a)(b)" =
      .ok [⟨.leftParen, "(", 0⟩, ⟨.not, "Not", 1⟩, ⟨.identifier, "a", 5⟩, ⟨.rightParen, ")", 6⟩,
        ⟨.leftParen, "(", 7⟩, ⟨.identifier, "b", 8⟩, ⟨.rightParen, ")", 9⟩, Token.atEnd 10] :=
    Cursor.remaining_of_within 8 rfl
  rw [Expr.ofSource, tokens]
  rfl

theorem ofSource_negatedCall_display : Expr.ofSource negatedCall.display =
    .ok (.unary ⟨.not, "Not", 0⟩ (.call (.identifier "a") [.identifier "b"])) := by
  have shown : negatedCall.display = "Not a(b)" := by decide
  have tokens : Token.ofSource "Not a(b)" =
      .ok [⟨.not, "Not", 0⟩, ⟨.identifier, "a", 4⟩, ⟨.leftParen, "(", 5⟩, ⟨.identifier, "b", 6⟩,
        ⟨.rightParen, ")", 7⟩, Token.atEnd 8] :=
    Cursor.remaining_of_within 6 rfl
  rw [shown, Expr.ofSource, tokens]
  rfl

theorem display_reads_regrouped_negatedCall :
    Expr.ofSource "(Not a)(b)" = .ok negatedCall ∧
      (Expr.ofSource negatedCall.display).map unplaced =
        (if negatedCall.regrouped.need ≤ 100 ∧ negatedCall.regrouped.height ≤ 100 then
          .ok negatedCall.regrouped.unplaced
        else .error (.reading .tooDeep)) ∧
      (negatedCall.regrouped.unplaced = negatedCall.unplaced ↔ negatedCall.NoNegatedCallee) :=
  ⟨ofSource_negatedCall, display_reads_regrouped ofSource_negatedCall⟩

/-- The text of the call of a negation reads as the negation of a call, another tree. -/
theorem negatedCall_not_reread : ∃ expr other,
    Expr.ofSource "(Not a)(b)" = .ok expr ∧ Expr.ofSource expr.display = .ok other ∧
      other.unplaced ≠ expr.unplaced := by
  refine ⟨negatedCall, _, ofSource_negatedCall, ofSource_negatedCall_display, ?_⟩
  intro same
  cases same

end Expr
end Permission
