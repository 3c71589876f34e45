import Permission.Proofs.Display
import Permission.Proofs.Lowering.Names
import Permission.Proofs.Storage.Compiled

/-!
# Where the names of a predicate come from

Every name in an expression is the text of an identifier that was read, and lowering keeps the names
as they are.  So a predicate lists, in increasing order and each one once, names of its expression
and no others, and all of them stand in the source.
-/

set_option autoImplicit false

namespace Permission

/-! ### The list of a predicate -/

namespace Predicate

theorem insertName_increasing {name : String} {names : List String}
    (increasing : names.Pairwise (· < ·)) : (insertName name names).Pairwise (· < ·) := by
  induction names with
  | nil => exact List.pairwise_singleton _ name
  | cons first others ih =>
      obtain ⟨least, later⟩ := List.pairwise_cons.mp increasing
      unfold insertName
      split
      · rename_i before
        refine List.pairwise_cons.mpr ⟨?_, increasing⟩
        intro other member
        rcases List.mem_cons.mp member with rfl | member
        · exact before
        · exact String.lt_trans before (least other member)
      · split
        · exact increasing
        · rename_i notBefore different
          refine List.pairwise_cons.mpr ⟨?_, ih later⟩
          intro other member
          rcases mem_insertName.mp member with rfl | member
          · apply Decidable.byContradiction
            intro notBehind
            exact different
              (String.le_antisymm (String.not_lt.mp notBehind) (String.not_lt.mp notBefore))
          · exact least other member

theorem permissions_increasing (predicate : Predicate) :
    predicate.permissions.Pairwise (· < ·) := by
  unfold permissions
  induction predicate.leaves with
  | nil => exact .nil
  | cons first others ih => exact insertName_increasing ih

end Predicate

/-! ### The names of a phrase -/

def Token.identifierTexts (tokens : List Token) : List String :=
  (tokens.filter fun token => token.kind = .identifier).map Token.text

namespace Grammar

open Permission.Expr
open Token (identifierTexts)

theorem identifierTexts_append (left right : List Token) :
    identifierTexts (left ++ right) = identifierTexts left ++ identifierTexts right := by
  rw [identifierTexts, List.filter_append, List.map_append]
  rfl

theorem identifierTexts_sublist {part tokens : List Token} (inside : part.Sublist tokens) :
    (identifierTexts part).Sublist (identifierTexts tokens) :=
  (inside.filter _).map _

theorem sublist_between {left right : List Token} {before after : List String} (token : Token)
    (first : before.Sublist (identifierTexts left))
    (second : after.Sublist (identifierTexts right)) :
    (before ++ after).Sublist (identifierTexts (left ++ token :: right)) := by
  rw [identifierTexts_append]
  exact first.append (second.trans (identifierTexts_sublist (List.sublist_cons_self token right)))

theorem enclosed_sublist (opening closing : Token) (inner : List Token) :
    inner.Sublist (opening :: (inner ++ [closing])) :=
  (List.sublist_append_left inner [closing]).cons opening

mutual

-- A callee is left out of the names, so they are a part of what the tokens name.

theorem Junction.names {tokens : List Token} {phrase : Expr} {need : Nat} :
    Junction tokens phrase need → phrase.names.Sublist (identifierTexts tokens)
  | .operand content => content.names
  | .junction operator _ first second => sublist_between operator first.names second.names

theorem Operand.names {tokens : List Token} {phrase : Expr} {need : Nat} :
    Operand tokens phrase need → phrase.names.Sublist (identifierTexts tokens)
  | .negation operator _ content =>
      content.names.trans (identifierTexts_sublist (List.sublist_cons_self operator _))
  | .callable content => content.names

theorem Callable.names {tokens : List Token} {phrase : Expr} {need : Nat} :
    Callable tokens phrase need → phrase.names.Sublist (identifierTexts tokens)
  | .primary content => content.names
  | .emptyCall _ _ _ _ _ => List.nil_sublist _
  | .call opening closing _ _ _ second =>
      second.names.trans (identifierTexts_sublist
        ((enclosed_sublist opening closing _).trans (List.sublist_append_right _ _)))

theorem Arguments.names {tokens : List Token} {arguments : List Expr} {need : Nat} :
    Arguments tokens arguments need →
      (argumentNames arguments).Sublist (identifierTexts tokens)
  | .last content => by
      rw [argumentNames, argumentNames, List.append_nil]
      exact content.names
  | .more comma _ first second => sublist_between comma first.names second.names

theorem Primary.names {tokens : List Token} {phrase : Expr} {need : Nat} :
    Primary tokens phrase need → phrase.names.Sublist (identifierTexts tokens)
  | .identifier token named => by
      rw [identifierTexts, List.filter_singleton, named]
      exact List.Sublist.refl _
  | .group opening closing _ _ content =>
      content.names.trans (identifierTexts_sublist (enclosed_sublist opening closing _))

end

end Grammar

namespace Expr

/-- The names of an expression that a source spells are texts of identifiers of the source. -/
theorem names_of_ofSource {source : String} {expr : Expr}
    (read : Expr.ofSource source = .ok expr) :
    ∃ tokens, Token.ofSource source = .ok tokens ∧
      expr.names.Sublist (Token.identifierTexts tokens) := by
  obtain ⟨tokens, lexed, parsed⟩ := ok_of_bind read
  obtain ⟨need, sentence⟩ := Grammar.junction_of_ofTokens (ok_of_mapError parsed)
  refine ⟨tokens, ok_of_mapError lexed, sentence.names.trans ?_⟩
  exact Grammar.identifierTexts_sublist (List.takeWhile_sublist _)

/-- Lowering neither loses a name nor brings one in: the leaves of the predicate hold the names of
the expression, each as often, and its permissions are these names in increasing order.  Those of a
source are texts of its identifiers. -/
theorem lower_keeps_names (predicate : Predicate) :
    (∀ expr : Expr, expr.lower = .ok predicate →
      predicate.leaves.Perm expr.names ∧ predicate.permissions.Pairwise (· < ·) ∧
        ∀ name, name ∈ predicate.permissions ↔ name ∈ expr.names) ∧
      ∀ source, compile source = .ok predicate → ∃ tokens, Token.ofSource source = .ok tokens ∧
        ∀ name ∈ predicate.permissions, ∃ token ∈ tokens,
          token.kind = .identifier ∧ token.text = name := by
  constructor
  · intro expr lowered
    have same := (lowers_of_lower expr lowered).names
    refine ⟨same, predicate.permissions_increasing, ?_⟩
    intro name
    exact Predicate.mem_permissions.trans same.mem_iff
  · intro source compiled
    obtain ⟨expr, read, lowered⟩ := compile_ok compiled
    obtain ⟨tokens, lexed, written⟩ := names_of_ofSource read
    have same := (lowers_of_lower expr lowered).names
    refine ⟨tokens, lexed, ?_⟩
    intro name member
    have named := same.mem_iff.mp (Predicate.mem_permissions.mp member)
    obtain ⟨token, listed, text⟩ := List.mem_map.mp (written.subset named)
    obtain ⟨within, kind⟩ := List.mem_filter.mp listed
    exact ⟨token, within, of_decide_eq_true kind, text⟩

/-- `Every(b, Not a, b)`: a compound argument between two names that are the same. -/
def repeatedName : Expr :=
  .call (.identifier "Every")
    [.identifier "b", .unary ⟨.not, "Not", 9⟩ (.identifier "a"), .identifier "b"]

theorem lower_keeps_names_repeatedName :
    repeatedName.lower = .ok (.and (.allOf ["b", "b"]) (.not (.has "a"))) ∧
      compile "Every(b, Not a, b)" = .ok (.and (.allOf ["b", "b"]) (.not (.has "a"))) ∧
        ["b", "b", "a"].Perm repeatedName.names ∧
          ∃ tokens, Token.ofSource "Every(b, Not a, b)" = .ok tokens ∧
            ∃ token ∈ tokens, token.kind = .identifier ∧ token.text = "a" := by
  have lowered : repeatedName.lower = .ok (.and (.allOf ["b", "b"]) (.not (.has "a"))) := rfl
  have tokens : Token.ofSource "Every(b, Not a, b)" =
      .ok [⟨.identifier, "Every", 0⟩, ⟨.leftParen, "(", 5⟩, ⟨.identifier, "b", 6⟩,
        ⟨.comma, ",", 7⟩, ⟨.not, "Not", 9⟩, ⟨.identifier, "a", 13⟩, ⟨.comma, ",", 14⟩,
        ⟨.identifier, "b", 16⟩, ⟨.rightParen, ")", 17⟩, Token.atEnd 18] :=
    Cursor.remaining_of_within 10 rfl
  have compiled : compile "Every(b, Not a, b)" =
      .ok (.and (.allOf ["b", "b"]) (.not (.has "a"))) := by
    rw [compile, Expr.ofSource, tokens]
    rfl
  have kept := lower_keeps_names (.and (.allOf ["b", "b"]) (.not (.has "a")))
  obtain ⟨read, lexed, written⟩ := kept.2 _ compiled
  have needed : "a" ∈ (Predicate.and (.allOf ["b", "b"]) (.not (.has "a"))).permissions := by
    decide
  exact ⟨lowered, compiled, (kept.1 _ lowered).1, read, lexed, written "a" needed⟩

end Expr
end Permission
