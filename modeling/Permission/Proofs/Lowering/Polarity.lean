import Permission.Proofs.Lowering.Faults
import Permission.Proofs.Meaning

/-!
# Polarity of names

A name that stands under an even number of negations speaks for an expression when it is granted,
and one that stands under an odd number speaks against it.  The main statement here is that
lowering keeps this: granting more of the one kind and less of the other never takes a decision
back.
-/

set_option autoImplicit false

namespace Permission

namespace Builtin

open Predicate

theorem holds_predicate_mono {builtin : Builtin} {names : List String} {others : List Predicate}
    {before after : String → Bool}
    (kept : ∀ name ∈ names, before name = true → after name = true)
    (later : ∀ other ∈ others, holds before other = true → holds after other = true)
    (held : holds before (builtin.predicate names others) = true) :
    holds after (builtin.predicate names others) = true := by
  cases builtin with
  | has =>
      cases names with
      | cons name names => exact kept name List.mem_cons_self held
      | nil =>
          cases others with
          | cons operand others => exact later operand List.mem_cons_self held
          | nil => cases held
  | anyOf =>
      rw [predicate, holds_joinLeaf_or, Bool.or_eq_true, List.any_eq_true, List.any_eq_true]
        at held ⊢
      rcases held with ⟨name, member, granted⟩ | ⟨other, member, holds⟩
      · exact .inl ⟨name, member, kept name member granted⟩
      · exact .inr ⟨other, member, later other member holds⟩
  | allOf =>
      rw [predicate, holds_joinLeaf_and, Bool.and_eq_true, List.all_eq_true, List.all_eq_true]
        at held ⊢
      exact ⟨fun name member => kept name member (held.1 name member),
        fun other member => later other member (held.2 other member)⟩

end Builtin

namespace Expr

open Predicate

mutual

/-- The identifiers of an expression that are no callees, from left to right, each with the number
of negations that it stands under. -/
def occurrences : Expr → List (String × Nat)
  | .identifier name => [(name, 0)]
  | .unary operator operand =>
    if operator.kind = .not then
      operand.occurrences.map fun (name, depth) => (name, depth + 1)
    else
      operand.occurrences
  | .binary _ lhs rhs => lhs.occurrences ++ rhs.occurrences
  | .call _ arguments => argumentOccurrences arguments

def argumentOccurrences : List Expr → List (String × Nat)
  | [] => []
  | first :: others => first.occurrences ++ argumentOccurrences others

end

/-- Some occurrence of the name stands under an even number of negations. -/
def Positive (expr : Expr) (name : String) : Prop :=
  ∃ depth, (name, depth) ∈ expr.occurrences ∧ depth % 2 = 0

/-- Some occurrence of the name stands under an odd number of negations. -/
def Negative (expr : Expr) (name : String) : Prop :=
  ∃ depth, (name, depth) ∈ expr.occurrences ∧ depth % 2 = 1

/-- A change of the granted permissions goes in favour of the given occurrences: it takes none away
that speaks for them and adds none that speaks against them. -/
structure Favours (occurrences : List (String × Nat)) (before after : String → Bool) : Prop where
  positive : ∀ name depth, (name, depth) ∈ occurrences → depth % 2 = 0 →
    before name = true → after name = true
  negative : ∀ name depth, (name, depth) ∈ occurrences → depth % 2 = 1 →
    after name = true → before name = true

theorem Favours.part {whole part : List (String × Nat)} {before after : String → Bool}
    (favours : Favours whole before after) (inside : part ⊆ whole) : Favours part before after where
  positive name depth member := favours.positive name depth (inside member)
  negative name depth member := favours.negative name depth (inside member)

theorem Favours.negated {occurrences : List (String × Nat)} {before after : String → Bool}
    (favours : Favours (occurrences.map fun (name, depth) => (name, depth + 1)) before after) :
    Favours occurrences after before where
  positive name depth member even :=
    favours.negative name (depth + 1) (List.mem_map_of_mem member) (by omega)
  negative name depth member odd :=
    favours.positive name (depth + 1) (List.mem_map_of_mem member) (by omega)

mutual

-- The recursion is stated for any two grants: under a negation they change places.

theorem Lowers.monotone {expr : Expr} {predicate : Predicate} :
    Lowers expr predicate → ∀ before after : String → Bool,
      Favours expr.occurrences before after →
        holds before predicate = true → holds after predicate = true
  | .identifier name => fun _ _ favours granted =>
      favours.positive name 0 List.mem_cons_self rfl granted
  | @Lowers.unary _ _ inner negates content => by
      intro before after favours held
      rw [occurrences, if_pos negates] at favours
      rw [holds_not, Bool.not_eq_true'] at held ⊢
      cases reversed : holds after inner with
      | false => rfl
      | true =>
          have back := content.monotone after before favours.negated reversed
          rw [held] at back
          cases back
  | .conjunction _ first second => by
      intro before after favours held
      rw [holds_and, Bool.and_eq_true] at held ⊢
      exact ⟨first.monotone _ _ (favours.part (List.subset_append_left _ _)) held.1,
        second.monotone _ _ (favours.part (List.subset_append_right _ _)) held.2⟩
  | .disjunction _ first second => by
      intro before after favours held
      rw [holds_or, Bool.or_eq_true] at held ⊢
      exact held.imp (first.monotone _ _ (favours.part (List.subset_append_left _ _)))
        (second.monotone _ _ (favours.part (List.subset_append_right _ _)))
  | .call _ _ _ content => by
      intro before after favours held
      obtain ⟨kept, later⟩ := content.monotone _ _ favours
      exact Builtin.holds_predicate_mono kept later held

theorem LowersCompound.monotone {arguments : List Expr} {others : List Predicate} :
    LowersCompound arguments others → ∀ before after : String → Bool,
      Favours (argumentOccurrences arguments) before after →
        (∀ name ∈ arguments.filterMap identifier?, before name = true → after name = true) ∧
          ∀ other ∈ others, holds before other = true → holds after other = true
  | .nil => fun _ _ _ => ⟨nofun, nofun⟩
  | .name name later => by
      intro before after favours
      obtain ⟨kept, held⟩ := later.monotone _ _ (favours.part (List.subset_append_right _ _))
      have shown : (identifier name).identifier? = some name := rfl
      refine ⟨?_, held⟩
      rw [List.filterMap_cons_some shown, List.forall_mem_cons]
      exact ⟨favours.positive name 0 List.mem_cons_self rfl, kept⟩
  | .compound noName here later => by
      intro before after favours
      obtain ⟨kept, held⟩ := later.monotone _ _ (favours.part (List.subset_append_right _ _))
      rw [List.filterMap_cons_none (identifier?_of_form noName), List.forall_mem_cons]
      exact ⟨kept, here.monotone _ _ (favours.part (List.subset_append_left _ _)), held⟩

end

/-! ### Expressions without negations -/

mutual

theorem occurrences_depth : ∀ (expr : Expr), (∀ node ∈ expr.nodes, node.form ≠ .unary) →
    ∀ occurrence ∈ expr.occurrences, occurrence.2 = 0
  | .identifier name, _ => List.forall_mem_singleton.mpr rfl
  | .unary operator operand, noNegation => absurd rfl (noNegation _ List.mem_cons_self)
  | .binary operator lhs rhs, noNegation => by
      rw [nodes, List.forall_mem_cons, List.forall_mem_append] at noNegation
      rw [occurrences, List.forall_mem_append]
      exact ⟨occurrences_depth lhs noNegation.2.1, occurrences_depth rhs noNegation.2.2⟩
  | .call callee arguments, noNegation => by
      rw [nodes, List.forall_mem_cons] at noNegation
      exact argumentOccurrences_depth arguments noNegation.2

theorem argumentOccurrences_depth : ∀ (arguments : List Expr),
    (∀ node ∈ argumentNodes arguments, node.form ≠ .unary) →
      ∀ occurrence ∈ argumentOccurrences arguments, occurrence.2 = 0
  | [], _ => nofun
  | first :: others, noNegation => by
      rw [argumentNodes, List.forall_mem_append] at noNegation
      rw [argumentOccurrences, List.forall_mem_append]
      exact ⟨occurrences_depth first noNegation.1,
        argumentOccurrences_depth others noNegation.2⟩

end

/-- Granting is monotone by polarity: a decision in favour stands when no positive name is taken
away and no negative one is added.  Without negations it stands whenever nothing is taken away. -/
theorem lower_monotone_by_polarity {expr : Expr} {predicate : Predicate}
    (lowered : expr.lower = .ok predicate) (before after : String → Bool) :
    ((∀ name, expr.Positive name → before name = true → after name = true) →
      (∀ name, expr.Negative name → after name = true → before name = true) →
        (predicate.evaluate before).result = true →
          (predicate.evaluate after).result = true) ∧
      ((∀ node ∈ expr.nodes, node.form ≠ .unary) →
        (∀ name, before name = true → after name = true) →
          (predicate.evaluate before).result = true →
            (predicate.evaluate after).result = true) := by
  have monotone := (lowers_of_lower expr lowered).monotone before after
  constructor
  · intro positive negative
    apply monotone
    constructor
    · exact fun name depth member even => positive name ⟨depth, member, even⟩
    · exact fun name depth member odd => negative name ⟨depth, member, odd⟩
  · intro noNegation more
    apply monotone
    constructor
    · exact fun name _ _ _ => more name
    · intro name depth member odd
      have none : depth = 0 := occurrences_depth expr noNegation _ member
      omega

/-- `Some(a, Not (b And Not c))`: `a` and `c` are positive and `b` is negative. -/
def guardedAlternative : Expr :=
  .call (.identifier "Some")
    [.identifier "a",
      .unary ⟨.not, "Not", 8⟩
        (.binary ⟨.and, "And", 15⟩ (.identifier "b")
          (.unary ⟨.not, "Not", 19⟩ (.identifier "c")))]

/-- Taking `b` away leaves the decision in favour. -/
theorem lower_monotone_by_polarity_guardedAlternative :
    guardedAlternative.lower =
        .ok (.or (.anyOf ["a"]) (.not (.and (.has "b") (.not (.has "c"))))) ∧
      (∀ name, guardedAlternative.Positive name → ["b", "c"].contains name = true →
        ["c"].contains name = true) ∧
        (∀ name, guardedAlternative.Negative name → ["c"].contains name = true →
          ["b", "c"].contains name = true) ∧
          (Predicate.evaluate (["c"].contains ·)
            (.or (.anyOf ["a"]) (.not (.and (.has "b") (.not (.has "c")))))).result = true := by
  have lowered : guardedAlternative.lower =
      .ok (.or (.anyOf ["a"]) (.not (.and (.has "b") (.not (.has "c"))))) := rfl
  have kept : ∀ name, guardedAlternative.Positive name → ["b", "c"].contains name = true →
      ["c"].contains name = true := by
    rintro name ⟨depth, member, even⟩ granted
    have listed : (name, depth) ∈ [("a", 0), ("b", 1), ("c", 2)] := member
    simp only [List.mem_cons, Prod.mk.injEq, List.not_mem_nil, or_false] at listed
    rcases listed with ⟨rfl, rfl⟩ | ⟨rfl, rfl⟩ | ⟨rfl, rfl⟩
    · cases granted
    · cases even
    · rfl
  have none : ∀ name, guardedAlternative.Negative name → ["c"].contains name = true →
      ["b", "c"].contains name = true := by
    intro name _ granted
    simp only [List.contains_cons, List.contains_nil, Bool.or_false] at granted ⊢
    rw [granted, Bool.or_true]
  exact ⟨lowered, kept, none,
    (lower_monotone_by_polarity lowered _ _).1 kept none (by decide)⟩

end Expr
end Permission
