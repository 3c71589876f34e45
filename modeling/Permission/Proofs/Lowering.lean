import Permission.Expr.Lowering
import Permission.Proofs.Attempts

/-!
# What a successful lowering consists of

One statement for each form of expression: the checks that were passed, the predicates of the
parts, and how they make up the result.  Together they give a derivation, `Expr.Lowers`, and what
holds of every lowered expression is proved by recursion on it.
-/

set_option autoImplicit false

namespace Permission

theorem Builtin.fold_of_named {name : String} {builtin : Builtin}
    (named : Builtin.named? name = some builtin) : Builtin.fold name = builtin.name.toList := by
  have same := List.find?_some named
  exact (eq_of_beq same).symm

namespace Expr

theorem lower_unary_ok {operator : Token} {operand : Expr} {predicate : Predicate}
    (lowered : (Expr.unary operator operand).lower = .ok predicate) :
    operator.kind = .not ∧ ∃ inner, operand.lower = .ok inner ∧ predicate = .not inner := by
  rw [lower] at lowered
  by_cases negates : operator.kind = .not
  · rw [if_pos negates] at lowered
    obtain ⟨inner, below, same⟩ := ok_of_bind lowered
    cases same
    exact ⟨negates, inner, below, rfl⟩
  · rw [if_neg negates] at lowered
    cases lowered

theorem connective_ok {operator : Token} {join : Predicate → Predicate → Predicate}
    (known : connective operator = .ok join) :
    (operator.kind = .and ∧ join = .and) ∨ (operator.kind = .or ∧ join = .or) := by
  unfold connective at known
  cases kind : operator.kind <;> rw [kind] at known <;> cases known
  · exact .inl ⟨rfl, rfl⟩
  · exact .inr ⟨rfl, rfl⟩

theorem lower_binary_ok {operator : Token} {lhs rhs : Expr} {predicate : Predicate}
    (lowered : (Expr.binary operator lhs rhs).lower = .ok predicate) :
    ∃ left right, lhs.lower = .ok left ∧ rhs.lower = .ok right ∧
      ((operator.kind = .and ∧ predicate = .and left right) ∨
        (operator.kind = .or ∧ predicate = .or left right)) := by
  rw [lower] at lowered
  obtain ⟨join, known, lowered⟩ := ok_of_bind lowered
  obtain ⟨left, first, lowered⟩ := ok_of_bind lowered
  obtain ⟨right, second, same⟩ := ok_of_bind lowered
  cases same
  refine ⟨left, right, first, second, ?_⟩
  rcases connective_ok known with ⟨kind, rfl⟩ | ⟨kind, rfl⟩
  · exact .inl ⟨kind, rfl⟩
  · exact .inr ⟨kind, rfl⟩

theorem calledBuiltin_ok {callee : Expr} {builtin : Builtin}
    (known : calledBuiltin callee = .ok builtin) :
    ∃ name, callee = .identifier name ∧ Builtin.named? name = some builtin := by
  unfold calledBuiltin at known
  cases callee with
  | identifier name =>
      refine ⟨name, rfl, ?_⟩
      simp only [identifier?] at known
      cases named : Builtin.named? name with
      | some found =>
          rw [named] at known
          cases known
          rfl
      | none =>
          rw [named] at known
          cases suggested : Builtin.suggested? name <;> rw [suggested] at known <;> cases known
  | unary operator operand => cases known
  | binary operator lhs rhs => cases known
  | call callee arguments => cases known

theorem calledBuiltin_of_named {name : String} {builtin : Builtin}
    (named : Builtin.named? name = some builtin) :
    calledBuiltin (.identifier name) = .ok builtin := by
  rw [calledBuiltin, identifier?]
  simp only [named]

theorem checkedCall_ok {callee : Expr} {arguments : List Expr} {builtin : Builtin}
    (checked : checkedCall callee arguments = .ok builtin) :
    (∃ name, callee = .identifier name ∧ Builtin.named? name = some builtin) ∧
      (builtin = .has → arguments.length = 1) ∧
        ∀ argument ∈ arguments, argument.form ≠ .call := by
  obtain ⟨found, known, passed⟩ := ok_of_bind checked
  by_cases wrong : found = .has ∧ arguments.length ≠ 1
  · rw [if_pos wrong] at passed
    cases passed
  rw [if_neg wrong] at passed
  by_cases nested : arguments.any (·.form = .call)
  · rw [if_pos nested] at passed
    cases passed
  rw [if_neg nested] at passed
  cases passed
  refine ⟨calledBuiltin_ok known, ?_, ?_⟩
  · intro isHas
    exact Decidable.not_not.mp fun other => wrong ⟨isHas, other⟩
  · intro argument member isCall
    apply nested
    exact List.any_eq_true.mpr ⟨argument, member, decide_eq_true isCall⟩

theorem lower_call_ok {callee : Expr} {arguments : List Expr} {predicate : Predicate}
    (lowered : (Expr.call callee arguments).lower = .ok predicate) :
    ∃ name builtin others, callee = .identifier name ∧ Builtin.named? name = some builtin ∧
      (builtin = .has → arguments.length = 1) ∧
        (∀ argument ∈ arguments, argument.form ≠ .call) ∧
          lowerCompound arguments = .ok others ∧
            predicate = builtin.predicate (arguments.filterMap identifier?) others := by
  rw [lower] at lowered
  obtain ⟨builtin, checked, lowered⟩ := ok_of_bind lowered
  obtain ⟨others, compound, same⟩ := ok_of_bind lowered
  obtain ⟨⟨name, rfl, named⟩, single, noCall⟩ := checkedCall_ok checked
  cases same
  exact ⟨name, builtin, others, rfl, named, single, noCall, compound, rfl⟩

theorem lowerCompound_cons {first : Expr} (noName : first.form ≠ .identifier)
    (others : List Expr) :
    lowerCompound (first :: others) = do
      let predicate ← first.lower
      let predicates ← lowerCompound others
      return predicate :: predicates := by
  rw [lowerCompound]
  intro name same
  exact noName (by rw [same]; rfl)

theorem lowerCompound_cons_ok {first : Expr} {others : List Expr} {predicates : List Predicate}
    (noName : first.form ≠ .identifier)
    (lowered : lowerCompound (first :: others) = .ok predicates) :
    ∃ predicate later, first.lower = .ok predicate ∧ lowerCompound others = .ok later ∧
      predicates = predicate :: later := by
  rw [lowerCompound_cons noName] at lowered
  obtain ⟨predicate, here, lowered⟩ := ok_of_bind lowered
  obtain ⟨later, rest, same⟩ := ok_of_bind lowered
  cases same
  exact ⟨predicate, later, here, rest, rfl⟩

/-! ### Derivations -/

mutual

/-- An expression stands for a predicate. -/
inductive Lowers : Expr → Predicate → Prop
  | identifier (name : String) : Lowers (.identifier name) (.has name)
  | unary {operator : Token} {operand : Expr} {inner : Predicate} (negates : operator.kind = .not)
      (content : Lowers operand inner) : Lowers (.unary operator operand) (.not inner)
  | conjunction {operator : Token} {lhs rhs : Expr} {left right : Predicate}
      (joins : operator.kind = .and) (first : Lowers lhs left) (second : Lowers rhs right) :
      Lowers (.binary operator lhs rhs) (.and left right)
  | disjunction {operator : Token} {lhs rhs : Expr} {left right : Predicate}
      (joins : operator.kind = .or) (first : Lowers lhs left) (second : Lowers rhs right) :
      Lowers (.binary operator lhs rhs) (.or left right)
  | call {name : String} {builtin : Builtin} {arguments : List Expr} {others : List Predicate}
      (named : Builtin.named? name = some builtin)
      (single : builtin = .has → arguments.length = 1)
      (noCall : ∀ argument ∈ arguments, argument.form ≠ .call)
      (content : LowersCompound arguments others) :
      Lowers (.call (.identifier name) arguments)
        (builtin.predicate (arguments.filterMap identifier?) others)

/-- The arguments that are no plain names stand for predicates. -/
inductive LowersCompound : List Expr → List Predicate → Prop
  | nil : LowersCompound [] []
  | name (name : String) {arguments : List Expr} {others : List Predicate}
      (later : LowersCompound arguments others) :
      LowersCompound (.identifier name :: arguments) others
  | compound {first : Expr} {arguments : List Expr} {predicate : Predicate}
      {others : List Predicate} (noName : first.form ≠ .identifier) (here : Lowers first predicate)
      (later : LowersCompound arguments others) :
      LowersCompound (first :: arguments) (predicate :: others)

end

theorem lowersCompound_cons {first : Expr} {arguments : List Expr} {predicates : List Predicate}
    (noName : first.form ≠ .identifier)
    (lowered : lowerCompound (first :: arguments) = .ok predicates)
    (here : ∀ {predicate}, first.lower = .ok predicate → Lowers first predicate)
    (later : ∀ {others}, lowerCompound arguments = .ok others → LowersCompound arguments others) :
    LowersCompound (first :: arguments) predicates := by
  obtain ⟨predicate, others, below, rest, rfl⟩ := lowerCompound_cons_ok noName lowered
  exact .compound noName (here below) (later rest)

mutual

theorem lowers_of_lower : ∀ (expr : Expr) {predicate : Predicate},
    expr.lower = .ok predicate → Lowers expr predicate
  | .identifier name, _, lowered => by
      cases lowered
      exact .identifier name
  | .unary operator operand, _, lowered => by
      obtain ⟨negates, inner, below, rfl⟩ := lower_unary_ok lowered
      exact .unary negates (lowers_of_lower operand below)
  | .binary operator lhs rhs, _, lowered => by
      obtain ⟨left, right, first, second, joined⟩ := lower_binary_ok lowered
      have before := lowers_of_lower lhs first
      have after := lowers_of_lower rhs second
      rcases joined with ⟨kind, rfl⟩ | ⟨kind, rfl⟩
      · exact .conjunction kind before after
      · exact .disjunction kind before after
  | .call callee arguments, _, lowered => by
      obtain ⟨name, builtin, others, rfl, named, single, noCall, compound, rfl⟩ :=
        lower_call_ok lowered
      exact .call named single noCall (lowersCompound_of_lower arguments compound)

theorem lowersCompound_of_lower : ∀ (arguments : List Expr) {others : List Predicate},
    lowerCompound arguments = .ok others → LowersCompound arguments others
  | [], _, lowered => by
      cases lowered
      exact .nil
  | .identifier name :: arguments, _, lowered => by
      rw [lowerCompound] at lowered
      exact .name name (lowersCompound_of_lower arguments lowered)
  | .unary operator operand :: arguments, _, lowered =>
      lowersCompound_cons nofun lowered (lowers_of_lower (.unary operator operand))
        (lowersCompound_of_lower arguments)
  | .binary operator lhs rhs :: arguments, _, lowered =>
      lowersCompound_cons nofun lowered (lowers_of_lower (.binary operator lhs rhs))
        (lowersCompound_of_lower arguments)
  | .call callee inner :: arguments, _, lowered =>
      lowersCompound_cons nofun lowered (lowers_of_lower (.call callee inner))
        (lowersCompound_of_lower arguments)

end

theorem identifier?_of_form {expr : Expr} (compound : expr.form ≠ .identifier) :
    expr.identifier? = none := by
  cases expr with
  | identifier name => exact absurd rfl compound
  | _ => rfl

end Expr
end Permission
