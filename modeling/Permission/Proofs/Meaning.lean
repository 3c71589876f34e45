import Permission.Predicate.Evaluation
import Permission.Proofs.Lowering

/-!
# The meaning of expressions

An expression holds or fails of the granted permissions by itself: names are looked up, operators
are the Boolean connectives, and a call joins the meanings of its arguments in their order.
Lowering sorts the arguments of a call into names and other predicates and may leave a leaf out;
its main statement here is that the decision stays the same.
-/

set_option autoImplicit false

namespace Permission
namespace Expr

def sameName (left right : String) : Bool :=
  left.toList.map Char.toLower == right.toList.map Char.toLower

mutual

/-- What an expression says about the granted permissions, where it says anything. -/
def meaning (granted : String → Bool) : Expr → Option Bool
  | .identifier name => some (granted name)
  | .unary operator operand =>
    match operator.kind, meaning granted operand with
    | .not, some value => some (!value)
    | _, _ => none
  | .binary operator lhs rhs =>
    match operator.kind, meaning granted lhs, meaning granted rhs with
    | .and, some left, some right => some (left && right)
    | .or, some left, some right => some (left || right)
    | _, _, _ => none
  | .call (.identifier name) arguments =>
    match meanings granted arguments with
    | none => none
    | some values =>
      if sameName name "has" then
        match values with
        | [value] => some value
        | _ => none
      else if sameName name "some" then some (values.any id)
      else if sameName name "every" then some (values.all id)
      else none
  | .call _ _ => none

/-- The meanings of arguments, none of which may be a call. -/
def meanings (granted : String → Bool) : List Expr → Option (List Bool)
  | [] => some []
  | .call _ _ :: _ => none
  | first :: others =>
    match meaning granted first, meanings granted others with
    | some value, some values => some (value :: values)
    | _, _ => none

end

end Expr

/-! ### Joining predicates -/

namespace Predicate

theorem holds_foldl_or (granted : String → Bool) (first : Predicate) (others : List Predicate) :
    holds granted (others.foldl .or first) = (holds granted first || others.any (holds granted)) := by
  induction others generalizing first with
  | nil => simp
  | cons next others ih => rw [List.foldl_cons, ih, holds_or, List.any_cons, Bool.or_assoc]

theorem holds_foldl_and (granted : String → Bool) (first : Predicate) (others : List Predicate) :
    holds granted (others.foldl .and first) =
      (holds granted first && others.all (holds granted)) := by
  induction others generalizing first with
  | nil => simp
  | cons next others ih => rw [List.foldl_cons, ih, holds_and, List.all_cons, Bool.and_assoc]

/-- An empty leaf of a disjunction holds of nothing, so leaving it out is no loss. -/
theorem holds_joinLeaf_or (granted : String → Bool) (names : List String)
    (others : List Predicate) :
    holds granted (Builtin.joinLeaf .anyOf .or names others) =
      (names.any granted || others.any (holds granted)) := by
  cases names with
  | nil =>
      cases others with
      | nil => simp [Builtin.joinLeaf]
      | cons first later => rw [Builtin.joinLeaf, holds_foldl_or, List.any_cons]; simp
  | cons name names =>
      rw [Builtin.joinLeaf, holds_foldl_or, holds_anyOf]
      intro first later absent
      cases absent

theorem holds_joinLeaf_and (granted : String → Bool) (names : List String)
    (others : List Predicate) :
    holds granted (Builtin.joinLeaf .allOf .and names others) =
      (names.all granted && others.all (holds granted)) := by
  cases names with
  | nil =>
      cases others with
      | nil => simp [Builtin.joinLeaf]
      | cons first later => rw [Builtin.joinLeaf, holds_foldl_and, List.all_cons]; simp
  | cons name names =>
      rw [Builtin.joinLeaf, holds_foldl_and, holds_allOf]
      intro first later absent
      cases absent

end Predicate

/-! ### Lowering -/

namespace Expr

open Predicate

theorem sameName_iff {name : String} {builtin : Builtin}
    (named : Builtin.named? name = some builtin) (other : Builtin) :
    sameName name other.name = true ↔ builtin = other := by
  have folded : name.toList.map Char.toLower = builtin.name.toList :=
    Builtin.fold_of_named named
  unfold sameName
  rw [folded]
  cases builtin <;> cases other <;> decide

/-- The meanings of the arguments of a call beside the names and the predicates that the arguments
were sorted into: as many, and as good to both ways of joining them. -/
structure Agree (granted : String → Bool) (values : List Bool) (names : List String)
    (others : List Predicate) : Prop where
  count : values.length = names.length + others.length
  any : values.any id = (names.any granted || others.any (holds granted))
  all : values.all id = (names.all granted && others.all (holds granted))

theorem Agree.empty (granted : String → Bool) : Agree granted [] [] [] :=
  { count := rfl, any := rfl, all := rfl }

theorem Agree.name {granted : String → Bool} {values : List Bool} {names : List String}
    {others : List Predicate} (agree : Agree granted values names others) (name : String) :
    Agree granted (granted name :: values) (name :: names) others := by
  constructor
  · rw [List.length_cons, List.length_cons, agree.count]
    omega
  · rw [List.any_cons, agree.any, List.any_cons, Bool.or_assoc]
    rfl
  · rw [List.all_cons, agree.all, List.all_cons, Bool.and_assoc]
    rfl

theorem Agree.other {granted : String → Bool} {values : List Bool} {names : List String}
    {others : List Predicate} (agree : Agree granted values names others)
    (predicate : Predicate) :
    Agree granted (holds granted predicate :: values) names (predicate :: others) := by
  constructor
  · rw [List.length_cons, List.length_cons, agree.count]
    omega
  · rw [List.any_cons, agree.any, List.any_cons, Bool.or_left_comm]
    rfl
  · rw [List.all_cons, agree.all, List.all_cons, Bool.and_left_comm]
    rfl

theorem Agree.single {granted : String → Bool} {values : List Bool} {names : List String}
    {others : List Predicate} (agree : Agree granted values names others)
    (one : values.length = 1) :
    values = [holds granted (Builtin.predicate .has names others)] := by
  obtain ⟨value, rfl⟩ := List.length_eq_one_iff.mp one
  have count := agree.count
  have any := agree.any
  rw [one] at count
  cases names with
  | nil =>
      obtain ⟨predicate, rfl⟩ :=
        List.length_eq_one_iff.mp (show others.length = 1 by simpa using count.symm)
      simpa [Builtin.predicate] using any
  | cons name names =>
      rw [List.length_cons] at count
      have noNames : names = [] := List.length_eq_zero_iff.mp (by omega)
      have noOthers : others = [] := List.length_eq_zero_iff.mp (by omega)
      subst noNames noOthers
      simpa [Builtin.predicate] using any

theorem meaning_call {granted : String → Bool} {name : String} {builtin : Builtin}
    {arguments : List Expr} {values : List Bool} {names : List String}
    {others : List Predicate} (named : Builtin.named? name = some builtin)
    (single : builtin = .has → values.length = 1)
    (known : meanings granted arguments = some values)
    (agree : Agree granted values names others) :
    meaning granted (.call (.identifier name) arguments) =
      some (holds granted (builtin.predicate names others)) := by
  have isHas := sameName_iff named .has
  have isAny := sameName_iff named .anyOf
  have isAll := sameName_iff named .allOf
  simp only [Builtin.name] at isHas isAny isAll
  rw [meaning, known]
  cases builtin with
  | has =>
      rw [agree.single (single rfl)]
      simp [isHas]
  | anyOf =>
      rw [Builtin.predicate, holds_joinLeaf_or, ← agree.any]
      simp [isHas, isAny]
  | allOf =>
      rw [Builtin.predicate, holds_joinLeaf_and, ← agree.all]
      simp [isHas, isAny, isAll]

mutual

-- Arguments are carried through as `Agree`: the predicate of a call has them sorted, and neither
-- way of joining them depends on their order.

theorem Lowers.meaning (granted : String → Bool) {expr : Expr} {predicate : Predicate} :
    Lowers expr predicate → expr.meaning granted = some (holds granted predicate)
  | .identifier _ => rfl
  | .unary negates content => by
      rw [Expr.meaning, negates, content.meaning granted, holds_not]
  | .conjunction joins first second => by
      rw [Expr.meaning, joins, first.meaning granted, second.meaning granted, holds_and]
  | .disjunction joins first second => by
      rw [Expr.meaning, joins, first.meaning granted, second.meaning granted, holds_or]
  | .call named single noCall content => by
      obtain ⟨values, known, count, agree⟩ := content.meanings granted noCall
      exact meaning_call named (fun isHas => count.trans (single isHas)) known agree

theorem LowersCompound.meanings (granted : String → Bool) {arguments : List Expr}
    {others : List Predicate} :
    LowersCompound arguments others → (∀ argument ∈ arguments, argument.form ≠ .call) →
      ∃ values, Expr.meanings granted arguments = some values ∧
        values.length = arguments.length ∧
          Agree granted values (arguments.filterMap identifier?) others
  | .nil, _ => ⟨[], rfl, rfl, .empty granted⟩
  | .name name later, noCall => by
      have noCalls := fun argument member => noCall argument (List.mem_cons_of_mem _ member)
      obtain ⟨values, known, count, agree⟩ := later.meanings granted noCalls
      refine ⟨granted name :: values, ?_, ?_, agree.name name⟩
      · rw [Expr.meanings, known]
        · rfl
        · intro callee inner impossible
          cases impossible
      · rw [List.length_cons, List.length_cons, count]
  | @LowersCompound.compound _ _ predicate _ noName here later, noCall => by
      have noCalls := fun argument member => noCall argument (List.mem_cons_of_mem _ member)
      obtain ⟨values, known, count, agree⟩ := later.meanings granted noCalls
      refine ⟨holds granted predicate :: values, ?_, ?_, ?_⟩
      · rw [Expr.meanings, here.meaning granted, known]
        intro callee inner same
        exact noCall _ List.mem_cons_self (by rw [same]; rfl)
      · rw [List.length_cons, List.length_cons, count]
      · rw [List.filterMap_cons_none (identifier?_of_form noName)]
        exact agree.other predicate

end

/-- Lowering keeps the meaning: what an expression that lowers says about the granted permissions
is what its predicate evaluates to. -/
theorem lower_keeps_meaning {expr : Expr} {predicate : Predicate}
    (lowered : expr.lower = .ok predicate) (granted : String → Bool) :
    meaning granted expr = some (predicate.evaluate granted).result :=
  (lowers_of_lower expr lowered).meaning granted

/-- `Every(Not b, a, (c And sOme(Not d)))`: a name between two other arguments, the second of which
holds a call without names. -/
def mixedCall : Expr :=
  .call (.identifier "Every")
    [.unary ⟨.not, "Not", 6⟩ (.identifier "b"), .identifier "a",
      .binary ⟨.and, "And", 19⟩ (.identifier "c")
        (.call (.identifier "sOme") [.unary ⟨.not, "Not", 28⟩ (.identifier "d")])]

theorem lower_keeps_meaning_mixedCall :
    mixedCall.lower =
        .ok (.and (.and (.allOf ["a"]) (.not (.has "b"))) (.and (.has "c") (.not (.has "d")))) ∧
      meaning (· != "d") mixedCall =
        some (Predicate.evaluate (· != "d")
          (.and (.and (.allOf ["a"]) (.not (.has "b")))
            (.and (.has "c") (.not (.has "d"))))).result :=
  ⟨rfl, lower_keeps_meaning rfl _⟩

end Expr
end Permission
