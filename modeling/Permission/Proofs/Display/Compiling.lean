import Permission.Proofs.Display
import Permission.Proofs.Lowering.Nesting

/-!
# Compiling the text of a predicate

The text of a predicate is the text of an expression whose predicate it is: leaves are calls of the
built-ins and connectives are keywords.  So the text compiles to the predicate again, unless one
of the limits of the reader stops it; how deep the text nests is read off the predicate.
-/

set_option autoImplicit false

namespace Permission

/-- The text is read as one identifier, and that has the whole text. -/
def Token.ReadsAsName (name : String) : Prop :=
  ∃ offset length, Token.ofSource name = .ok [⟨.identifier, name, offset⟩, Token.atEnd length]

theorem Token.ReadsAsName.admitted {name : String} (alone : Token.ReadsAsName name) :
    Token.Kind.identifier.Admits name := by
  obtain ⟨offset, length, read⟩ := alone
  obtain ⟨content, whole, cover⟩ := Token.ofSource_ok read
  have only : content = [⟨.identifier, name, offset⟩] := by
    change [(⟨.identifier, name, offset⟩ : Token)] ++ [Token.atEnd length] = _ at whole
    exact (List.append_inj' whole rfl).1.symm
  exact cover.admitted ⟨.identifier, name, offset⟩ (by simp [only])

namespace Predicate

/-- The number of phrases that are open at once while the text of the predicate is read. -/
def displayNeed : Predicate → Nat
  | .has _ => 2
  | .anyOf names => if names = [] then 1 else 2
  | .allOf names => if names = [] then 1 else 2
  | .not operand => 1 + operand.displayNeed
  | .and lhs rhs => max (1 + lhs.displayNeed) (2 + rhs.displayNeed)
  | .or lhs rhs => max (1 + lhs.displayNeed) (2 + rhs.displayNeed)

def displayHeight : Predicate → Nat
  | .has _ => 2
  | .anyOf _ => 2
  | .allOf _ => 2
  | .not operand => 1 + operand.displayHeight
  | .and lhs rhs => 1 + max lhs.displayHeight rhs.displayHeight
  | .or lhs rhs => 1 + max lhs.displayHeight rhs.displayHeight

def leafCall (callee : String) (names : List String) : Expr :=
  .call (.identifier callee) (names.map .identifier)

/-- The expression that the text of the predicate spells. -/
def toExpr : Predicate → Expr
  | .has name => leafCall "Has" [name]
  | .anyOf names => leafCall "Some" names
  | .allOf names => leafCall "Every" names
  | .and lhs rhs => .binary ⟨.and, "And", 0⟩ lhs.toExpr rhs.toExpr
  | .or lhs rhs => .binary ⟨.or, "Or", 0⟩ lhs.toExpr rhs.toExpr
  | .not operand => .unary ⟨.not, "Not", 0⟩ operand.toExpr

/-! ### Leaves -/

theorem displays_names (names : List String) :
    Expr.displays (names.map .identifier) = names := by
  induction names with
  | nil => rfl
  | cons name names ih => rw [List.map_cons, Expr.displays, Expr.display, ih]

theorem allSpelled_names {names : List String}
    (admitted : ∀ name ∈ names, Token.Kind.identifier.Admits name) :
    Expr.AllSpelled (names.map .identifier) := by
  induction names with
  | nil => trivial
  | cons name names ih =>
      obtain ⟨first, later⟩ := List.forall_mem_cons.mp admitted
      exact ⟨first, ih later⟩

theorem noNegatedCallees_names (names : List String) :
    Expr.NoNegatedCallees (names.map .identifier) := by
  induction names with
  | nil => trivial
  | cons name names ih => exact ⟨trivial, ih⟩

theorem argumentsNeed_names (names : List String) :
    Expr.argumentsNeed (names.map .identifier) = if names = [] then 0 else 2 := by
  induction names with
  | nil => rfl
  | cons name names ih =>
      rw [List.map_cons, Expr.argumentsNeed, Expr.need, ih]
      split <;> rfl

theorem heights_names (names : List String) :
    Expr.heights (names.map .identifier) ≤ 1 := by
  induction names with
  | nil => exact Nat.zero_le 1
  | cons name names ih =>
      rw [List.map_cons, Expr.heights, Expr.height]
      omega

theorem lowerCompound_names (names : List String) :
    Expr.lowerCompound (names.map .identifier) = .ok [] := by
  induction names with
  | nil => rfl
  | cons name names ih => rw [List.map_cons, Expr.lowerCompound, ih]

theorem filterMap_names (names : List String) :
    (names.map Expr.identifier).filterMap Expr.identifier? = names := by
  induction names with
  | nil => rfl
  | cons name names ih =>
      have first : (Expr.identifier name).identifier? = some name := rfl
      rw [List.map_cons, List.filterMap_cons_some first, ih]

theorem need_leafCall (callee : String) (names : List String) :
    (leafCall callee names).need = if names = [] then 1 else 2 := by
  rw [leafCall, Expr.need, Expr.need, argumentsNeed_names]
  split <;> rfl

theorem height_leafCall (callee : String) (names : List String) :
    (leafCall callee names).height = 2 := by
  have low := heights_names names
  rw [leafCall, Expr.height, Expr.height]
  omega

theorem display_leafCall (callee : String) (names : List String) :
    (leafCall callee names).display = callee ++ "(" ++ ", ".intercalate names ++ ")" := by
  rw [leafCall, Expr.display, Expr.display, displays_names]

theorem joinLeaf_nil (leaf : List String → Predicate) (join : Predicate → Predicate → Predicate)
    (names : List String) : Builtin.joinLeaf leaf join names [] = leaf names := by
  cases names <;> rfl

theorem lower_leafCall {callee : String} {builtin : Builtin} {names : List String}
    (named : Builtin.named? callee = some builtin) (single : builtin = .has → names.length = 1) :
    (leafCall callee names).lower = .ok (builtin.predicate names []) := by
  have noCalls : (names.map Expr.identifier).any (·.form = .call) = false := by
    simp [Expr.form]
  have counted : ¬ (builtin = .has ∧ (names.map Expr.identifier).length ≠ 1) := by
    rw [List.length_map]
    exact fun wrong => wrong.2 (single wrong.1)
  have checked : Expr.checkedCall (.identifier callee) (names.map .identifier) = .ok builtin := by
    rw [Expr.checkedCall, Expr.calledBuiltin_of_named named]
    simp only [bind, Except.bind, if_neg counted, noCalls]
    rfl
  rw [leafCall, Expr.lower, checked, lowerCompound_names, filterMap_names]
  rfl

/-! ### The expression of the text -/

theorem need_toExpr (predicate : Predicate) : predicate.toExpr.need = predicate.displayNeed := by
  induction predicate with
  | has name => rfl
  | anyOf names => exact need_leafCall "Some" names
  | allOf names => exact need_leafCall "Every" names
  | and lhs rhs left right | or lhs rhs left right =>
      rw [toExpr, Expr.need, left, right, displayNeed]
      omega
  | not operand ih =>
      rw [toExpr, Expr.need, ih, displayNeed]
      omega

theorem height_toExpr (predicate : Predicate) :
    predicate.toExpr.height = predicate.displayHeight := by
  induction predicate with
  | has name => rfl
  | anyOf names => exact height_leafCall "Some" names
  | allOf names => exact height_leafCall "Every" names
  | and lhs rhs left right | or lhs rhs left right =>
      rw [toExpr, Expr.height, left, right, displayHeight]
      omega
  | not operand ih =>
      rw [toExpr, Expr.height, ih, displayHeight]
      omega

theorem display_toExpr (predicate : Predicate) : predicate.toExpr.display = predicate.display := by
  induction predicate with
  | has name => exact display_leafCall "Has" [name]
  | anyOf names => exact display_leafCall "Some" names
  | allOf names => exact display_leafCall "Every" names
  | and lhs rhs left right =>
      have joined : " And " = " " ++ "And" ++ " " := by decide
      rw [toExpr, Expr.display, left, right, display, joined]
      simp only [String.append_assoc]
      rfl
  | or lhs rhs left right =>
      have joined : " Or " = " " ++ "Or" ++ " " := by decide
      rw [toExpr, Expr.display, left, right, display, joined]
      simp only [String.append_assoc]
      rfl
  | not operand ih =>
      have joined : "Not " = "Not" ++ " " := by decide
      rw [toExpr, Expr.display, ih, display, joined]
      rfl

theorem lower_toExpr (predicate : Predicate) : predicate.toExpr.lower = .ok predicate := by
  induction predicate with
  | has name =>
      have named : Builtin.named? "Has" = some .has := by decide
      exact lower_leafCall named fun _ => rfl
  | anyOf names =>
      have named : Builtin.named? "Some" = some .anyOf := by decide
      rw [toExpr, lower_leafCall named nofun, Builtin.predicate, joinLeaf_nil]
  | allOf names =>
      have named : Builtin.named? "Every" = some .allOf := by decide
      rw [toExpr, lower_leafCall named nofun, Builtin.predicate, joinLeaf_nil]
  | and lhs rhs left right | or lhs rhs left right =>
      rw [toExpr, Expr.lower, left, right]
      rfl
  | not operand ih =>
      rw [toExpr, Expr.lower, if_pos rfl, ih]
      rfl

theorem noNegatedCallee_toExpr (predicate : Predicate) : predicate.toExpr.NoNegatedCallee := by
  induction predicate with
  | has name => exact ⟨nofun, trivial, noNegatedCallees_names [name]⟩
  | anyOf names => exact ⟨nofun, trivial, noNegatedCallees_names names⟩
  | allOf names => exact ⟨nofun, trivial, noNegatedCallees_names names⟩
  | and lhs rhs left right | or lhs rhs left right => exact ⟨left, right⟩
  | not operand ih => exact ih

theorem spelled_toExpr (predicate : Predicate)
    (admitted : ∀ name ∈ predicate.leaves, Token.Kind.identifier.Admits name) :
    predicate.toExpr.Spelled := by
  induction predicate with
  | has name =>
      have callee : Token.ReadsAsName "Has" := ⟨0, 3, Cursor.remaining_of_within 2 rfl⟩
      exact ⟨callee.admitted, allSpelled_names admitted⟩
  | anyOf names =>
      have callee : Token.ReadsAsName "Some" := ⟨0, 4, Cursor.remaining_of_within 2 rfl⟩
      exact ⟨callee.admitted, allSpelled_names admitted⟩
  | allOf names =>
      have callee : Token.ReadsAsName "Every" := ⟨0, 5, Cursor.remaining_of_within 2 rfl⟩
      exact ⟨callee.admitted, allSpelled_names admitted⟩
  | and lhs rhs left right =>
      obtain ⟨first, second⟩ := List.forall_mem_append.mp admitted
      exact ⟨.inl rfl, .inl rfl, left first, right second⟩
  | or lhs rhs left right =>
      obtain ⟨first, second⟩ := List.forall_mem_append.mp admitted
      exact ⟨.inr rfl, .inl rfl, left first, right second⟩
  | not operand ih => exact ⟨rfl, .inl rfl, ih admitted⟩

theorem compile_eq_lower {source : String} {attempt : Except CompilationError Expr}
    (read : (Expr.ofSource source).map Expr.unplaced = attempt) :
    compile source = attempt.bind fun expr => expr.lower.mapError .lowering :=
  Expr.compile_relabelled Expr.keeps_unplaced read

/-- The text of a predicate compiles to the predicate, unless too many phrases are open at once in
it or its expression is too high. -/
theorem compile_display {predicate : Predicate}
    (named : ∀ name ∈ predicate.leaves, Token.ReadsAsName name) :
    compile predicate.display =
      if predicate.displayNeed ≤ 100 ∧ predicate.displayHeight ≤ 100 then .ok predicate
      else .error (.reading .tooDeep) := by
  have spelled := predicate.spelled_toExpr fun name member => (named name member).admitted
  have read := spelled.reread predicate.noNegatedCallee_toExpr
  rw [display_toExpr, need_toExpr, height_toExpr] at read
  rw [compile_eq_lower read]
  change Except.bind (if predicate.displayNeed ≤ 100 ∧ predicate.displayHeight ≤ 100 then _ else _)
    _ = _
  split
  · change predicate.toExpr.unplaced.lower.mapError _ = _
    rw [Expr.unplaced, Expr.lower_relabel Expr.keeps_unplaced, lower_toExpr]
    rfl
  · rfl

theorem compile_display_joined :
    (∀ name ∈ (Predicate.and (.has "a") (.not (.anyOf ["b", "c"]))).leaves,
        Token.ReadsAsName name) ∧
      compile (Predicate.and (.has "a") (.not (.anyOf ["b", "c"]))).display =
        if (Predicate.and (.has "a") (.not (.anyOf ["b", "c"]))).displayNeed ≤ 100 ∧
            (Predicate.and (.has "a") (.not (.anyOf ["b", "c"]))).displayHeight ≤ 100 then
          .ok (.and (.has "a") (.not (.anyOf ["b", "c"])))
        else .error (.reading .tooDeep) := by
  have named : ∀ name ∈ ["a", "b", "c"], Token.ReadsAsName name := by
    intro name member
    simp only [List.mem_cons, List.not_mem_nil, or_false] at member
    rcases member with rfl | rfl | rfl
    · exact ⟨0, 1, Cursor.remaining_of_within 2 rfl⟩
    · exact ⟨0, 1, Cursor.remaining_of_within 2 rfl⟩
    · exact ⟨0, 1, Cursor.remaining_of_within 2 rfl⟩
  exact ⟨named, compile_display named⟩

end Predicate
end Permission
