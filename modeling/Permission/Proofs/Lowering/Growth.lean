import Permission.Proofs.Display.Sources

/-!
# How much lowering deepens an expression

A call joins its compound arguments in a chain, so each of them after the first can cost a level
that the expression does not have.  Nothing else does: the predicate of an expression nests at most
as deep as the expression is high, and as many levels more as its calls have compound arguments
after their first ones.
-/

set_option autoImplicit false

namespace Permission

namespace Builtin

/-- A chain of joins is as deep as its deepest part allows, and one level more for each join. -/
theorem foldl_joinNesting_le {start bound : Nat} {depths : List Nat} (first : start ≤ bound)
    (within : ∀ depth ∈ depths, depth ≤ bound) :
    depths.foldl joinNesting start ≤ bound + depths.length := by
  induction depths generalizing start bound with
  | nil => exact first
  | cons depth later ih =>
      obtain ⟨here, there⟩ := List.forall_mem_cons.mp within
      have joined : joinNesting start depth ≤ bound + 1 := by
        rw [joinNesting]
        omega
      have rest := ih joined fun other member => Nat.le_succ_of_le (there other member)
      rw [List.foldl_cons, List.length_cons]
      omega

/-- The predicate of a call nests one level deeper than its parts, and one level more for each
compound argument after the first.  A leaf with names counts as a part two levels deep. -/
theorem nesting_le (builtin : Builtin) (names : List String) {depths : List Nat} {bound : Nat}
    (positive : 1 ≤ bound) (compound : depths ≠ [] → 2 ≤ bound)
    (within : ∀ depth ∈ depths, depth ≤ bound) :
    builtin.nesting names depths ≤ bound + (depths.length - 1) + 1 := by
  unfold nesting
  split
  case h_1 => omega
  case h_2 depth later =>
    have here := within depth List.mem_cons_self
    omega
  case h_3 => omega
  case h_4 first later _ =>
    obtain ⟨here, there⟩ := List.forall_mem_cons.mp within
    have chain := foldl_joinNesting_le here there
    rw [List.length_cons]
    omega
  case h_5 =>
    cases depths with
    | nil =>
        change 2 ≤ _
        omega
    | cons depth later =>
        have chain := foldl_joinNesting_le (compound nofun) within
        rw [List.length_cons] at chain ⊢
        omega

end Builtin

namespace Expr

def compounds (arguments : List Expr) : List Expr :=
  arguments.filter fun argument => argument.form ≠ .identifier

mutual

/-- The arguments of each call in an expression, also of those in callees. -/
def calls : Expr → List (List Expr)
  | .identifier _ => []
  | .unary _ operand => operand.calls
  | .binary _ lhs rhs => lhs.calls ++ rhs.calls
  | .call callee arguments => arguments :: (callee.calls ++ argumentCalls arguments)

def argumentCalls : List Expr → List (List Expr)
  | [] => []
  | first :: others => first.calls ++ argumentCalls others

end

/-- How many compound arguments stand in the calls after the first of their call. -/
def crowding : List (List Expr) → Nat
  | [] => 0
  | arguments :: others => ((compounds arguments).length - 1) + crowding others

theorem crowding_append (left right : List (List Expr)) :
    crowding (left ++ right) = crowding left + crowding right := by
  induction left with
  | nil => exact (Nat.zero_add _).symm
  | cons arguments others ih => rw [List.cons_append, crowding, crowding, ih, Nat.add_assoc]

theorem height_pos (expr : Expr) : 1 ≤ expr.height := by
  cases expr with
  | identifier name => exact Nat.le_refl 1
  | _ => exact Nat.le_add_left 1 _

theorem compound_height {expr : Expr} (noName : expr.form ≠ .identifier) : 2 ≤ expr.height := by
  cases expr with
  | identifier name => exact absurd rfl noName
  | unary operator operand => exact Nat.succ_le_succ operand.height_pos
  | binary operator lhs rhs =>
      have left := lhs.height_pos
      rw [height]
      omega
  | call callee arguments =>
      have called := callee.height_pos
      rw [height]
      omega

theorem length_compoundNestings (arguments : List Expr) :
    (compoundNestings arguments).length = (compounds arguments).length := by
  induction arguments with
  | nil => rfl
  | cons first others ih =>
      cases first with
      | identifier name => exact ih
      | _ => exact congrArg Nat.succ ih

theorem heights_compound {arguments : List Expr} (some : compoundNestings arguments ≠ []) :
    2 ≤ heights arguments := by
  have listed : compounds arguments ≠ [] := by
    intro empty
    rw [← List.length_eq_zero_iff, ← length_compoundNestings, List.length_eq_zero_iff] at empty
    exact some empty
  obtain ⟨argument, member⟩ := List.exists_mem_of_ne_nil _ listed
  obtain ⟨within, noName⟩ := List.mem_filter.mp member
  exact Nat.le_trans (compound_height (of_decide_eq_true noName))
    (Grammar.height_le_heights within)

theorem storedNesting_call_le {callee : Expr} {arguments : List Expr}
    (within : ∀ depth ∈ compoundNestings arguments,
      depth ≤ heights arguments + crowding (argumentCalls arguments)) :
    (Expr.call callee arguments).storedNesting ≤
      (Expr.call callee arguments).height + crowding (Expr.call callee arguments).calls := by
  rw [storedNesting]
  split
  · rename_i builtin _
    have called := callee.height_pos
    have compound : compoundNestings arguments ≠ [] →
        2 ≤ max callee.height (heights arguments) + crowding (argumentCalls arguments) := by
      intro some
      have high := heights_compound some
      omega
    have each : ∀ depth ∈ compoundNestings arguments,
        depth ≤ max callee.height (heights arguments) + crowding (argumentCalls arguments) := by
      intro depth member
      have deep := within depth member
      omega
    have joined := builtin.nesting_le (arguments.filterMap identifier?) (by omega) compound each
    rw [length_compoundNestings] at joined
    rw [height, calls, crowding, crowding_append]
    omega
  · exact Nat.zero_le _

theorem compoundNestings_cons_le {first : Expr} {others : List Expr}
    (noName : first.form ≠ .identifier)
    (here : first.storedNesting ≤ first.height + crowding first.calls)
    (later : ∀ depth ∈ compoundNestings others,
      depth ≤ heights others + crowding (argumentCalls others)) :
    ∀ depth ∈ compoundNestings (first :: others),
      depth ≤ heights (first :: others) + crowding (argumentCalls (first :: others)) := by
  intro depth member
  rw [heights, argumentCalls, crowding_append]
  rw [compoundNestings_compound noName] at member
  rcases List.mem_cons.mp member with same | behind
  · omega
  · have deep := later depth behind
    omega

mutual

theorem storedNesting_le : ∀ expr : Expr,
    expr.storedNesting ≤ expr.height + crowding expr.calls
  | .identifier _ => Nat.le_refl 1
  | .unary _ operand => by
      have inner := storedNesting_le operand
      rw [storedNesting, height, calls]
      omega
  | .binary _ lhs rhs => by
      have left := storedNesting_le lhs
      have right := storedNesting_le rhs
      rw [storedNesting, height, calls, crowding_append]
      omega
  | .call _ arguments => storedNesting_call_le (compoundNestings_le arguments)

theorem compoundNestings_le : ∀ arguments : List Expr, ∀ depth ∈ compoundNestings arguments,
    depth ≤ heights arguments + crowding (argumentCalls arguments)
  | [] => List.forall_mem_nil _
  | .identifier name :: others => by
      intro depth member
      have deep := compoundNestings_le others depth member
      rw [heights, argumentCalls, crowding_append]
      omega
  | .unary operator operand :: others =>
      compoundNestings_cons_le nofun (storedNesting_le (.unary operator operand))
        (compoundNestings_le others)
  | .binary operator lhs rhs :: others =>
      compoundNestings_cons_le nofun (storedNesting_le (.binary operator lhs rhs))
        (compoundNestings_le others)
  | .call callee arguments :: others =>
      compoundNestings_cons_le nofun (storedNesting_le (.call callee arguments))
        (compoundNestings_le others)

end

theorem crowding_eq_zero {calls : List (List Expr)}
    (uncrowded : ∀ arguments ∈ calls, (compounds arguments).length < 2) : crowding calls = 0 := by
  induction calls with
  | nil => rfl
  | cons first others ih =>
      obtain ⟨here, later⟩ := List.forall_mem_cons.mp uncrowded
      rw [crowding, ih later]
      omega

/-- The predicate of an expression nests at most as deep as the expression is high, and one level
more for each compound argument of a call after the first.  So the predicate of a source that has no
call with two compound arguments nests at most 100 deep, and its embedded form holds it. -/
theorem lower_nesting_bounded (predicate : Predicate) :
    (∀ expr : Expr, expr.lower = .ok predicate →
      predicate.nesting ≤ expr.height + crowding expr.calls) ∧
      ∀ source expr, Expr.ofSource source = .ok expr → compile source = .ok predicate →
        (∀ arguments ∈ expr.calls, (compounds arguments).length < 2) →
          predicate.nesting ≤ 100 ∧ Predicate.extract predicate.embed = .ok predicate := by
  have bounded : ∀ expr : Expr, expr.lower = .ok predicate →
      predicate.nesting ≤ expr.height + crowding expr.calls := by
    intro expr lowered
    rw [nesting_of_lower expr lowered]
    exact storedNesting_le expr
  refine ⟨bounded, ?_⟩
  intro source expr read compiled uncrowded
  obtain ⟨expr', read', lowered⟩ := compile_ok compiled
  cases read.symm.trans read'
  have growth := bounded expr lowered
  rw [crowding_eq_zero uncrowded] at growth
  have shallow : predicate.nesting ≤ 100 := Nat.le_trans growth (height_le_of_ofSource read)
  refine ⟨shallow, ?_⟩
  rw [Predicate.extract_embed, if_pos (Nat.le_trans shallow (by decide))]

/-- `Some(a, Not b, Not c)`: two compound arguments are joined to a leaf with names. -/
def chainedCall : Expr :=
  .call (.identifier "Some")
    [.identifier "a", .unary ⟨.not, "Not", 8⟩ (.identifier "b"),
      .unary ⟨.not, "Not", 15⟩ (.identifier "c")]

/-- The bound is reached; and a source whose one call has one compound argument. -/
theorem lower_nesting_bounded_chainedCall :
    chainedCall.lower = .ok (.or (.or (.anyOf ["a"]) (.not (.has "b"))) (.not (.has "c"))) ∧
      (Predicate.or (.or (.anyOf ["a"]) (.not (.has "b"))) (.not (.has "c"))).nesting = 4 ∧
      chainedCall.height + crowding chainedCall.calls = 4 ∧
      (Predicate.or (.or (.anyOf ["a"]) (.not (.has "b"))) (.not (.has "c"))).nesting ≤
        chainedCall.height + crowding chainedCall.calls ∧
      compile "Every(a, Not b)" = .ok (.and (.allOf ["a"]) (.not (.has "b"))) ∧
      (Predicate.and (.allOf ["a"]) (.not (.has "b"))).nesting ≤ 100 ∧
      Predicate.extract (Predicate.and (.allOf ["a"]) (.not (.has "b"))).embed =
        .ok (.and (.allOf ["a"]) (.not (.has "b"))) := by
  have lowered : chainedCall.lower =
      .ok (.or (.or (.anyOf ["a"]) (.not (.has "b"))) (.not (.has "c"))) := rfl
  have tokens : Token.ofSource "Every(a, Not b)" =
      .ok [⟨.identifier, "Every", 0⟩, ⟨.leftParen, "(", 5⟩, ⟨.identifier, "a", 6⟩,
        ⟨.comma, ",", 7⟩, ⟨.not, "Not", 9⟩, ⟨.identifier, "b", 13⟩, ⟨.rightParen, ")", 14⟩,
        Token.atEnd 15] :=
    Cursor.remaining_of_within 8 rfl
  have read : Expr.ofSource "Every(a, Not b)" = .ok (.call (.identifier "Every")
      [.identifier "a", .unary ⟨.not, "Not", 9⟩ (.identifier "b")]) := by
    rw [Expr.ofSource, tokens]
    rfl
  have compiled : compile "Every(a, Not b)" = .ok (.and (.allOf ["a"]) (.not (.has "b"))) := by
    rw [compile, read]
    rfl
  have shallow := (lower_nesting_bounded (.and (.allOf ["a"]) (.not (.has "b")))).2
    "Every(a, Not b)" _ read compiled (by simp [calls, argumentCalls, compounds, form])
  exact ⟨lowered, rfl, rfl, (lower_nesting_bounded _).1 chainedCall lowered, compiled, shallow⟩

end Expr
end Permission
