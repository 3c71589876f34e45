import Permission.Proofs.Lowering

/-!
# The first fault of an expression

Whether a node of an expression is faulty shows from the node and the forms of its arguments.
Lowering visits the nodes in order, a node before those below it and callees not at all, and its
main statement here is that it fails exactly when it comes to a faulty node, with the error of the
first one.
-/

set_option autoImplicit false

namespace Permission

/-! ### Names of built-ins -/

namespace Builtin

def IsNamed (builtin : Builtin) (text : String) : Prop :=
  fold text = fold builtin.name

/-- A text is a beginning of the name of the built-in, neither empty nor the whole name.  ASCII
case does not count. -/
def IsAbbreviated (builtin : Builtin) (text : String) : Prop :=
  text ≠ "" ∧ fold text <+: fold builtin.name ∧ fold text ≠ fold builtin.name

theorem fold_name (builtin : Builtin) : fold builtin.name = builtin.name.toList := by
  cases builtin <;> decide

theorem named?_eq_some_iff {text : String} {builtin : Builtin} :
    named? text = some builtin ↔ builtin.IsNamed text := by
  constructor
  · intro named
    rw [IsNamed, fold_of_named named, fold_name]
  · intro same
    rw [IsNamed, fold_name] at same
    rw [named?, same]
    cases builtin <;> decide

theorem named?_eq_none_iff {text : String} :
    named? text = none ↔ ∀ builtin : Builtin, ¬ builtin.IsNamed text := by
  rw [Option.eq_none_iff_forall_not_mem]
  exact forall_congr' fun builtin => not_congr named?_eq_some_iff

theorem fold_eq_nil {text : String} (empty : fold text = []) : text = "" := by
  simpa [fold] using empty

theorem eq_of_common_beginning {text : List Char} {left right : Builtin} (filled : text ≠ [])
    (first : text <+: left.name.toList) (second : text <+: right.name.toList) : left = right := by
  obtain ⟨_, first⟩ := first
  obtain ⟨_, second⟩ := second
  have common : left.name.toList.head? = right.name.toList.head? := by
    rw [← first, ← second, List.head?_append, List.head?_append]
    cases text with
    | nil => exact absurd rfl filled
    | cons letter text => rfl
  revert common
  cases left <;> cases right <;> decide

/-- One built-in at most begins with a text that is not empty, and then it is suggested. -/
theorem suggested?_eq_some_iff {text : String} {builtin : Builtin} :
    suggested? text = some builtin ↔ text ≠ "" ∧ fold text <+: fold builtin.name := by
  rw [fold_name]
  constructor
  · intro suggested
    unfold suggested? at suggested
    split at suggested
    · rename_i only found
      cases suggested
      have member : builtin ∈ [builtin] := List.mem_singleton_self builtin
      rw [← found] at member
      refine ⟨?_, List.isPrefixOf_iff_prefix.mp (List.mem_filter.mp member).2⟩
      rintro rfl
      revert found
      decide +revert
    · cases suggested
  · rintro ⟨filled, begins⟩
    have only : (fun other : Builtin => (fold text).isPrefixOf other.name.toList) =
        fun other => decide (other = builtin) := by
      funext other
      rw [Bool.eq_iff_iff, List.isPrefixOf_iff_prefix, decide_eq_true_iff]
      constructor
      · intro alsoBegins
        exact eq_of_common_beginning (mt fold_eq_nil filled) alsoBegins begins
      · rintro rfl
        exact begins
    unfold suggested?
    rw [only]
    cases builtin <;> rfl

theorem suggested?_eq_none {text : String} (unknown : ∀ known : Builtin, ¬ known.IsNamed text)
    (noBeginning : ∀ builtin : Builtin, ¬ builtin.IsAbbreviated text) :
    suggested? text = none := by
  rw [Option.eq_none_iff_forall_not_mem]
  intro builtin suggested
  obtain ⟨filled, begins⟩ := suggested?_eq_some_iff.mp suggested
  exact noBeginning builtin ⟨filled, begins, unknown builtin⟩

end Builtin

/-! ### Faulty nodes -/

namespace Expr

mutual

/-- The nodes that lowering visits: an expression before what stands below it, operands and
arguments from left to right, and no callees. -/
def nodes : Expr → List Expr
  | .identifier name => [.identifier name]
  | .unary operator operand => .unary operator operand :: operand.nodes
  | .binary operator lhs rhs => .binary operator lhs rhs :: (lhs.nodes ++ rhs.nodes)
  | .call callee arguments => .call callee arguments :: argumentNodes arguments

def argumentNodes : List Expr → List Expr
  | [] => []
  | first :: others => first.nodes ++ argumentNodes others

end

inductive CalleeFault : Expr → LoweringError → Prop
  | form {callee : Expr} (noName : callee.form ≠ .identifier) :
      CalleeFault callee (.expectedIdentifier callee.form)
  | abbreviation {name : String} {builtin : Builtin}
      (unknown : ∀ known : Builtin, ¬ known.IsNamed name) (begins : builtin.IsAbbreviated name) :
      CalleeFault (.identifier name) (.unknownCall name builtin)
  | name {name : String} (unknown : ∀ known : Builtin, ¬ known.IsNamed name)
      (noBeginning : ∀ builtin : Builtin, ¬ builtin.IsAbbreviated name) :
      CalleeFault (.identifier name) (.notImplemented name)

/-- A node is faulty by itself, and this is its error.  In a call the callee counts before the
number of the arguments, and their number before their forms. -/
inductive Fault : Expr → LoweringError → Prop
  | unaryOperator {operator : Token} {operand : Expr} (noNot : operator.kind ≠ .not) :
      Fault (.unary operator operand) (.unknownUnaryOperator operator.kind)
  | binaryOperator {operator : Token} {lhs rhs : Expr} (noAnd : operator.kind ≠ .and)
      (noOr : operator.kind ≠ .or) :
      Fault (.binary operator lhs rhs) (.invalidBinaryOperator operator.kind)
  | callee {callee : Expr} {arguments : List Expr} {error : LoweringError}
      (fault : CalleeFault callee error) : Fault (.call callee arguments) error
  | argumentCount {name : String} {arguments : List Expr} (isHas : Builtin.has.IsNamed name)
      (notOne : arguments.length ≠ 1) :
      Fault (.call (.identifier name) arguments) (.argumentCount arguments.length)
  | argumentForm {name : String} {builtin : Builtin} {arguments : List Expr} {argument : Expr}
      (named : builtin.IsNamed name) (single : builtin = .has → arguments.length = 1)
      (member : argument ∈ arguments) (isCall : argument.form = .call) :
      Fault (.call (.identifier name) arguments) .invalidArgument

theorem fault_unary_iff {operator : Token} {operand : Expr} {error : LoweringError} :
    Fault (.unary operator operand) error ↔
      operator.kind ≠ .not ∧ error = .unknownUnaryOperator operator.kind := by
  constructor
  · rintro ⟨noNot⟩
    exact ⟨noNot, rfl⟩
  · rintro ⟨noNot, rfl⟩
    exact .unaryOperator noNot

theorem fault_binary_iff {operator : Token} {lhs rhs : Expr} {error : LoweringError} :
    Fault (.binary operator lhs rhs) error ↔ connective operator = .error error := by
  constructor
  · rintro (_ | ⟨noAnd, noOr⟩)
    unfold connective
    cases kind : operator.kind <;> first | rfl | exact absurd kind noAnd | exact absurd kind noOr
  · intro failed
    unfold connective at failed
    cases kind : operator.kind <;> rw [kind] at failed <;> cases failed
    all_goals
      rw [← kind]
      exact .binaryOperator (by rw [kind]; decide) (by rw [kind]; decide)

theorem calleeFault_iff {callee : Expr} {error : LoweringError} :
    CalleeFault callee error ↔ calledBuiltin callee = .error error := by
  constructor
  · rintro (noName | ⟨unknown, begins⟩ | ⟨unknown, noBeginning⟩)
    · rw [calledBuiltin, identifier?_of_form noName]
    · have absent := Builtin.named?_eq_none_iff.mpr unknown
      have suggested := Builtin.suggested?_eq_some_iff.mpr ⟨begins.1, begins.2.1⟩
      simp only [calledBuiltin, identifier?, absent, suggested]
    · have absent := Builtin.named?_eq_none_iff.mpr unknown
      have noSuggestion := Builtin.suggested?_eq_none unknown noBeginning
      simp only [calledBuiltin, identifier?, absent, noSuggestion]
  · intro failed
    cases callee with
    | identifier name =>
        simp only [calledBuiltin, identifier?] at failed
        cases named : Builtin.named? name with
        | some builtin => rw [named] at failed; cases failed
        | none =>
            have unknown := Builtin.named?_eq_none_iff.mp named
            rw [named] at failed
            cases suggested : Builtin.suggested? name with
            | some builtin =>
                rw [suggested] at failed
                cases failed
                obtain ⟨filled, begins⟩ := Builtin.suggested?_eq_some_iff.mp suggested
                exact .abbreviation unknown ⟨filled, begins, unknown builtin⟩
            | none =>
                rw [suggested] at failed
                cases failed
                apply CalleeFault.name unknown
                rintro builtin ⟨filled, begins, _⟩
                rw [Builtin.suggested?_eq_some_iff.mpr ⟨filled, begins⟩] at suggested
                cases suggested
    | unary operator operand =>
        cases failed
        exact .form (by rintro ⟨⟩)
    | binary operator lhs rhs =>
        cases failed
        exact .form (by rintro ⟨⟩)
    | call callee arguments =>
        cases failed
        exact .form (by rintro ⟨⟩)

theorem fault_call_iff {callee : Expr} {arguments : List Expr} {error : LoweringError} :
    Fault (.call callee arguments) error ↔ checkedCall callee arguments = .error error := by
  constructor
  · rintro (_ | _ | fault | ⟨isHas, notOne⟩ | ⟨named, single, member, isCall⟩)
    · rw [checkedCall, calleeFault_iff.mp fault]
      rfl
    · rw [checkedCall, calledBuiltin_of_named (Builtin.named?_eq_some_iff.mpr isHas)]
      exact if_pos ⟨rfl, notOne⟩
    · rw [checkedCall, calledBuiltin_of_named (Builtin.named?_eq_some_iff.mpr named)]
      refine (if_neg fun ⟨isHas, notOne⟩ => notOne (single isHas)).trans (if_pos ?_)
      exact List.any_eq_true.mpr ⟨_, member, decide_eq_true isCall⟩
  · intro failed
    rw [checkedCall] at failed
    cases known : calledBuiltin callee with
    | error fault =>
        rw [known] at failed
        cases failed
        exact .callee (calleeFault_iff.mpr known)
    | ok builtin =>
        obtain ⟨name, rfl, named⟩ := calledBuiltin_ok known
        have isNamed := Builtin.named?_eq_some_iff.mp named
        rw [known] at failed
        change (if builtin = .has ∧ arguments.length ≠ 1 then _ else _) = _ at failed
        by_cases wrong : builtin = .has ∧ arguments.length ≠ 1
        · rw [if_pos wrong] at failed
          cases failed
          exact .argumentCount (wrong.1 ▸ isNamed) wrong.2
        · rw [if_neg wrong] at failed
          by_cases nested : arguments.any (·.form = .call) = true
          · rw [if_pos nested] at failed
            cases failed
            obtain ⟨argument, member, isCall⟩ := List.any_eq_true.mp nested
            refine .argumentForm isNamed ?_ member (of_decide_eq_true isCall)
            exact fun isHas => Decidable.not_not.mp fun notOne => wrong ⟨isHas, notOne⟩
          · rw [if_neg nested] at failed
            cases failed

theorem Fault.unique {node : Expr} {error other : LoweringError} (fault : Fault node error)
    (again : Fault node other) : error = other := by
  cases node with
  | identifier name => cases fault
  | unary operator operand =>
      exact (fault_unary_iff.mp fault).2.trans (fault_unary_iff.mp again).2.symm
  | binary operator lhs rhs =>
      exact Except.error.inj ((fault_binary_iff.mp fault).symm.trans (fault_binary_iff.mp again))
  | call callee arguments =>
      exact Except.error.inj ((fault_call_iff.mp fault).symm.trans (fault_call_iff.mp again))

/-! ### The first faulty node -/

def Sound (node : Expr) : Prop :=
  ∀ error, ¬ Fault node error

/-- The error is that of the first faulty node in a list. -/
def FirstFault (nodes : List Expr) (error : LoweringError) : Prop :=
  ∃ before node after, nodes = before ++ node :: after ∧
    (∀ earlier ∈ before, Sound earlier) ∧ Fault node error

theorem FirstFault.unique {nodes : List Expr} {error other : LoweringError}
    (first : FirstFault nodes error) (again : FirstFault nodes other) : error = other := by
  obtain ⟨before, node, after, rfl, sound, fault⟩ := first
  obtain ⟨before', node', after', same, sound', fault'⟩ := again
  -- Were one of the two places behind the other, its node would be among the sound ones there.
  rcases List.append_eq_append_iff.mp same with ⟨between, rfl, later⟩ | ⟨between, rfl, later⟩
  · cases between with
    | nil =>
        obtain ⟨rfl, _⟩ := List.cons.inj later
        exact fault.unique fault'
    | cons visited between =>
        obtain ⟨rfl, _⟩ := List.cons.inj later
        exact absurd fault (sound' node (by simp) error)
  · cases between with
    | nil =>
        obtain ⟨rfl, _⟩ := List.cons.inj later
        exact fault.unique fault'
    | cons visited between =>
        obtain ⟨rfl, _⟩ := List.cons.inj later
        exact absurd fault' (sound node' (by simp) other)

/-- A step visits the given nodes: it succeeds when all of them are sound, and else it fails with
the error of the first faulty one. -/
inductive Visits {Value : Type} (nodes : List Expr) : Except LoweringError Value → Prop
  | sound {value : Value} (all : ∀ node ∈ nodes, Sound node) : Visits nodes (.ok value)
  | faulty {error : LoweringError} (first : FirstFault nodes error) : Visits nodes (.error error)

theorem Visits.node {Value : Type} {node : Expr} {check : Except LoweringError Value}
    (exact : ∀ error, Fault node error ↔ check = .error error) : Visits [node] check := by
  cases result : check with
  | ok value =>
      refine .sound fun visited member error fault => ?_
      cases List.mem_singleton.mp member
      rw [(exact error).mp fault] at result
      cases result
  | error error => exact .faulty ⟨[], node, [], rfl, nofun, (exact error).mpr result⟩

theorem Visits.after {Value : Type} {nodes later : List Expr}
    {result : Except LoweringError Value} (all : ∀ node ∈ nodes, Sound node)
    (there : Visits later result) : Visits (nodes ++ later) result := by
  cases there with
  | sound allLater =>
      exact .sound fun node member => (List.mem_append.mp member).elim (all node) (allLater node)
  | faulty first =>
      obtain ⟨before, node, after, rfl, sound, fault⟩ := first
      refine .faulty ⟨nodes ++ before, node, after, (List.append_assoc ..).symm, ?_, fault⟩
      exact fun earlier member => (List.mem_append.mp member).elim (all earlier) (sound earlier)

theorem Visits.bind {Value Result : Type} {nodes later : List Expr}
    {first : Except LoweringError Value} {second : Value → Except LoweringError Result}
    (here : Visits nodes first) (there : ∀ value, Visits later (second value)) :
    Visits (nodes ++ later) (first >>= second) := by
  cases here with
  | @sound value all => exact (there value).after all
  | faulty first =>
      obtain ⟨before, node, after, rfl, sound, fault⟩ := first
      exact .faulty ⟨before, node, after ++ later, List.append_assoc .., sound, fault⟩

theorem Visits.map {Value Result : Type} {nodes : List Expr} {first : Except LoweringError Value}
    (here : Visits nodes first) (change : Value → Result) :
    Visits nodes (first >>= fun value => .ok (change value)) := by
  cases here with
  | sound all => exact .sound all
  | faulty first => exact .faulty first

theorem FirstFault.not_all_sound {nodes : List Expr} {error : LoweringError}
    (first : FirstFault nodes error) : ¬ ∀ node ∈ nodes, Sound node := by
  obtain ⟨before, node, after, rfl, _, fault⟩ := first
  intro all
  exact all node (by simp) error fault

theorem Visits.ok_iff {Value : Type} {nodes : List Expr} {result : Except LoweringError Value}
    (visited : Visits nodes result) :
    (∃ value, result = .ok value) ↔ ∀ node ∈ nodes, Sound node := by
  cases visited with
  | sound all => exact ⟨fun _ => all, fun _ => ⟨_, rfl⟩⟩
  | faulty first => exact ⟨nofun, fun all => absurd all first.not_all_sound⟩

theorem Visits.error_iff {Value : Type} {nodes : List Expr} {result : Except LoweringError Value}
    (visited : Visits nodes result) {error : LoweringError} :
    result = .error error ↔ FirstFault nodes error := by
  cases visited with
  | sound all => exact ⟨nofun, fun first => absurd all first.not_all_sound⟩
  | faulty first =>
      constructor
      · rintro ⟨⟩
        exact first
      · intro again
        rw [first.unique again]

theorem sound_identifier (name : String) : Sound (.identifier name) := by
  intro error fault
  cases fault

theorem lowerCompound_visits_cons {first : Expr} {others : List Expr}
    (noName : first.form ≠ .identifier) (here : Visits first.nodes first.lower)
    (later : Visits (argumentNodes others) (lowerCompound others)) :
    Visits (argumentNodes (first :: others)) (lowerCompound (first :: others)) := by
  rw [argumentNodes, lowerCompound_cons noName]
  exact here.bind fun predicate => later.map (predicate :: ·)

mutual

theorem lower_visits : ∀ expr : Expr, Visits expr.nodes expr.lower
  | .identifier name => .sound (List.forall_mem_singleton.mpr (sound_identifier name))
  | .unary operator operand => by
      rw [nodes, lower]
      by_cases negates : operator.kind = .not
      · rw [if_pos negates]
        have sound : Sound (.unary operator operand) :=
          fun _ fault => (fault_unary_iff.mp fault).1 negates
        exact ((lower_visits operand).map Predicate.not).after (List.forall_mem_singleton.mpr sound)
      · rw [if_neg negates]
        exact .faulty ⟨[], _, operand.nodes, rfl, nofun, .unaryOperator negates⟩
  | .binary operator lhs rhs => by
      rw [nodes, lower]
      have node : Visits [.binary operator lhs rhs] (connective operator) :=
        .node fun _ => fault_binary_iff
      exact node.bind fun join =>
        (lower_visits lhs).bind fun left => (lower_visits rhs).map (join left)
  | .call callee arguments => by
      rw [nodes, lower]
      have node : Visits [.call callee arguments] (checkedCall callee arguments) :=
        .node fun _ => fault_call_iff
      exact node.bind fun builtin =>
        (lowerCompound_visits arguments).map
          (builtin.predicate (arguments.filterMap identifier?))

theorem lowerCompound_visits : ∀ arguments : List Expr,
    Visits (argumentNodes arguments) (lowerCompound arguments)
  | [] => .sound nofun
  | .identifier name :: others => by
      rw [argumentNodes, lowerCompound]
      exact (lowerCompound_visits others).after
        (List.forall_mem_singleton.mpr (sound_identifier name))
  | .unary operator operand :: others =>
      lowerCompound_visits_cons nofun (lower_visits (.unary operator operand))
        (lowerCompound_visits others)
  | .binary operator lhs rhs :: others =>
      lowerCompound_visits_cons nofun (lower_visits (.binary operator lhs rhs))
        (lowerCompound_visits others)
  | .call callee inner :: others =>
      lowerCompound_visits_cons nofun (lower_visits (.call callee inner))
        (lowerCompound_visits others)

end

theorem lower_has_ok {name : String} {arguments : List Expr} {predicate : Predicate}
    (isHas : Builtin.has.IsNamed name)
    (lowered : (Expr.call (.identifier name) arguments).lower = .ok predicate) :
    ∃ argument, arguments = [argument] ∧ argument.lower = .ok predicate := by
  obtain ⟨_, builtin, others, same, named, single, _, compound, rfl⟩ := lower_call_ok lowered
  cases same
  obtain rfl : Builtin.has = builtin :=
    Option.some.inj ((Builtin.named?_eq_some_iff.mpr isHas).symm.trans named)
  obtain ⟨argument, rfl⟩ := List.length_eq_one_iff.mp (single rfl)
  refine ⟨argument, rfl, ?_⟩
  by_cases noName : argument.form = .identifier
  · cases argument with
    | identifier text => rfl
    | _ => cases noName
  · obtain ⟨inner, later, here, last, rfl⟩ := lowerCompound_cons_ok noName compound
    rw [List.filterMap_cons_none (identifier?_of_form noName), here]
    rfl

/-- Lowering succeeds exactly when no node is faulty, and it fails exactly with the error of the
first faulty node.  A call of `has` that it lowers stands for its one argument. -/
theorem lower_reports_first_fault (expr : Expr) :
    ((∃ predicate, expr.lower = .ok predicate) ↔
        ∀ node ∈ expr.nodes, ∀ error, ¬ Fault node error) ∧
      (∀ error, expr.lower = .error error ↔
        ∃ before node after, expr.nodes = before ++ node :: after ∧
          (∀ earlier ∈ before, ∀ other, ¬ Fault earlier other) ∧ Fault node error) ∧
        ∀ name arguments predicate, expr = .call (.identifier name) arguments →
          Builtin.has.IsNamed name → expr.lower = .ok predicate →
            ∃ argument, arguments = [argument] ∧ argument.lower = .ok predicate := by
  refine ⟨(lower_visits expr).ok_iff, fun error => (lower_visits expr).error_iff, ?_⟩
  rintro name arguments predicate rfl isHas lowered
  exact lower_has_ok isHas lowered

/-- `Some((a Or bad()), Has(x))`: the form of the second argument is checked before the first one is
lowered. -/
example :
    (Expr.call (.identifier "Some")
      [.binary ⟨.or, "Or", 8⟩ (.identifier "a") (.call (.identifier "bad") []),
        .call (.identifier "Has") [.identifier "x"]]).lower = .error .invalidArgument := by
  rfl

end Expr
end Permission
