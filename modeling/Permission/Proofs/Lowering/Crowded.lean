import Permission.Compilation
import Permission.Proofs.Grammar.Completeness
import Permission.Proofs.Lowering.Nesting
import Permission.Proofs.Tokens

/-!
# Calls with many compound arguments

A call of `some` with negated names for its arguments is three levels high, however many arguments
there are, and its predicate nests one level deeper with each of them.
-/

set_option autoImplicit false

namespace Permission

open Grammar (Operand Arguments Junction)

/-- The arguments of a call as they are written: one negated name, and so many more. -/
def crowdedArguments : Nat → List Char
  | 0 => ['!', 'a', ')']
  | count + 1 => '!' :: 'a' :: ',' :: crowdedArguments count

/-- `Some(!a)`, with so many further arguments `!a`. -/
def crowded (count : Nat) : String :=
  String.ofList ('S' :: 'o' :: 'm' :: 'e' :: '(' :: crowdedArguments count)

example : crowded 2 = "Some(!a,!a,!a)" := rfl

theorem remaining_negatedName {c : Char} (ends : c = ',' ∨ c = ')') (offset : Nat)
    (text : List Char) :
    (Cursor.remaining ⟨offset, '!' :: 'a' :: c :: text⟩).1 =
      (Cursor.remaining ⟨offset + 2, c :: text⟩).1.map fun tokens =>
        ⟨.not, "!", offset⟩ :: ⟨.identifier, "a", offset + 1⟩ :: tokens := by
  have operator : Cursor.next ⟨offset, '!' :: 'a' :: c :: text⟩ =
      (.ok (some ⟨.not, "!", offset⟩), ⟨offset + 1, 'a' :: c :: text⟩) := rfl
  have name : Cursor.next ⟨offset + 1, 'a' :: c :: text⟩ =
      (.ok (some ⟨.identifier, "a", offset + 1⟩), ⟨offset + 2, c :: text⟩) := by
    rcases ends with rfl | rfl
    · rfl
    · rfl
  rw [Cursor.remaining_next operator, Cursor.remaining_next name]
  cases (Cursor.remaining ⟨offset + 2, c :: text⟩).1 <;> rfl

def AllNegated (arguments : List Expr) : Prop :=
  ∀ argument ∈ arguments,
    ∃ operator : Token, operator.kind = .not ∧ argument = .unary operator (.identifier "a")

theorem AllNegated.heights {arguments : List Expr} (negated : AllNegated arguments) :
    Expr.heights arguments ≤ 2 := by
  induction arguments with
  | nil => exact Nat.zero_le 2
  | cons first others ih =>
      obtain ⟨operator, _, rfl⟩ := negated first List.mem_cons_self
      have later := ih fun argument member => negated argument (List.mem_cons_of_mem _ member)
      rw [Expr.heights, Expr.height, Expr.height]
      omega

theorem AllNegated.names {arguments : List Expr} (negated : AllNegated arguments) :
    arguments.filterMap Expr.identifier? = [] := by
  rw [List.filterMap_eq_nil_iff]
  intro argument member
  obtain ⟨operator, _, rfl⟩ := negated argument member
  rfl

theorem AllNegated.lowered {arguments : List Expr} (negated : AllNegated arguments) :
    Expr.lowerCompound arguments = .ok (List.replicate arguments.length (.not (.has "a"))) := by
  induction arguments with
  | nil => rfl
  | cons first others ih =>
      obtain ⟨operator, negates, rfl⟩ := negated first List.mem_cons_self
      have later := ih fun argument member => negated argument (List.mem_cons_of_mem _ member)
      have here : (Expr.unary operator (.identifier "a")).lower = .ok (.not (.has "a")) := by
        rw [Expr.lower, if_pos negates]
        rfl
      rw [Expr.lowerCompound, here, later]
      · rfl
      · intro name impossible
        cases impossible

/-- A token list with the trees of the arguments that it holds, each of them a negated name. -/
structure NegatedNames (tokens : List Token) (arguments : List Expr) : Prop where
  content : ∀ token ∈ tokens, token.kind ≠ .endOfInput
  spelled : Arguments tokens arguments 2
  negated : AllNegated arguments

theorem operand_negatedName (offset : Nat) :
    Operand [⟨.not, "!", offset⟩, ⟨.identifier, "a", offset + 1⟩]
      (.unary ⟨.not, "!", offset⟩ (.identifier "a")) 2 :=
  .negation _ rfl (.callable (.primary (.identifier ⟨.identifier, "a", offset + 1⟩ rfl)))

theorem NegatedNames.last (offset : Nat) :
    NegatedNames [⟨.not, "!", offset⟩, ⟨.identifier, "a", offset + 1⟩]
      [.unary ⟨.not, "!", offset⟩ (.identifier "a")] := by
  refine { content := by simp, spelled := .last (operand_negatedName offset), negated := ?_ }
  intro argument member
  rw [List.mem_singleton] at member
  exact ⟨_, rfl, member⟩

theorem NegatedNames.more {tokens : List Token} {arguments : List Expr}
    (others : NegatedNames tokens arguments) (offset : Nat) :
    NegatedNames
      (⟨.not, "!", offset⟩ :: ⟨.identifier, "a", offset + 1⟩ :: ⟨.comma, ",", offset + 2⟩ :: tokens)
      (.unary ⟨.not, "!", offset⟩ (.identifier "a") :: arguments) := by
  constructor
  · simpa using others.content
  · exact .more ⟨.comma, ",", offset + 2⟩ rfl (operand_negatedName offset) others.spelled
  · intro argument member
    rcases List.mem_cons.mp member with same | later
    · exact ⟨_, rfl, same⟩
    · exact others.negated argument later

theorem crowdedArguments_read (count offset : Nat) : ∃ tokens arguments last,
    (Cursor.remaining ⟨offset, crowdedArguments count⟩).1 =
        .ok (tokens ++ [⟨.rightParen, ")", last⟩, Token.atEnd (last + 1)]) ∧
      arguments.length = count + 1 ∧ NegatedNames tokens arguments := by
  induction count generalizing offset with
  | zero =>
      have closing : Cursor.next ⟨offset + 2, [')']⟩ =
          (.ok (some ⟨.rightParen, ")", offset + 2⟩), ⟨offset + 3, []⟩) := rfl
      have ended : Cursor.next ⟨offset + 3, []⟩ = (.ok none, ⟨offset + 3, []⟩) := rfl
      refine ⟨_, _, offset + 2, ?_, rfl, .last offset⟩
      rw [crowdedArguments, remaining_negatedName (.inr rfl), Cursor.remaining_next closing,
        Cursor.remaining_end ended]
      rfl
  | succ count ih =>
      obtain ⟨tokens, arguments, last, read, counted, others⟩ := ih (offset + 3)
      have comma : Cursor.next ⟨offset + 2, ',' :: crowdedArguments count⟩ =
          (.ok (some ⟨.comma, ",", offset + 2⟩), ⟨offset + 3, crowdedArguments count⟩) := rfl
      refine ⟨_, _, last, ?_, ?_, others.more offset⟩
      · rw [crowdedArguments, remaining_negatedName (.inl rfl), Cursor.remaining_next comma, read]
        rfl
      · rw [List.length_cons, counted]

theorem crowded_spelled (count : Nat) : ∃ arguments,
    Expr.ofSource (crowded count) = .ok (.call (.identifier "Some") arguments) ∧
      arguments.length = count + 1 ∧ AllNegated arguments := by
  obtain ⟨tokens, arguments, last, read, counted, names⟩ := crowdedArguments_read count 5
  refine ⟨arguments, ?_, counted, names.negated⟩
  let callee : Token := ⟨.identifier, "Some", 0⟩
  let opening : Token := ⟨.leftParen, "(", 4⟩
  let closing : Token := ⟨.rightParen, ")", last⟩
  let all := [callee] ++ opening :: (tokens ++ [closing])
  have tokenized : Token.ofSource (crowded count) = .ok (all ++ [Token.atEnd (last + 1)]) := by
    have name : (Cursor.start (crowded count)).next =
        (.ok (some callee), ⟨4, '(' :: crowdedArguments count⟩) := by
      rw [Cursor.start, crowded, String.toList_ofList]
      rfl
    have bracket : Cursor.next ⟨4, '(' :: crowdedArguments count⟩ =
        (.ok (some opening), ⟨5, crowdedArguments count⟩) := rfl
    rw [Token.ofSource, Cursor.remaining_next name, Cursor.remaining_next bracket, read]
    simp [Except.map, all, closing]
  have inside : ∀ token ∈ all, token.kind ≠ .endOfInput := by
    simpa [all, callee, opening, closing, forall_and, or_imp] using names.content
  have sentence : Junction all (.call (.identifier "Some") arguments) 3 :=
    .operand (.callable (.call opening closing rfl rfl (.primary (.identifier callee rfl))
      names.spelled))
  have low : (Expr.call (.identifier "Some") arguments).height ≤ Expr.limit := by
    have heights := AllNegated.heights names.negated
    rw [Expr.height, Expr.height, Expr.limit]
    omega
  have room : 3 ≤ Expr.limit := by decide
  rw [Expr.ofSource, tokenized]
  change (Expr.ofTokens (all ++ [Token.atEnd (last + 1)])).mapError _ = _
  rw [← Token.content_closed inside (last + 1)] at sentence
  rw [sentence.ofTokens, if_pos ⟨room, low⟩]
  rfl

/-- The predicate of a crowded call: a chain of disjunctions, one for each further argument. -/
def crowdedPredicate (count : Nat) : Predicate :=
  (List.replicate count (Predicate.not (.has "a"))).foldl .or (.not (.has "a"))

theorem compile_crowded (count : Nat) : compile (crowded count) = .ok (crowdedPredicate count) := by
  obtain ⟨arguments, spelled, counted, negated⟩ := crowded_spelled count
  have noCalls : arguments.any (fun argument => argument.form = .call) = false := by
    rw [List.any_eq_false]
    intro argument member
    obtain ⟨operator, _, rfl⟩ := negated argument member
    exact Bool.false_ne_true
  have checked : Expr.checkedCall (.identifier "Some") arguments = .ok .anyOf := by
    have called : Expr.calledBuiltin (.identifier "Some") = .ok .anyOf := rfl
    simp [Expr.checkedCall, called, bind, Except.bind, noCalls]
  have lowered : (Expr.call (.identifier "Some") arguments).lower =
      .ok (crowdedPredicate count) := by
    rw [Expr.lower, checked, negated.names, negated.lowered, counted]
    rfl
  rw [compile, spelled]
  change (Expr.lower _).mapError _ = _
  rw [lowered]
  rfl

theorem crowdedPredicate_nesting (count : Nat) : (crowdedPredicate count).nesting = count + 2 := by
  rw [crowdedPredicate, Builtin.foldl_nesting fun _ _ => rfl, List.map_replicate]
  change (List.replicate count 2).foldl Builtin.joinNesting 2 = count + 2
  have chain : ∀ depth, 2 ≤ depth →
      (List.replicate count 2).foldl Builtin.joinNesting depth = count + depth := by
    induction count with
    | zero =>
        intro depth _
        rw [List.replicate_zero, List.foldl_nil, Nat.zero_add]
    | succ count ih =>
        intro depth deep
        have joined : Builtin.joinNesting depth 2 = depth + 1 := by
          rw [Builtin.joinNesting]
          omega
        rw [List.replicate_succ, List.foldl_cons, joined, ih (depth + 1) (by omega)]
        omega
  exact chain 2 (Nat.le_refl 2)

end Permission
