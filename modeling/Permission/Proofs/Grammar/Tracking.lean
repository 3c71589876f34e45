import Permission.Expr.Parser
import Permission.Proofs.Grammar.Errors

/-!
# A parser beside a reader

A parser stands before the tokens of its list that are left up to the next end of input.  It tracks
a reader when it fails as the reader fails, with the same tokens left, and when what it returns
tells where the reader has come to.  The rules here follow the steps that a parser is put together
from; each of them leaves the place and the count of open phrases right, whether it fails or not.
-/

set_option autoImplicit false

namespace Permission
namespace Parser

open Permission.Expr
open Grammar (nextToken)

/-! ### The place of a parser -/

def skip (parser : Parser) (count : Nat) : Parser :=
  { parser with position := parser.position + count }

@[simp] theorem skip_skip (parser : Parser) (first second : Nat) :
    (parser.skip first).skip second = parser.skip (first + second) := by
  simp only [skip, Nat.add_assoc]

/-- The parser stands before the given tokens, with an end of input behind them.  No end of input
stands before it, and so many phrases are open. -/
structure Stands (parser : Parser) (depth : Nat) (unread : List Token) : Prop where
  depth_eq : parser.depth = depth
  ahead : ∃ last others, parser.tokens.drop parser.position = unread ++ last :: others ∧
    last.kind = .endOfInput
  unpassed : ∀ token ∈ parser.tokens.take parser.position, token.kind ≠ .endOfInput
  content : ∀ token ∈ unread, token.kind ≠ .endOfInput

section

variable {parser : Parser} {depth : Nat} {unread : List Token}

theorem Stands.skip {taken left : List Token} (stands : parser.Stands depth (taken ++ left)) :
    (parser.skip taken.length).Stands depth left := by
  obtain ⟨last, others, ahead, ends⟩ := stands.ahead
  refine ⟨stands.depth_eq, ⟨last, others, ?_, ends⟩, ?_, ?_⟩
  · rw [Parser.skip, ← List.drop_drop, ahead, List.append_assoc, List.drop_left]
  · intro token member
    rw [Parser.skip, List.take_add, ahead, List.append_assoc, List.take_left] at member
    rcases List.mem_append.mp member with before | among
    · exact stands.unpassed token before
    · exact stands.content token (List.mem_append_left left among)
  · exact fun token member => stands.content token (List.mem_append_right taken member)

theorem Stands.with_depth (stands : parser.Stands depth unread) (count : Nat) :
    { parser with depth := count }.Stands count unread :=
  ⟨rfl, stands.ahead, stands.unpassed, stands.content⟩

theorem Stands.length_lt (stands : parser.Stands depth unread) :
    parser.position + unread.length < parser.tokens.length := by
  obtain ⟨last, others, ahead, _⟩ := stands.ahead
  have counted := congrArg List.length ahead
  rw [List.length_drop, List.length_append, List.length_cons] at counted
  omega

theorem Stands.current (stands : parser.Stands depth unread) :
    ∃ token, Parser.current parser = some (.ok token, parser) ∧
      token.kind = (nextToken unread).kind ∧ ∀ first ∈ unread.head?, token = first := by
  obtain ⟨last, others, ahead, ends⟩ := stands.ahead
  have first : parser.tokens[parser.position]? = (unread ++ last :: others).head? := by
    rw [← ahead, List.head?_drop]
  unfold Parser.current
  rw [first]
  cases unread with
  | nil => exact ⟨last, rfl, ends, nofun⟩
  | cons token others => exact ⟨token, rfl, rfl, fun _ same => Option.some.inj same⟩

end

/-! ### Sequences -/

section

variable {Value Other : Type} {action : Parsing Value} {next : Value → Parsing Other}
  {parser after : Parser}

theorem bind_answer : (action >>= next) parser =
    (action parser).bind fun (result, after) => ExceptT.bindCont next result after := rfl

theorem bind_ok {value : Value} (answered : action parser = some (.ok value, after)) :
    (action >>= next) parser = next value after := by
  rw [bind_answer, answered]
  rfl

theorem bind_error {error : ReadingError}
    (answered : action parser = some (.error error, after)) :
    (action >>= next) parser = some (.error error, after) := by
  rw [bind_answer, answered]
  rfl

end

/-! ### Single tokens -/

section

variable {parser : Parser} {token : Token}

theorem advance_proper (looked : current parser = some (.ok token, parser))
    (proper : token.kind ≠ .endOfInput) : advance parser = some (.ok token, parser.skip 1) := by
  unfold advance
  rw [bind_ok looked]
  simp only [if_pos proper]
  rfl

theorem advance_atEnd (looked : current parser = some (.ok token, parser))
    (ends : token.kind = .endOfInput) : advance parser = some (.ok token, parser) := by
  unfold advance
  rw [bind_ok looked]
  simp only [if_neg (not_not_intro ends)]
  rfl

theorem expect_atEnd (looked : current parser = some (.ok token, parser))
    (ends : token.kind = .endOfInput) : expect .endOfInput parser = some (.ok token, parser) := by
  unfold expect
  rw [bind_ok looked, if_pos ends]
  exact advance_atEnd looked ends

theorem expect_other {wanted : Token.Kind} (looked : current parser = some (.ok token, parser))
    (other : token.kind ≠ wanted) :
    expect wanted parser = some (.error (.expected wanted token.kind), parser) := by
  unfold expect
  rw [bind_ok looked, if_neg other]
  rfl

end

/-! ### The rules -/

/-- The action has an answer wherever a parser stands before the given tokens.  It leaves the
parser before those that are left, where it fails as the whole does or returns something good. -/
def Tracks {Value : Type} (whole : Except ReadingError Expr × List Token)
    (action : Parsing Value) (depth : Nat) (unread : List Token)
    (good : Value → List Token → Prop) : Prop :=
  ∀ parser : Parser, parser.Stands depth unread →
    ∃ result taken left, unread = taken ++ left ∧
      action parser = some (result, parser.skip taken.length) ∧
      match result with
      | .ok value => good value left
      | .error error => whole = (.error error, left)

namespace Tracks

variable {Value Other : Type} {whole : Except ReadingError Expr × List Token} {depth : Nat}
  {unread : List Token} {good : Value → List Token → Prop} {better : Other → List Token → Prop}

theorem pure {value : Value} (here : good value unread) :
    Tracks whole (Pure.pure value) depth unread good :=
  fun _ _ => ⟨.ok value, [], unread, rfl, rfl, here⟩

theorem throw {error : ReadingError} (fails : whole = (.error error, unread)) :
    Tracks whole (MonadExcept.throw error) depth unread good :=
  fun _ _ => ⟨.error error, [], unread, rfl, rfl, fails⟩

theorem weaken {action : Parsing Value} {weaker : Value → List Token → Prop}
    (tracks : Tracks whole action depth unread good)
    (implied : ∀ value left, left.length ≤ unread.length → good value left → weaker value left) :
    Tracks whole action depth unread weaker := by
  intro parser stands
  obtain ⟨result, taken, left, rfl, answered, reached⟩ := tracks parser stands
  refine ⟨result, taken, left, rfl, answered, ?_⟩
  cases result with
  | error error => exact reached
  | ok value => exact implied value left (by simp) reached

theorem bind {action : Parsing Value} {next : Value → Parsing Other}
    (first : Tracks whole action depth unread good)
    (second : ∀ value left, left.length ≤ unread.length → good value left →
      Tracks whole (next value) depth left better) :
    Tracks whole (action >>= next) depth unread better := by
  intro parser stands
  obtain ⟨result, taken, left, rfl, started, reached⟩ := first parser stands
  cases result with
  | error error => exact ⟨.error error, taken, left, rfl, bind_error started, reached⟩
  | ok value =>
      have shorter : left.length ≤ (taken ++ left).length := by simp
      obtain ⟨result, more, left, rfl, answered, reached⟩ :=
        second value left shorter reached _ stands.skip
      refine ⟨result, taken ++ more, left, (List.append_assoc ..).symm, ?_, reached⟩
      rw [bind_ok started, answered, skip_skip, List.length_append]

theorem look {next : Token → Parsing Value}
    (goesOn : ∀ token, token.kind = (nextToken unread).kind →
      Tracks whole (next token) depth unread good) :
    Tracks whole (current >>= next) depth unread good := by
  intro parser stands
  obtain ⟨token, looked, kind, _⟩ := stands.current
  rw [bind_ok looked]
  exact goesOn token kind parser stands

theorem count {next : Parser → Parsing Value}
    (goesOn : ∀ parser : Parser, unread.length < parser.tokens.length →
      Tracks whole (next parser) depth unread good) :
    Tracks whole (get >>= next) depth unread good := by
  intro parser stands
  have fewer : unread.length < parser.tokens.length := by
    have within := stands.length_lt
    omega
  exact goesOn parser fewer parser stands

theorem advance {token : Token} {others : List Token} :
    Tracks whole advance depth (token :: others) fun value left =>
      value = token ∧ left = others := by
  intro parser stands
  obtain ⟨value, looked, kind, same⟩ := stands.current
  obtain rfl := same token rfl
  have proper : value.kind ≠ .endOfInput := stands.content value (List.mem_cons_self ..)
  exact ⟨.ok value, [value], others, rfl, advance_proper looked proper, rfl, rfl⟩

theorem take {token : Token} {others : List Token} {next : Token → Parsing Value}
    (goesOn : Tracks whole (next token) depth others good) :
    Tracks whole (Parser.advance >>= next) depth (token :: others) good := by
  refine advance.bind ?_
  rintro _ _ - ⟨rfl, rfl⟩
  exact goesOn

/-- A token of the wanted kind is taken, or the whole fails before a token of another kind. -/
theorem expect {wanted : Token.Kind} (proper : wanted ≠ .endOfInput)
    (refused : (nextToken unread).kind ≠ wanted →
      whole = (.error (.expected wanted (nextToken unread).kind), unread)) :
    Tracks whole (expect wanted) depth unread fun token left =>
      unread = token :: left ∧ token.kind = wanted := by
  refine look fun token kind => ?_
  by_cases fits : token.kind = wanted
  · rw [if_pos fits]
    cases unread with
    | nil => exact absurd (fits.symm.trans kind) proper
    | cons first others =>
        refine advance.weaken ?_
        rintro value left - ⟨rfl, rfl⟩
        exact ⟨rfl, kind.symm.trans fits⟩
  · rw [if_neg fits, kind]
    exact throw (refused (kind ▸ fits))

end Tracks
end Parser
end Permission
