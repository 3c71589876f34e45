import Permission.Proofs.Grammar.Descent

/-!
# A parser that is asked again

A parser may be asked for one phrase after the other, and an error does not stop that.  Between two
requests it points at a token up to the first end of input, with no phrase open, and what it answers
to the next one depends on the tokens that are left alone.
-/

set_option autoImplicit false

namespace Permission
namespace Token

theorem closed_cases (tokens : List Token) :
    ∃ front last, Token.closed tokens = front ++ [last] ∧ last.kind = .endOfInput ∧
      (tokens = front ++ [last] ∨ tokens = front) := by
  unfold Token.closed
  cases final : tokens.getLast? with
  | none =>
      obtain rfl := List.getLast?_eq_none_iff.mp final
      exact ⟨[], Token.atEnd 0, rfl, rfl, .inr rfl⟩
  | some last =>
      by_cases ended : last.kind = .endOfInput
      · obtain ⟨front, rfl⟩ := List.getLast?_eq_some_iff.mp final
        exact ⟨front, last, if_pos ended, ended, .inl rfl⟩
      · exact ⟨tokens, _, if_neg ended, rfl, .inr rfl⟩

theorem content_append_end (tokens : List Token) {last : Token}
    (ends : last.kind = .endOfInput) :
    Token.content (tokens ++ [last]) = Token.content tokens := by
  induction tokens with
  | nil => exact List.takeWhile_cons_of_neg (by simp [ends])
  | cons token tokens ih =>
      rw [List.cons_append, Token.content, Token.content, List.takeWhile_cons, List.takeWhile_cons]
      split
      · exact congrArg (token :: ·) ih
      · rfl

theorem content_proper {tokens : List Token} {token : Token}
    (member : token ∈ Token.content tokens) : token.kind ≠ .endOfInput :=
  of_decide_eq_true (List.all_eq_true.mp List.all_takeWhile token member)

theorem content_split {tokens : List Token}
    (ended : ∃ token ∈ tokens, token.kind = .endOfInput) :
    ∃ last others, tokens = Token.content tokens ++ last :: others ∧ last.kind = .endOfInput := by
  have parts : Token.content tokens ++ tokens.dropWhile (·.kind ≠ .endOfInput) = tokens :=
    List.takeWhile_append_dropWhile
  cases rest : tokens.dropWhile (·.kind ≠ .endOfInput) with
  | nil =>
      obtain ⟨token, member, ends⟩ := ended
      rw [rest, List.append_nil] at parts
      rw [← parts] at member
      exact absurd ends (content_proper member)
  | cons last others =>
      rw [rest] at parts
      refine ⟨last, others, parts.symm, ?_⟩
      have stops := List.head?_dropWhile_not (fun token : Token => token.kind ≠ .endOfInput) tokens
      rw [rest] at stops
      simpa using stops

end Token

namespace Parser

open Permission.Expr

/-- The answers to requests for phrases of the given powers, one after the other. -/
def session : List Power → Parser → Option (List (Except ReadingError Expr) × Parser)
  | [], parser => some ([], parser)
  | power :: powers, parser => do
    let (result, after) ← parse power parser
    let (results, last) ← session powers after
    return (result :: results, last)

/-- The parser has the given tokens.  It points at one of them, no end of input stands before that
one, and no phrase is open. -/
structure Resting (tokens : List Token) (parser : Parser) : Prop where
  same : parser.tokens = Token.closed tokens
  inside : parser.position < parser.tokens.length
  unpassed : ∀ token ∈ parser.tokens.take parser.position, token.kind ≠ .endOfInput
  idle : parser.depth = 0

theorem resting_ofTokens (tokens : List Token) : Resting tokens (ofTokens tokens) := by
  obtain ⟨front, last, closed, _⟩ := Token.closed_cases tokens
  refine ⟨rfl, ?_, nofun, rfl⟩
  rw [ofTokens, closed, List.length_append, List.length_singleton]
  exact Nat.succ_pos _

section

variable {tokens : List Token} {parser : Parser}

theorem Resting.position_le (resting : Resting tokens parser) {front : List Token} {last : Token}
    (closed : Token.closed tokens = front ++ [last]) : parser.position ≤ front.length := by
  have inside := resting.inside
  rw [resting.same, closed, List.length_append, List.length_singleton] at inside
  exact Nat.le_of_lt_succ inside

theorem Resting.stands (resting : Resting tokens parser) :
    parser.Stands 0 (Token.content (parser.tokens.drop parser.position)) := by
  obtain ⟨front, last, closed, ends, _⟩ := Token.closed_cases tokens
  refine ⟨resting.idle, ?_, resting.unpassed, fun token => Token.content_proper⟩
  apply Token.content_split
  refine ⟨last, ?_, ends⟩
  rw [resting.same, closed, List.drop_append_of_le_length (resting.position_le closed)]
  exact List.mem_append_right _ (List.mem_singleton_self last)

theorem Stands.resting {unread : List Token} (stands : parser.Stands 0 unread)
    (same : parser.tokens = Token.closed tokens) : Resting tokens parser :=
  ⟨same, by have within := stands.length_lt; omega, stands.unpassed, stands.depth_eq⟩

theorem Resting.content_drop (resting : Resting tokens parser) :
    Token.content (tokens.drop parser.position) =
      Token.content (parser.tokens.drop parser.position) := by
  obtain ⟨front, last, closed, ends, rfl | rfl⟩ := Token.closed_cases tokens
  · rw [resting.same, closed]
  · rw [resting.same, closed, List.drop_append_of_le_length (resting.position_le closed),
      Token.content_append_end _ ends]

theorem stands_ofTokens (tokens : List Token) :
    (ofTokens tokens).Stands 0 (Token.content tokens) := by
  have resting := resting_ofTokens tokens
  have stands := resting.stands
  rw [← resting.content_drop] at stands
  exact stands

/-- One request: the parser rests again, further on if a phrase was found.  It answers as a reader
of the tokens that are left, and a fresh parser over tokens with the same content answers the same
and takes as many. -/
theorem Resting.step (resting : Resting tokens parser) (power : Power) :
    ∃ result taken, parse power parser = some (result, parser.skip taken) ∧
      Resting tokens (parser.skip taken) ∧
      (∀ phrase, result = .ok phrase → 0 < taken) ∧
      readPhrase power.level (parser.tokens.drop parser.position) =
        (result, (Token.content (parser.tokens.drop parser.position)).drop taken) ∧
      ∀ rest, Token.content rest = Token.content (parser.tokens.drop parser.position) →
        parse power (ofTokens rest) = some (result, (ofTokens rest).skip taken) := by
  have stands := resting.stands
  obtain ⟨result, taken, left, parts, answered, read, further⟩ := parse_reads power stands
  refine ⟨result, taken.length, answered, ?_, ?_, ?_, ?_⟩
  · rw [parts] at stands
    exact stands.skip.resting resting.same
  · exact fun phrase found => List.length_pos_iff.mpr (further phrase found)
  · rw [readPhrase, read, parts, List.drop_left]
  · intro rest same
    have fresh := stands_ofTokens rest
    rw [same] at fresh
    obtain ⟨result', taken', left', parts', answered', read', _⟩ := parse_reads power fresh
    -- Both come to what the reader comes to, so they leave the same tokens.
    obtain ⟨rfl, rfl⟩ := Prod.mk.inj (read'.symm.trans read)
    rw [answered', List.append_cancel_right (parts'.symm.trans parts)]

theorem Resting.session (resting : Resting tokens parser) (powers : List Power) :
    ∃ results last, session powers parser = some (results, last) ∧ Resting tokens last := by
  induction powers generalizing parser with
  | nil => exact ⟨[], parser, rfl, resting⟩
  | cons power powers ih =>
      obtain ⟨result, taken, answered, rests, _⟩ := resting.step power
      obtain ⟨results, last, later, lastRests⟩ := ih rests
      refine ⟨result :: results, last, ?_, lastRests⟩
      simp only [Parser.session, answered, later, Option.bind_eq_bind, Option.bind_some]
      rfl

end

/-- A parser of a whole list answers as a reader of it, and stops before the tokens that the reader
leaves. -/
theorem parseWhole_reads (tokens : List Token) :
    ∃ taken, Token.content tokens = taken ++ (readWhole tokens).2 ∧
      parseWhole (ofTokens tokens) =
        some ((readWhole tokens).1, (ofTokens tokens).skip taken.length) := by
  have stands := stands_ofTokens tokens
  obtain ⟨result, taken, left, parts, answered, read, _⟩ := parse_reads .lowest stands
  have phrase : readPhrase .expression tokens = (result, left) := read
  refine ⟨taken, ?_⟩
  rw [readWhole, phrase, parts]
  unfold parseWhole
  cases result with
  | error error => exact ⟨rfl, bind_error answered⟩
  | ok phrase =>
      rw [bind_ok answered]
      rw [parts] at stands
      obtain ⟨token, looked, kind, same⟩ := stands.skip.current
      cases left with
      | nil => exact ⟨rfl, bind_ok (expect_atEnd looked kind)⟩
      | cons first others =>
          obtain rfl := same first rfl
          have proper : token.kind ≠ .endOfInput :=
            stands.content token (List.mem_append_right taken (List.mem_cons_self ..))
          exact ⟨rfl, bind_error (expect_other looked proper)⟩

/-- Whatever was asked before, and whether it was found or refused, the parser rests at a token up
to the first end of input, and the next request leaves it resting there or further on, but further
on if a phrase is found.  It answers as a reader of the tokens that are left, and a fresh parser
over them gives the same answer and takes as many of them. -/
theorem session_starts_afresh (tokens : List Token) (powers : List Power) (power : Power) :
    ∃ results parser, session powers (ofTokens tokens) = some (results, parser) ∧
      Resting tokens parser ∧
      ∃ result taken, parse power parser = some (result, parser.skip taken) ∧
        Resting tokens (parser.skip taken) ∧
        (∀ phrase, result = .ok phrase → 0 < taken) ∧
        readPhrase power.level (parser.tokens.drop parser.position) =
          (result, (Token.content (parser.tokens.drop parser.position)).drop taken) ∧
        ∀ rest ∈ [tokens.drop parser.position, parser.tokens.drop parser.position],
          parse power (ofTokens rest) = some (result, (ofTokens rest).skip taken) := by
  obtain ⟨results, parser, answered, resting⟩ := (resting_ofTokens tokens).session powers
  obtain ⟨result, taken, found, rests, further, read, afresh⟩ := resting.step power
  refine ⟨results, parser, answered, resting, result, taken, found, rests, further, read, ?_⟩
  intro rest member
  apply afresh
  rcases List.mem_cons.mp member with rfl | member
  · exact resting.content_drop
  · rw [List.mem_singleton.mp member]

/-- A phrase that breaks off keeps the tokens in front of the fault, and they are not read again. -/
example :
    let opening : Token := { kind := .leftParen, text := "(", offset := 0 }
    let name : Token := { kind := .identifier, text := "a", offset := 1 }
    (session [.lowest, .lowest] (ofTokens [opening, name])).map Prod.fst =
      some [.error (.expected .rightParen .endOfInput), .error (.unexpected .endOfInput)] := by
  rfl

end Parser
end Permission
