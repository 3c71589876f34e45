import Permission.Proofs.Grammar.Viability

/-!
# Where a token list is refused

A reader never takes a token that no sentence continues with, and it refuses no other one.  Its
main statement here is that a token list that is no sentence is refused at the first token that
cannot stand there, or at the end when all of them can, unless a limit stops the reader before.
The error tells what the tokens in front had come to.
-/

set_option autoImplicit false

namespace Permission
namespace Grammar

open Permission.Expr

/-- The token that is looked at next: behind the last one it is the end of input. -/
def nextToken (tokens : List Token) : Token :=
  tokens.headD (Token.atEnd 0)

/-- Between the two parts of a token list stands the first token that no sentence continues with.
When every token can stand where it does, that is the end of a list that is no sentence. -/
structure FirstOffence (tokens before after : List Token) : Prop where
  parts : tokens = before ++ after
  viable : Viable before
  offends : match after with
    | [] => ¬ Sentence before
    | token :: _ => ¬ Viable (before ++ [token])

/-- The tokens end with a complete expression inside a parenthesis that is still open.  It is that
of a group, or of a call, where earlier arguments may stand in front. -/
def EndsInside (tokens : List Token) : Prop :=
  ∃ outer opening inner, tokens = outer ++ opening :: inner ∧ opening.kind = .leftParen ∧
    ((∃ phrase need, Junction inner phrase need) ∨
      ∃ arguments need, Arguments inner arguments need)

/-- Why a token list is refused, by what the tokens in front of the given kind had come to. -/
inductive Refusal (before : List Token) (found : Token.Kind) : ReadingError → Prop
  | unexpected (wanted : ¬ EndsPhrase before) : Refusal before found (.unexpected found)
  | unclosed (inside : EndsInside before) : Refusal before found (.expected .rightParen found)
  | surplus (sentence : Sentence before) : Refusal before found (.expected .endOfInput found)

/-! ### The first offence -/

theorem FirstOffence.length_le {tokens before after before' after' : List Token}
    (first : FirstOffence tokens before after) (again : FirstOffence tokens before' after') :
    before'.length ≤ before.length := by
  -- A longer part could be continued to a sentence, and so could its beginning with the offence.
  rcases List.append_eq_append_iff.mp (first.parts.symm.trans again.parts) with
    ⟨between, rfl, rfl⟩ | ⟨between, rfl, _⟩
  · cases between with
    | nil => simp
    | cons token between =>
        have viable := again.viable
        rw [← List.singleton_append, ← List.append_assoc] at viable
        exact absurd (viable.front between) first.offends
  · simp

theorem FirstOffence.unique {tokens before after before' after' : List Token}
    (first : FirstOffence tokens before after) (again : FirstOffence tokens before' after') :
    before' = before ∧ after' = after := by
  have same := Nat.le_antisymm (first.length_le again) (again.length_le first)
  exact List.append_inj (again.parts.symm.trans first.parts) same

/-! ### The next step of a run -/

section

variable {outermost : Level} {reader other next : Reader} {unread : List Token}

theorem run_taken {token : Token} {others : List Token}
    (answered : reader.answer outermost token = .taken next) :
    reader.run outermost (token :: others) = next.run outermost others := by
  rw [Reader.run, answered]

theorem run_failed {error : ReadingError}
    (answered : reader.answer outermost (nextToken unread) = .failed error) :
    reader.run outermost unread = (.error error, unread) := by
  cases unread with
  | nil =>
      rcases finish_cases outermost reader 0 with ⟨phrase, complete, _⟩ | ⟨fault, failed, ended⟩
      · cases complete.symm.trans answered
      · cases failed.symm.trans answered
        rw [Reader.run, ended]
  | cons token others =>
      have answered : reader.answer outermost token = .failed error := answered
      rw [Reader.run, answered]

theorem run_complete {phrase : Expr}
    (answered : reader.answer outermost (nextToken unread) = .complete phrase) :
    reader.run outermost unread = (.ok phrase, unread) := by
  cases unread with
  | nil =>
      rcases finish_cases outermost reader 0 with ⟨whole, complete, ended⟩ | ⟨fault, failed, _⟩
      · cases complete.symm.trans answered
        rw [Reader.run, ended]
      · cases failed.symm.trans answered
  | cons token others =>
      have answered : reader.answer outermost token = .complete phrase := answered
      rw [Reader.run, answered]

theorem run_congr (same : reader.answer outermost (nextToken unread) =
      other.answer outermost (nextToken unread)) :
    reader.run outermost unread = other.run outermost unread := by
  cases unread with
  | nil =>
      rcases finish_cases outermost other 0 with
        ⟨phrase, answered, ended⟩ | ⟨fault, answered, ended⟩
      · rw [run_complete (same.trans answered), Reader.run, ended]
      · rw [run_failed (same.trans answered), Reader.run, ended]
  | cons token others =>
      have same : reader.answer outermost token = other.answer outermost token := same
      rw [Reader.run, Reader.run, same]

end

/-! ### The last token looked at -/

theorem begin_refused {frames : List Frame} {token : Token} {error : ReadingError}
    (refused : Reader.begin frames token = .failed error) (shallow : error ≠ .tooDeep) :
    error = .unexpected token.kind := by
  unfold Reader.begin at refused
  by_cases full : limit ≤ frames.length
  · rw [if_pos full] at refused
    cases refused
    exact absurd rfl shallow
  · rw [if_neg full] at refused
    cases kind : token.kind <;> rw [kind] at refused <;> cases refused <;> rfl

theorem settle_stays {kind : Token.Kind} {frames outer : List Frame} {phrase settled : Expr}
    (closed : Reader.settle .expression kind frames phrase = .ok (outer, settled)) :
    Stays kind outer := by
  fun_induction Reader.settle .expression kind frames phrase with
  | case1 frames phrase high => cases closed
  | case2 frames phrase low admitted =>
      cases closed
      exact .inl admitted
  | case3 phrase low operator inner refused ih => exact ih closed
  | case4 phrase low operator lhs inner refused ih => exact ih closed
  | case5 frames phrase low refused noNegation noJunction =>
      cases closed
      refine .inr ?_
      split
      · exact noNegation _ _ rfl
      · exact noJunction _ _ _ rfl
      · trivial

theorem settle_refused {kind : Token.Kind} {frames : List Frame} {phrase : Expr}
    {error : ReadingError}
    (refused : Reader.settle .expression kind frames phrase = .error error) :
    error = .tooDeep := by
  fun_induction Reader.settle .expression kind frames phrase with
  | case1 frames phrase high =>
      cases refused
      rfl
  | case2 frames phrase low admitted => cases refused
  | case3 phrase low operator inner closes ih => exact ih refused
  | case4 phrase low operator lhs inner closes ih => exact ih refused
  | case5 frames phrase low closes noNegation noJunction => cases refused

theorem extend_refused {frames : List Frame} {phrase : Expr} {token : Token}
    {error : ReadingError} (stays : Stays token.kind frames)
    (refused : Reader.extend .expression frames phrase token = .failed error) :
    error = .expected .rightParen token.kind ∧
      ((∃ outer, frames = .group :: outer) ∨
        ∃ callee earlier outer, frames = .argument callee earlier :: outer) := by
  unfold Reader.extend at refused
  by_cases admitted : (Frame.levelInside .expression frames).admits token.kind = true
  · rw [if_pos admitted] at refused
    by_cases call : token.kind = .leftParen
    · rw [if_pos call] at refused
      cases refused
    · rw [if_neg call] at refused
      cases refused
  · rw [if_neg admitted] at refused
    have last := stays.resolve_left admitted
    cases frames with
    | nil => cases refused
    | cons frame outer =>
        cases frame with
        | group =>
            refine ⟨?_, .inl ⟨outer, rfl⟩⟩
            cases kind : token.kind <;> rw [kind] at refused <;> cases refused <;> rfl
        | negation operator => exact last.elim
        | junction operator lhs => exact last.elim
        | argument callee earlier =>
            refine ⟨?_, .inr ⟨callee, earlier, outer, rfl⟩⟩
            cases kind : token.kind <;> rw [kind] at refused <;> cases refused <;> rfl

/-! ### What a reader has come to -/

theorem Spells.refused {reader : Reader} {before : List Token} {token : Token}
    {error : ReadingError} (read : Spells reader before)
    (refused : reader.answer .expression token = .failed error) (shallow : error ≠ .tooDeep) :
    Refusal before token.kind error := by
  cases read with
  | wanted outer =>
      rw [begin_refused refused shallow]
      exact .unexpected outer.not_endsPhrase
  | opened opening opens outer first =>
      rw [Reader.answer] at refused
      by_cases closes : token.kind = .rightParen
      · rw [if_pos closes] at refused
        cases refused
      · rw [if_neg closes] at refused
        rw [begin_refused refused shallow]
        exact .unexpected (not_endsPhrase opens (by decide) (by decide))
  | @held frames before inner held need outer content =>
      rw [Reader.answer] at refused
      cases closed : Reader.settle .expression token.kind frames held with
      | error fault =>
          rw [closed] at refused
          cases refused
          exact absurd (settle_refused closed) shallow
      | ok result =>
          obtain ⟨frames', settled⟩ := result
          rw [closed] at refused
          obtain ⟨same, open'⟩ := extend_refused (settle_stays closed) refused
          obtain ⟨before', inner', outer', fits, parts⟩ :=
            settle_fits outer ((Operand.callable content).fits frames) closed
          rw [same, ← parts]
          -- The phrase that settled fits the frame that stays open, and ends inside its parenthesis.
          apply Refusal.unclosed
          rcases open' with ⟨outer, rfl⟩ | ⟨callee, earlier, outer, rfl⟩
          · cases outer' with
            | @group opening _ before opens _ =>
                refine ⟨before, opening, inner', ?_, opens, .inl ⟨settled, fits⟩⟩
                rw [List.append_assoc, List.singleton_append]
          · obtain ⟨need, operand⟩ := fits
            cases outer' with
            | @argument opening _ before left earlierTokens _ _ _ opens _ first others =>
                refine ⟨before ++ left, opening, earlierTokens ++ inner', ?_, opens,
                  .inr ⟨_, others.close (.last operand)⟩⟩
                rw [List.append_assoc, List.cons_append]

/-! ### Whole runs -/

/-- From the first state the reader takes all the tokens and comes to the second. -/
inductive Takes : Reader → List Token → Reader → Prop
  | done (reader : Reader) : Takes reader [] reader
  | next {reader next last : Reader} {token : Token} {tokens : List Token}
      (taken : reader.answer .expression token = .taken next) (later : Takes next tokens last) :
      Takes reader (token :: tokens) last

theorem Takes.run {reader last : Reader} {before : List Token} (takes : Takes reader before last)
    (after : List Token) :
    reader.run .expression (before ++ after) = last.run .expression after := by
  induction takes with
  | done reader => rfl
  | next taken later ih => exact (run_taken taken).trans ih

theorem Takes.verdict {reader last : Reader} {before : List Token}
    (takes : Takes reader before last) (after : List Token) :
    verdict reader (before ++ after) = Grammar.verdict last after := by
  unfold Grammar.verdict
  rw [takes.run]

theorem Takes.front {reader last : Reader} {before after : List Token}
    (takes : Takes reader (before ++ after) last) : ∃ middle, Takes reader before middle := by
  induction before generalizing reader with
  | nil => exact ⟨reader, .done reader⟩
  | cons token before ih =>
      cases takes with
      | next taken later =>
          obtain ⟨middle, front⟩ := ih later
          exact ⟨middle, .next taken front⟩

theorem Spells.takes {reader last : Reader} {earlier before : List Token}
    (read : Spells reader earlier) (takes : Takes reader before last) :
    Spells last (earlier ++ before) := by
  induction takes generalizing earlier with
  | done reader =>
      rw [List.append_nil]
      exact read
  | next taken later ih =>
      have further := ih (read.take taken)
      rw [List.append_assoc, List.singleton_append] at further
      exact further

theorem run_cases (reader : Reader) (tokens : List Token) :
    ∃ before after last, tokens = before ++ after ∧ Takes reader before last ∧
      ((∃ phrase, last.answer .expression (nextToken after) = .complete phrase ∧
          last.run .expression after = (.ok phrase, after)) ∨
        ∃ error, last.answer .expression (nextToken after) = .failed error ∧
          last.run .expression after = (.error error, after)) := by
  induction tokens generalizing reader with
  | nil =>
      refine ⟨[], [], reader, rfl, .done reader, ?_⟩
      rcases finish_cases .expression reader 0 with ⟨phrase, answered, _⟩ | ⟨error, answered, _⟩
      · exact .inl ⟨phrase, answered, run_complete answered⟩
      · exact .inr ⟨error, answered, run_failed answered⟩
  | cons token tokens ih =>
      cases answered : reader.answer .expression token with
      | taken next =>
          obtain ⟨before, after, last, rfl, takes, stop⟩ := ih next
          exact ⟨token :: before, after, last, rfl, .next answered takes, stop⟩
      | complete phrase =>
          exact ⟨[], token :: tokens, reader, rfl, .done reader,
            .inl ⟨phrase, answered, run_complete answered⟩⟩
      | failed error =>
          exact ⟨[], token :: tokens, reader, rfl, .done reader,
            .inr ⟨error, answered, run_failed answered⟩⟩

/-! ### What the tokens in front had come to -/

theorem not_sentence_of_verdict {tokens : List Token} {error : ReadingError}
    (refused : verdict (.wanted []) tokens = .error error) (shallow : error ≠ .tooDeep) :
    ¬ Sentence tokens := by
  rintro ⟨phrase, need, sentence⟩
  rw [sentence.verdict] at refused
  split at refused
  · cases refused
  · cases refused
    exact shallow rfl

theorem Sentence.endsPhrase {tokens : List Token} (sentence : Sentence tokens) :
    EndsPhrase tokens := by
  obtain ⟨phrase, need, content⟩ := sentence
  exact content.ends

theorem Sentence.balanced {tokens : List Token} (sentence : Sentence tokens) :
    surplus tokens = 0 := by
  obtain ⟨phrase, need, content⟩ := sentence
  exact content.balanced

theorem EndsInside.endsPhrase {tokens : List Token} (inside : EndsInside tokens) :
    EndsPhrase tokens := by
  obtain ⟨outer, opening, inner, rfl, _, content⟩ := inside
  have ends : EndsPhrase inner := by
    rcases content with ⟨phrase, need, content⟩ | ⟨arguments, need, content⟩
    · exact content.ends
    · exact content.ends
  exact (ends.behind [opening]).behind outer

/-- A phrase inside an open parenthesis is no sentence: the tokens that a reader has taken never
close more parentheses than they open. -/
theorem Takes.not_sentence {tokens : List Token} {last : Reader}
    (takes : Takes (.wanted []) tokens last) (inside : EndsInside tokens) : ¬ Sentence tokens := by
  obtain ⟨outer, opening, inner, rfl, opens, content⟩ := inside
  intro sentence
  obtain ⟨middle, front⟩ := takes.front
  have outside : 0 ≤ surplus outer := ((Spells.wanted .outermost).takes front).surplus_nonneg
  have balanced : surplus inner = 0 := by
    rcases content with ⟨phrase, need, content⟩ | ⟨arguments, need, content⟩
    · exact content.balanced
    · exact content.balanced
  have closed := sentence.balanced
  rw [surplus_append, surplus_opening opens, balanced] at closed
  omega

/-- A token that is not taken after the given ones, for another reason than a limit, goes on with
them to no sentence. -/
theorem Takes.not_viable {before : List Token} {last : Reader} {token : Token}
    {error : ReadingError} (takes : Takes (.wanted []) before last) (shallow : error ≠ .tooDeep)
    (refused : ∀ rest, Grammar.verdict last (token :: rest) = .error error) :
    ¬ Viable (before ++ [token]) := by
  rintro ⟨rest, sentence⟩
  refine not_sentence_of_verdict ?_ shallow sentence
  rw [List.append_assoc, List.singleton_append, takes.verdict, refused]

/-- A token list that is no sentence, and that no limit stops, is refused behind tokens that are
taken, and for what these had come to.  No continuation with the same next token is accepted. -/
theorem readWhole_refused {tokens : List Token} (noSentence : ¬ Sentence (Token.content tokens))
    (shallow : ofTokens tokens ≠ .error .tooDeep) :
    ∃ before after last error, Token.content tokens = before ++ after ∧
      Takes (.wanted []) before last ∧ readWhole tokens = (.error error, after) ∧
        Refusal before (nextToken after).kind error ∧
          ∀ rest, verdict last (nextToken after :: rest) = .error error := by
  obtain ⟨before, after, last, parts, takes, stop⟩ :=
    run_cases (.wanted []) (Token.content tokens)
  have read : Spells last before := (Spells.wanted .outermost).takes takes
  have phraseRead : readPhrase .expression tokens = last.run .expression after := by
    rw [readPhrase, parts, takes.run]
  rcases stop with ⟨phrase, answered, ran⟩ | ⟨error, answered, ran⟩
  · have sentence : Sentence before := ⟨phrase, read.complete answered⟩
    rw [ran] at phraseRead
    cases after with
    | nil =>
        rw [List.append_nil] at parts
        rw [parts] at noSentence
        exact absurd sentence noSentence
    | cons token after =>
        refine ⟨before, token :: after, last, .expected .endOfInput token.kind, parts, takes, ?_,
          .surplus sentence, ?_⟩
        · rw [readWhole, phraseRead]
        · intro rest
          rw [verdict_cons, answered]
          rfl
  · rw [ran] at phraseRead
    have refused : readWhole tokens = (.error error, after) := by rw [readWhole, phraseRead]
    have withinLimits : error ≠ .tooDeep := by
      rintro rfl
      exact shallow (by rw [ofTokens, refused])
    refine ⟨before, after, last, error, parts, takes, refused,
      read.refused answered withinLimits, ?_⟩
    intro rest
    rw [verdict_cons, answered]

/-- A token list that is no sentence is refused at its first offence, unless a limit stops the
reader before: the error names the kind of the token there, which is the first one left unread.  A
closing parenthesis is missed there exactly when an expression inside an open group or call has
ended, and the end of input exactly when a sentence has. -/
theorem readWhole_refuses_first_offence {tokens : List Token}
    (noSentence : ¬ Sentence (Token.content tokens))
    (shallow : ofTokens tokens ≠ .error .tooDeep) :
    ∃ before after error, readWhole tokens = (.error error, after) ∧
      (∀ before' after', FirstOffence (Token.content tokens) before' after' ↔
        before' = before ∧ after' = after) ∧
      (error = .unexpected (nextToken after).kind ∨
        error = .expected .rightParen (nextToken after).kind ∨
        error = .expected .endOfInput (nextToken after).kind) ∧
      (error = .expected .rightParen (nextToken after).kind ↔ EndsInside before) ∧
      (error = .expected .endOfInput (nextToken after).kind ↔ Sentence before) := by
  obtain ⟨before, after, last, error, parts, takes, refused, reason, stops⟩ :=
    readWhole_refused noSentence shallow
  have withinLimits : error ≠ .tooDeep := by
    cases reason <;> nofun
  have first : FirstOffence (Token.content tokens) before after := by
    refine ⟨parts, ((Spells.wanted .outermost).takes takes).viable, ?_⟩
    cases after with
    | nil =>
        rw [parts, List.append_nil] at noSentence
        exact noSentence
    | cons token after => exact takes.not_viable withinLimits stops
  refine ⟨before, after, error, refused, ?_, ?_⟩
  · intro before' after'
    constructor
    · exact first.unique
    · rintro ⟨rfl, rfl⟩
      exact first
  · cases reason with
    | unexpected wanted =>
        refine ⟨.inl rfl, ⟨nofun, ?_⟩, ⟨nofun, ?_⟩⟩
        · exact fun inside => absurd inside.endsPhrase wanted
        · exact fun sentence => absurd sentence.endsPhrase wanted
    | unclosed inside =>
        refine ⟨.inr (.inl rfl), ⟨fun _ => inside, fun _ => rfl⟩, ⟨nofun, ?_⟩⟩
        exact fun sentence => absurd sentence (takes.not_sentence inside)
    | surplus sentence =>
        refine ⟨.inr (.inr rfl), ⟨nofun, ?_⟩, ⟨fun _ => sentence, fun _ => rfl⟩⟩
        exact fun inside => absurd sentence (takes.not_sentence inside)

/-- `Some(x And y)`: an argument ends before an operator. -/
def junctionArgument : List Token :=
  [⟨.identifier, "Some", 0⟩, ⟨.leftParen, "(", 4⟩, ⟨.identifier, "x", 5⟩, ⟨.and, "And", 7⟩,
    ⟨.identifier, "y", 11⟩, ⟨.rightParen, ")", 12⟩, Token.atEnd 13]

theorem readWhole_refuses_first_offence_junctionArgument :
    ¬ Sentence (Token.content junctionArgument) ∧
      ofTokens junctionArgument ≠ .error .tooDeep ∧
        readWhole junctionArgument =
          (.error (.expected .rightParen .and), (Token.content junctionArgument).drop 3) ∧
        FirstOffence (Token.content junctionArgument) (junctionArgument.take 3)
            ((Token.content junctionArgument).drop 3) ∧
          EndsInside (junctionArgument.take 3) := by
  have noSentence : ¬ Sentence (Token.content junctionArgument) :=
    not_sentence_of_verdict rfl (show ReadingError.expected .rightParen .and ≠ .tooDeep by decide)
  have shallow : ofTokens junctionArgument ≠ .error .tooDeep := nofun
  have answer : readWhole junctionArgument =
    (.error (.expected .rightParen .and), (Token.content junctionArgument).drop 3) := rfl
  obtain ⟨before, after, error, refused, first, _, inside, _⟩ :=
    readWhole_refuses_first_offence noSentence shallow
  rw [answer] at refused
  obtain ⟨sameError, sameRest⟩ := Prod.mk.inj refused
  cases sameError
  subst sameRest
  have offence := (first before _).mpr ⟨rfl, rfl⟩
  have front : before = junctionArgument.take 3 := List.append_cancel_right offence.parts.symm
  rw [front] at offence inside
  exact ⟨noSentence, shallow, answer, offence, inside.mp rfl⟩

end Grammar
end Permission
