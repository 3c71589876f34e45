import Permission.Proofs.Grammar.Completeness

/-!
# The tokens behind a reader's state

Every token that a reader takes has a place in its state: open frames stand for the beginnings of
phrases, and what is held is a callable phrase.  A run that ends with a tree has therefore read a
sentence, and with the reading of sentences this characterises the answers to all token lists.
-/

set_option autoImplicit false

namespace Permission
namespace Grammar

open Permission.Expr

/-- The arguments of a call that is still open, the last one first, each with its comma. -/
inductive Earlier : List Token → List Expr → Prop
  | none : Earlier [] []
  | argument (comma : Token) {before inner : List Token} {earlier : List Expr} {phrase : Expr}
      {need : Nat} (separates : comma.kind = .comma) (others : Earlier before earlier)
      (content : Operand inner phrase need) :
      Earlier (before ++ inner ++ [comma]) (phrase :: earlier)

/-- The tokens that the open frames were read from, the innermost frame's last. -/
inductive Open : List Frame → List Token → Prop
  | outermost : Open [] []
  | group (opening : Token) {frames : List Frame} {before : List Token}
      (opens : opening.kind = .leftParen) (outer : Open frames before) :
      Open (.group :: frames) (before ++ [opening])
  | negation (operator : Token) {frames : List Frame} {before : List Token}
      (negates : operator.kind = .not) (outer : Open frames before) :
      Open (.negation operator :: frames) (before ++ [operator])
  | junction (operator : Token) {frames : List Frame} {before left : List Token} {lhs : Expr}
      {need : Nat} (joins : operator.kind = .and ∨ operator.kind = .or)
      (level : Frame.levelInside .expression frames = .expression)
      (outer : Open frames before) (first : Junction left lhs need) :
      Open (.junction operator lhs :: frames) (before ++ left ++ [operator])
  | argument (opening : Token) {frames : List Frame} {before left inner : List Token}
      {callee : Expr} {earlier : List Expr} {need : Nat} (opens : opening.kind = .leftParen)
      (outer : Open frames before) (first : Callable left callee need)
      (others : Earlier inner earlier) :
      Open (.argument callee earlier :: frames) (before ++ left ++ opening :: inner)

def Fits : Level → List Token → Expr → Prop
  | .expression, tokens, phrase => ∃ need, Junction tokens phrase need
  | .operand, tokens, phrase => ∃ need, Operand tokens phrase need
  | .primary, tokens, phrase => ∃ need, Primary tokens phrase need

/-- The tokens that a reader has taken on the way to a state. -/
inductive Spells : Reader → List Token → Prop
  | wanted {frames : List Frame} {before : List Token} (outer : Open frames before) :
      Spells (.wanted frames) before
  | held {frames : List Frame} {before inner : List Token} {phrase : Expr} {need : Nat}
      (outer : Open frames before) (content : Callable inner phrase need) :
      Spells (.held frames phrase) (before ++ inner)
  | opened (opening : Token) {frames : List Frame} {before inner : List Token} {callee : Expr}
      {need : Nat} (opens : opening.kind = .leftParen) (outer : Open frames before)
      (first : Callable inner callee need) :
      Spells (.opened frames callee) (before ++ inner ++ [opening])

theorem Earlier.close {before inner : List Token} {earlier arguments : List Expr} {need : Nat}
    (others : Earlier before earlier) (content : Arguments inner arguments need) :
    ∃ total, Arguments (before ++ inner) (earlier.reverse ++ arguments) total := by
  induction others generalizing inner arguments need with
  | none => exact ⟨need, content⟩
  | argument comma separates _ first ih =>
      obtain ⟨total, complete⟩ := ih (.more comma separates first content)
      refine ⟨total, ?_⟩
      rw [List.reverse_cons, List.append_assoc _ [_], List.singleton_append,
        List.append_assoc, List.append_assoc, List.singleton_append]
      exact complete

theorem levelInside_cases (frames : List Frame) :
    Frame.levelInside .expression frames = .expression ∨
      Frame.levelInside .expression frames = .operand := by
  cases frames with
  | nil => exact .inl rfl
  | cons frame outer => cases frame <;> first | exact .inl rfl | exact .inr rfl

theorem Operand.fits {inner : List Token} {phrase : Expr} {need : Nat}
    (content : Operand inner phrase need) (frames : List Frame) :
    Fits (Frame.levelInside .expression frames) inner phrase := by
  rcases levelInside_cases frames with level | level
  · rw [level]
    exact ⟨need, .operand content⟩
  · rw [level]
    exact ⟨need, content⟩

theorem settle_fits {kind : Token.Kind} {frames outer : List Frame} {phrase settled : Expr}
    {before inner : List Token} (opened : Open frames before)
    (content : Fits (Frame.levelInside .expression frames) inner phrase)
    (closed : Reader.settle .expression kind frames phrase = .ok (outer, settled)) :
    ∃ before' inner', Open outer before' ∧
      Fits (Frame.levelInside .expression outer) inner' settled ∧
        before' ++ inner' = before ++ inner := by
  -- Closing a frame moves its tokens from those before the phrase into the phrase.
  induction frames generalizing phrase before inner with
  | nil =>
      rcases (settle_cases closed).2 with ⟨_, rfl, rfl⟩ | ⟨_, _, absent, _⟩ | ⟨_, _, _, absent, _⟩
      · exact ⟨before, inner, opened, content, rfl⟩
      · cases absent
      · cases absent
  | cons frame frames ih =>
      rcases (settle_cases closed).2 with
        ⟨_, rfl, rfl⟩ | ⟨operator, _, same, later⟩ | ⟨operator, lhs, _, same, later⟩
      · exact ⟨before, inner, opened, content, rfl⟩
      · cases same
        obtain ⟨need, operand⟩ := content
        cases opened with
        | negation _ negates outer =>
            have fits := (Operand.negation operator negates operand).fits
            obtain ⟨before', inner', opened', fits', same⟩ := ih outer (fits _) later
            refine ⟨before', inner', opened', fits', ?_⟩
            rw [same, List.append_assoc, List.singleton_append]
      · cases same
        obtain ⟨need, operand⟩ := content
        cases opened with
        | junction _ joins level outer first =>
            have fits : Fits .expression _ _ := ⟨_, .junction operator joins first operand⟩
            rw [← level] at fits
            obtain ⟨before', inner', opened', fits', same⟩ := ih outer fits later
            refine ⟨before', inner', opened', fits', ?_⟩
            rw [same, List.append_assoc, List.append_assoc, List.singleton_append]

theorem settle_leftParen {frames outer : List Frame} {phrase settled : Expr}
    (closed : Reader.settle .expression .leftParen frames phrase = .ok (outer, settled)) :
    outer = frames ∧ settled = phrase := by
  have unchanged := settle_unchanged (settle_cases closed).1 (.inl (admits_leftParen frames))
  rw [unchanged] at closed
  cases closed
  exact ⟨rfl, rfl⟩

/-! ### One token -/

theorem admits_cases {frames : List Frame} {kind : Token.Kind}
    (admitted : (Frame.levelInside .expression frames).admits kind = true) :
    kind = .leftParen ∨
      ((kind = .and ∨ kind = .or) ∧ Frame.levelInside .expression frames = .expression) := by
  rcases levelInside_cases frames with level | level
  · rw [level] at admitted ⊢
    cases kind <;> simp [Level.admits] at admitted ⊢
  · rw [level] at admitted
    cases kind <;> simp [Level.admits] at admitted ⊢

theorem begin_cases {frames : List Frame} {token : Token} {next : Reader}
    (taken : Reader.begin frames token = .taken next) :
    frames.length < limit ∧
      ((token.kind = .identifier ∧ next = .held frames (.identifier token.text)) ∨
        (token.kind = .leftParen ∧ next = .wanted (.group :: frames)) ∨
        (token.kind = .not ∧ next = .wanted (.negation token :: frames))) := by
  unfold Reader.begin at taken
  by_cases full : limit ≤ frames.length
  · rw [if_pos full] at taken
    cases taken
  · rw [if_neg full] at taken
    refine ⟨Nat.not_le.mp full, ?_⟩
    cases kind : token.kind <;> rw [kind] at taken <;> cases taken
    · exact .inl ⟨rfl, rfl⟩
    · exact .inr (.inl ⟨rfl, rfl⟩)
    · exact .inr (.inr ⟨rfl, rfl⟩)

theorem extend_cases {frames : List Frame} {phrase : Expr} {token : Token} {next : Reader}
    (taken : Reader.extend .expression frames phrase token = .taken next) :
    (token.kind = .leftParen ∧ next = .opened frames phrase) ∨
      ((token.kind = .and ∨ token.kind = .or) ∧
        Frame.levelInside .expression frames = .expression ∧
          next = .wanted (.junction token phrase :: frames)) ∨
      (token.kind = .rightParen ∧ ∃ outer, frames = .group :: outer ∧ next = .held outer phrase) ∨
      (∃ callee earlier outer, frames = .argument callee earlier :: outer ∧
        ((token.kind = .rightParen ∧
            next = .held outer (.call callee (earlier.reverse ++ [phrase]))) ∨
          (token.kind = .comma ∧
            next = .wanted (.argument callee (phrase :: earlier) :: outer)))) := by
  unfold Reader.extend at taken
  by_cases admitted : (Frame.levelInside .expression frames).admits token.kind = true
  · rw [if_pos admitted] at taken
    by_cases call : token.kind = .leftParen
    · rw [if_pos call] at taken
      cases taken
      exact .inl ⟨call, rfl⟩
    · rw [if_neg call] at taken
      cases taken
      obtain ⟨joins, level⟩ := (admits_cases admitted).resolve_left call
      exact .inr (.inl ⟨joins, level, rfl⟩)
  · rw [if_neg admitted] at taken
    cases frames with
    | nil => cases kind : token.kind <;> rw [kind] at taken <;> cases taken
    | cons frame outer =>
        cases frame with
        | group =>
            cases kind : token.kind <;> rw [kind] at taken <;> cases taken
            exact .inr (.inr (.inl ⟨rfl, outer, rfl, rfl⟩))
        | negation operator => cases kind : token.kind <;> rw [kind] at taken <;> cases taken
        | junction operator lhs => cases kind : token.kind <;> rw [kind] at taken <;> cases taken
        | argument callee earlier =>
            cases kind : token.kind <;> rw [kind] at taken <;> cases taken
            · refine .inr (.inr (.inr ⟨callee, earlier, outer, rfl, .inl ⟨rfl, ?_⟩⟩))
              rw [List.reverse_cons]
            · exact .inr (.inr (.inr ⟨callee, earlier, outer, rfl, .inr ⟨rfl, rfl⟩⟩))

theorem begin_spells {frames : List Frame} {before : List Token} {token : Token} {next : Reader}
    (outer : Open frames before) (taken : Reader.begin frames token = .taken next) :
    Spells next (before ++ [token]) := by
  rcases (begin_cases taken).2 with ⟨named, rfl⟩ | ⟨opens, rfl⟩ | ⟨negates, rfl⟩
  · exact .held outer (.primary (.identifier token named))
  · exact .wanted (.group token opens outer)
  · exact .wanted (.negation token negates outer)

theorem extend_spells {frames : List Frame} {before inner : List Token} {phrase : Expr}
    {token : Token} {next : Reader} (outer : Open frames before)
    (content : Fits (Frame.levelInside .expression frames) inner phrase)
    (noCall : token.kind ≠ .leftParen)
    (taken : Reader.extend .expression frames phrase token = .taken next) :
    Spells next (before ++ inner ++ [token]) := by
  rcases extend_cases taken with
    ⟨call, _⟩ | ⟨joins, level, rfl⟩ | ⟨closes, outer', rfl, rfl⟩ | ⟨callee, earlier, outer', rfl, last⟩
  · exact absurd call noCall
  · rw [level] at content
    obtain ⟨need, sentence⟩ := content
    exact .wanted (.junction token joins level outer sentence)
  · rcases content with ⟨need, sentence⟩
    cases outer with
    | @group opening _ before opens outer =>
        have grouped := Callable.primary (.group opening token opens closes sentence)
        have read := Spells.held outer grouped
        rw [List.append_assoc, List.append_assoc, List.singleton_append]
        exact read
  · rcases content with ⟨need, operand⟩
    cases outer with
    | @argument opening _ before left earlierTokens _ _ _ opens outer first others =>
        rcases last with ⟨closes, rfl⟩ | ⟨separates, rfl⟩
        · rcases others.close (.last operand) with ⟨total, arguments⟩
          have read := Spells.held outer (.call opening token opens closes first arguments)
          simpa using read
        · have later := Earlier.argument token separates others operand
          have read := Spells.wanted (.argument opening opens outer first later)
          simpa using read

theorem Spells.take {reader next : Reader} {before : List Token} {token : Token}
    (read : Spells reader before) (taken : reader.answer .expression token = .taken next) :
    Spells next (before ++ [token]) := by
  cases read with
  | wanted outer => exact begin_spells outer taken
  | @opened opening frames before inner callee need opens outer first =>
      rw [Reader.answer] at taken
      by_cases closes : token.kind = .rightParen
      · rw [if_pos closes] at taken
        cases taken
        have called := Spells.held outer (.emptyCall opening token opens closes first)
        simpa using called
      · rw [if_neg closes] at taken
        exact begin_spells (.argument opening opens outer first .none) taken
  | @held frames before inner phrase need outer content =>
      rw [Reader.answer] at taken
      cases closed : Reader.settle .expression token.kind frames phrase with
      | error error =>
          rw [closed] at taken
          cases taken
      | ok result =>
          obtain ⟨frames', settled⟩ := result
          rw [closed] at taken
          -- Only a call goes on with the phrase itself; before any other token frames may end.
          by_cases call : token.kind = .leftParen
          · rw [call] at closed
            obtain ⟨rfl, rfl⟩ := settle_leftParen closed
            rcases extend_cases taken with ⟨_, rfl⟩ | ⟨joins, _⟩ | ⟨closes, _⟩ | ⟨_, _, _, _, last⟩
            · exact .opened token call outer content
            · rw [call] at joins
              rcases joins with impossible | impossible <;> cases impossible
            · rw [call] at closes
              cases closes
            · rw [call] at last
              rcases last with ⟨impossible, _⟩ | ⟨impossible, _⟩ <;> cases impossible
          · have fits := (Operand.callable content).fits frames
            obtain ⟨before', inner', outer', fits', same⟩ := settle_fits outer fits closed
            rw [← same]
            exact extend_spells outer' fits' call taken

/-! ### The end of the outermost phrase -/

theorem begin_not_complete {frames : List Frame} {token : Token} {phrase : Expr} :
    Reader.begin frames token ≠ .complete phrase := by
  unfold Reader.begin
  by_cases full : limit ≤ frames.length
  · rw [if_pos full]
    nofun
  · rw [if_neg full]
    cases token.kind <;> nofun

theorem extend_complete {frames : List Frame} {phrase whole : Expr} {token : Token}
    (complete : Reader.extend .expression frames phrase token = .complete whole) :
    frames = [] ∧ whole = phrase := by
  unfold Reader.extend at complete
  by_cases admitted : (Frame.levelInside .expression frames).admits token.kind = true
  · rw [if_pos admitted] at complete
    by_cases call : token.kind = .leftParen
    · rw [if_pos call] at complete
      cases complete
    · rw [if_neg call] at complete
      cases complete
  · rw [if_neg admitted] at complete
    cases frames with
    | nil =>
        cases complete
        exact ⟨rfl, rfl⟩
    | cons frame outer =>
        cases frame <;> cases kind : token.kind <;> rw [kind] at complete <;> cases complete

theorem Spells.complete {reader : Reader} {before : List Token} {token : Token} {phrase : Expr}
    (read : Spells reader before)
    (complete : reader.answer .expression token = .complete phrase) :
    ∃ need, Junction before phrase need := by
  cases read with
  | wanted outer => exact absurd complete begin_not_complete
  | opened opening opens outer first =>
      rw [Reader.answer] at complete
      by_cases closes : token.kind = .rightParen
      · rw [if_pos closes] at complete
        cases complete
      · rw [if_neg closes] at complete
        exact absurd complete begin_not_complete
  | @held frames before inner held need outer content =>
      rw [Reader.answer] at complete
      cases closed : Reader.settle .expression token.kind frames held with
      | error error =>
          rw [closed] at complete
          cases complete
      | ok result =>
          obtain ⟨frames', settled⟩ := result
          rw [closed] at complete
          obtain ⟨rfl, rfl⟩ := extend_complete complete
          obtain ⟨before', inner', outer', fits, same⟩ :=
            settle_fits outer ((Operand.callable content).fits frames) closed
          cases outer'
          rw [← same]
          exact fits

/-- The end of the tokens is answered like an end of input among them. -/
theorem finish_cases (outermost : Level) (reader : Reader) (offset : Nat) :
    (∃ phrase, reader.answer outermost (Token.atEnd offset) = .complete phrase ∧
        reader.finish outermost = .ok phrase) ∨
      ∃ error, reader.answer outermost (Token.atEnd offset) = .failed error ∧
        reader.finish outermost = .error error := by
  have missing : ∀ frames, Reader.begin frames (Token.atEnd offset) =
      .failed (Reader.finish.missing frames) := by
    intro frames
    unfold Reader.begin Reader.finish.missing
    by_cases full : limit ≤ frames.length
    · rw [if_pos full, if_pos full]
    · rw [if_neg full, if_neg full]
      rfl
  cases reader with
  | wanted frames => exact .inr ⟨_, missing frames, rfl⟩
  | opened frames callee => exact .inr ⟨_, missing (.argument callee [] :: frames), rfl⟩
  | held frames phrase =>
      have atEnd : (Token.atEnd offset).kind = .endOfInput := rfl
      rw [Reader.answer, Reader.finish, atEnd]
      cases closed : Reader.settle outermost .endOfInput frames phrase with
      | error error => exact .inr ⟨error, rfl, rfl⟩
      | ok result =>
          obtain ⟨outer, settled⟩ := result
          cases outer with
          | nil => exact .inl ⟨settled, by cases outermost <;> rfl, rfl⟩
          | cons frame outer =>
              exact .inr ⟨.expected .rightParen .endOfInput, by cases frame <;> rfl, rfl⟩

/-! ### Whole runs -/

theorem Spells.finish {reader : Reader} {before : List Token} {phrase : Expr}
    (read : Spells reader before) (ended : reader.finish .expression = .ok phrase) :
    ∃ need, Junction before phrase need := by
  rcases finish_cases .expression reader 0 with ⟨whole, answered, same⟩ | ⟨error, _, same⟩
  · rw [same] at ended
    cases ended
    exact read.complete answered
  · rw [same] at ended
    cases ended

theorem Spells.verdict {reader : Reader} {before tokens : List Token} {phrase : Expr}
    (read : Spells reader before) (accepted : verdict reader tokens = .ok phrase) :
    ∃ need, Junction (before ++ tokens) phrase need := by
  -- Along the run the tokens behind the state grow by the ones that are taken.
  induction tokens generalizing reader before with
  | nil =>
      rw [verdict_nil] at accepted
      rw [List.append_nil]
      exact read.finish accepted
  | cons token tokens ih =>
      rw [verdict_cons] at accepted
      cases answered : reader.answer .expression token with
      | taken next =>
          rw [answered] at accepted
          have sentence := ih (read.take answered) accepted
          rw [List.append_assoc, List.singleton_append] at sentence
          exact sentence
      | complete phrase =>
          rw [answered] at accepted
          cases accepted
      | failed error =>
          rw [answered] at accepted
          cases accepted

theorem junction_of_ofTokens {tokens : List Token} {phrase : Expr}
    (accepted : ofTokens tokens = .ok phrase) :
    ∃ need, Junction (Token.content tokens) phrase need := by
  rw [ofTokens_eq_verdict] at accepted
  exact (Spells.wanted .outermost).verdict accepted

/-- The grammar decides every token list, up to the limits: what is read is a sentence with its
tree, a sentence is read exactly when neither its need nor its height exceeds a hundred and is
too deep otherwise, and all else is an error. -/
theorem ofTokens_decides_sentences (tokens : List Token) :
    (∀ phrase, ofTokens tokens = .ok phrase →
        ∃ need, Junction (Token.content tokens) phrase need) ∧
      (∀ phrase need, Junction (Token.content tokens) phrase need →
        ofTokens tokens =
          if need ≤ 100 ∧ phrase.height ≤ 100 then .ok phrase else .error .tooDeep) ∧
      ((¬ ∃ phrase need, Junction (Token.content tokens) phrase need) →
        ∃ error, ofTokens tokens = .error error) := by
  refine ⟨fun phrase accepted => junction_of_ofTokens accepted,
    fun phrase need sentence => sentence.ofTokens, ?_⟩
  intro none
  cases answer : ofTokens tokens with
  | error error => exact ⟨error, rfl⟩
  | ok phrase =>
      obtain ⟨need, sentence⟩ := junction_of_ofTokens answer
      exact absurd ⟨phrase, need, sentence⟩ none

end Grammar
end Permission
