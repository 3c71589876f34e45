import Permission.Proofs.Grammar

/-!
# Reading the phrases of the grammar

A reader that is given the tokens of a phrase comes to hold the tree of the phrase, unless one of
the limits stops it.  A negation or a junction whose last operand was just read still has its
frame open: the reader closes it when it sees the next token, so nothing is told apart by closing
it at once.
-/

set_option autoImplicit false

namespace Permission
namespace Grammar

open Permission.Expr

/-- What `ofTokens` answers once a reader has come to a state with the given tokens left. -/
def verdict (reader : Reader) (tokens : List Token) : Except ReadingError Expr :=
  match reader.run .expression tokens with
  | (.ok phrase, []) => .ok phrase
  | (.ok _, token :: _) => .error (.expected .endOfInput token.kind)
  | (.error error, _) => .error error

theorem ofTokens_eq_verdict (tokens : List Token) :
    ofTokens tokens = verdict (.wanted []) (Token.content tokens) := by
  unfold ofTokens readWhole readPhrase verdict
  rcases Reader.run .expression (.wanted []) (Token.content tokens) with ⟨result, left⟩
  cases result with
  | error error => rfl
  | ok phrase => cases left <;> rfl

theorem verdict_nil (reader : Reader) : verdict reader [] = reader.finish .expression := by
  unfold verdict
  rw [Reader.run]
  cases reader.finish .expression <;> rfl

theorem verdict_cons (reader : Reader) (token : Token) (tokens : List Token) :
    verdict reader (token :: tokens) =
      match reader.answer .expression token with
      | .taken next => verdict next tokens
      | .complete _ => .error (.expected .endOfInput token.kind)
      | .failed error => .error error := by
  unfold verdict
  rw [Reader.run]
  cases reader.answer .expression token <;> rfl

/-! ### Heights -/

theorem height_le_heights {phrase : Expr} {phrases : List Expr} (member : phrase ∈ phrases) :
    phrase.height ≤ heights phrases := by
  induction phrases with
  | nil => cases member
  | cons first others ih =>
      rw [heights]
      rcases List.mem_cons.mp member with here | later
      · subst here
        exact Nat.le_max_left _ _
      · exact Nat.le_trans (ih later) (Nat.le_max_right _ _)

theorem height_lt_call {phrase callee : Expr} {arguments : List Expr}
    (member : phrase ∈ arguments) : phrase.height < (Expr.call callee arguments).height := by
  have bounded := height_le_heights member
  rw [height]
  omega

/-! ### Frames that the next token closes -/

def StopsCalls (tokens : List Token) : Prop :=
  ∀ token ∈ tokens.head?, token.kind ≠ .leftParen

theorem stopsCalls_cons {token : Token} {tokens : List Token} {kind : Token.Kind}
    (known : token.kind = kind) (other : kind ≠ .leftParen) : StopsCalls (token :: tokens) := by
  intro first same
  cases same
  rw [known]
  exact other

theorem settle_tooDeep {outermost : Level} {frames : List Frame} {phrase : Expr}
    (kind : Token.Kind) (high : limit < phrase.height) :
    Reader.settle outermost kind frames phrase = .error .tooDeep := by
  unfold Reader.settle
  rw [if_pos high]

theorem settle_negation {outermost : Level} {kind : Token.Kind} (operator : Token)
    (frames : List Frame) (phrase : Expr) (other : kind ≠ .leftParen) :
    Reader.settle outermost kind (.negation operator :: frames) phrase =
      Reader.settle outermost kind frames (.unary operator phrase) := by
  by_cases high : limit < phrase.height
  · have higher : limit < (Expr.unary operator phrase).height := by rw [height]; omega
    rw [settle_tooDeep kind high, settle_tooDeep kind higher]
  · have refused : Level.operand.admits kind = false := by
      cases kind <;> first | rfl | exact absurd rfl other
    rw [Reader.settle, if_neg high]
    simp [Frame.levelInside, refused]

theorem settle_junction {outermost : Level} {kind : Token.Kind} (operator : Token) (lhs : Expr)
    (frames : List Frame) (phrase : Expr) (other : kind ≠ .leftParen) :
    Reader.settle outermost kind (.junction operator lhs :: frames) phrase =
      Reader.settle outermost kind frames (.binary operator lhs phrase) := by
  by_cases high : limit < phrase.height
  · have higher : limit < (Expr.binary operator lhs phrase).height := by rw [height]; omega
    rw [settle_tooDeep kind high, settle_tooDeep kind higher]
  · have refused : Level.operand.admits kind = false := by
      cases kind <;> first | rfl | exact absurd rfl other
    rw [Reader.settle, if_neg high]
    simp [Frame.levelInside, refused]

/-- No frame ends before a token of this kind. -/
def Stays (kind : Token.Kind) (frames : List Frame) : Prop :=
  (Frame.levelInside .expression frames).admits kind = true ∨
    match frames with
    | .negation _ :: _ => False
    | .junction _ _ :: _ => False
    | _ => True

theorem settle_unchanged {kind : Token.Kind} {frames : List Frame} {phrase : Expr}
    (low : phrase.height ≤ limit) (stays : Stays kind frames) :
    Reader.settle .expression kind frames phrase = .ok (frames, phrase) := by
  unfold Reader.settle
  rw [if_neg (Nat.not_lt.mpr low)]
  by_cases admitted : (Frame.levelInside .expression frames).admits kind = true
  · rw [if_pos admitted]
  · rw [if_neg admitted]
    have last := stays.resolve_left admitted
    cases frames with
    | nil => rfl
    | cons frame outer =>
        cases frame with
        | group => rfl
        | negation operator => exact last.elim
        | junction operator lhs => exact last.elim
        | argument callee earlier => rfl

/-- What settling did when it did not meet the limit: nothing, or it closed the innermost frame
and went on. -/
theorem settle_cases {kind : Token.Kind} {frames outer : List Frame} {phrase settled : Expr}
    (closed : Reader.settle .expression kind frames phrase = .ok (outer, settled)) :
    phrase.height ≤ limit ∧
      ((Stays kind frames ∧ outer = frames ∧ settled = phrase) ∨
        (∃ operator inner, frames = .negation operator :: inner ∧
          Reader.settle .expression kind inner (.unary operator phrase) = .ok (outer, settled)) ∨
        (∃ operator lhs inner, frames = .junction operator lhs :: inner ∧
          Reader.settle .expression kind inner (.binary operator lhs phrase) =
            .ok (outer, settled))) := by
  unfold Reader.settle at closed
  by_cases high : limit < phrase.height
  · rw [if_pos high] at closed
    cases closed
  · rw [if_neg high] at closed
    refine ⟨Nat.not_lt.mp high, ?_⟩
    by_cases admitted : (Frame.levelInside .expression frames).admits kind = true
    · rw [if_pos admitted] at closed
      cases closed
      exact .inl ⟨.inl admitted, rfl, rfl⟩
    · rw [if_neg admitted] at closed
      cases frames with
      | nil =>
          cases closed
          exact .inl ⟨.inr trivial, rfl, rfl⟩
      | cons frame inner =>
          cases frame with
          | group =>
              cases closed
              exact .inl ⟨.inr trivial, rfl, rfl⟩
          | negation operator => exact .inr (.inl ⟨operator, inner, rfl, closed⟩)
          | junction operator lhs => exact .inr (.inr ⟨operator, lhs, inner, rfl, closed⟩)
          | argument callee earlier =>
              cases closed
              exact .inl ⟨.inr trivial, rfl, rfl⟩

theorem verdict_held_congr {frames frames' : List Frame} {phrase phrase' : Expr}
    {tokens : List Token} (stops : StopsCalls tokens)
    (same : ∀ kind, kind ≠ .leftParen →
      Reader.settle .expression kind frames phrase =
        Reader.settle .expression kind frames' phrase') :
    verdict (.held frames phrase) tokens = verdict (.held frames' phrase') tokens := by
  cases tokens with
  | nil =>
      rw [verdict_nil, verdict_nil, Reader.finish, Reader.finish]
      rw [same .endOfInput (by decide)]
  | cons token others =>
      rw [verdict_cons, verdict_cons, Reader.answer, Reader.answer]
      rw [same token.kind (stops token rfl)]

theorem verdict_negation (operator : Token) (frames : List Frame) (phrase : Expr)
    {tokens : List Token} (stops : StopsCalls tokens) :
    verdict (.held (.negation operator :: frames) phrase) tokens =
      verdict (.held frames (.unary operator phrase)) tokens :=
  verdict_held_congr stops fun _ other => settle_negation operator frames phrase other

theorem verdict_junction (operator : Token) (lhs : Expr) (frames : List Frame) (phrase : Expr)
    {tokens : List Token} (stops : StopsCalls tokens) :
    verdict (.held (.junction operator lhs :: frames) phrase) tokens =
      verdict (.held frames (.binary operator lhs phrase)) tokens :=
  verdict_held_congr stops fun _ other => settle_junction operator lhs frames phrase other

/-! ### Single tokens -/

theorem verdict_held_tooDeep (frames : List Frame) {phrase : Expr} (tokens : List Token)
    (high : limit < phrase.height) :
    verdict (.held frames phrase) tokens = .error .tooDeep := by
  cases tokens with
  | nil => rw [verdict_nil, Reader.finish, settle_tooDeep _ high]
  | cons token others => rw [verdict_cons, Reader.answer, settle_tooDeep _ high]

theorem admits_leftParen (frames : List Frame) :
    (Frame.levelInside .expression frames).admits .leftParen = true := by
  cases frames with
  | nil => rfl
  | cons frame outer => cases frame <;> rfl

theorem verdict_begin {frames : List Frame} {token : Token} {next : Reader} (tokens : List Token)
    (begins : frames.length < limit → Reader.begin frames token = .taken next) :
    verdict (.wanted frames) (token :: tokens) =
      if frames.length + 1 ≤ limit then verdict next tokens else .error .tooDeep := by
  rw [verdict_cons, Reader.answer]
  by_cases room : frames.length < limit
  · rw [if_pos (Nat.succ_le_of_lt room), begins room]
  · rw [if_neg (mt Nat.lt_of_succ_le room), Reader.begin, if_pos (Nat.not_lt.mp room)]

theorem verdict_identifier (frames : List Frame) {token : Token} (tokens : List Token)
    (named : token.kind = .identifier) :
    verdict (.wanted frames) (token :: tokens) =
      if frames.length + 1 ≤ limit then verdict (.held frames (.identifier token.text)) tokens
      else .error .tooDeep := by
  apply verdict_begin
  intro room
  rw [Reader.begin, if_neg (Nat.not_le.mpr room), named]

theorem verdict_group_opening (frames : List Frame) {opening : Token} (tokens : List Token)
    (opens : opening.kind = .leftParen) :
    verdict (.wanted frames) (opening :: tokens) =
      if frames.length + 1 ≤ limit then verdict (.wanted (.group :: frames)) tokens
      else .error .tooDeep := by
  apply verdict_begin
  intro room
  rw [Reader.begin, if_neg (Nat.not_le.mpr room), opens]

theorem verdict_not (frames : List Frame) {operator : Token} (tokens : List Token)
    (negates : operator.kind = .not) :
    verdict (.wanted frames) (operator :: tokens) =
      if frames.length + 1 ≤ limit then verdict (.wanted (.negation operator :: frames)) tokens
      else .error .tooDeep := by
  apply verdict_begin
  intro room
  rw [Reader.begin, if_neg (Nat.not_le.mpr room), negates]

theorem verdict_group_closing (frames : List Frame) (phrase : Expr) {closing : Token}
    (tokens : List Token) (closes : closing.kind = .rightParen) :
    verdict (.held (.group :: frames) phrase) (closing :: tokens) =
      verdict (.held frames phrase) tokens := by
  by_cases high : limit < phrase.height
  · rw [verdict_held_tooDeep _ _ high, verdict_held_tooDeep _ _ high]
  · have settled : Reader.settle .expression .rightParen (.group :: frames) phrase =
        .ok (.group :: frames, phrase) :=
      settle_unchanged (Nat.not_lt.mp high) (.inr trivial)
    rw [verdict_cons, Reader.answer, closes, settled]
    simp [Reader.extend, Frame.levelInside, Level.admits, closes]

theorem verdict_junction_operator {frames : List Frame} {lhs : Expr} {operator : Token}
    (tokens : List Token) (level : Frame.levelInside .expression frames = .expression)
    (joins : operator.kind = .and ∨ operator.kind = .or) (low : lhs.height ≤ limit) :
    verdict (.held frames lhs) (operator :: tokens) =
      verdict (.wanted (.junction operator lhs :: frames)) tokens := by
  have admitted : (Frame.levelInside .expression frames).admits operator.kind = true := by
    rw [level]
    rcases joins with joins | joins <;> rw [joins] <;> rfl
  have noCall : operator.kind ≠ .leftParen := by
    rcases joins with joins | joins <;> rw [joins] <;> decide
  rw [verdict_cons, Reader.answer, settle_unchanged low (.inl admitted)]
  simp [Reader.extend, admitted, noCall]

theorem verdict_call_opening (frames : List Frame) {callee : Expr} {opening : Token}
    (tokens : List Token) (opens : opening.kind = .leftParen) (low : callee.height ≤ limit) :
    verdict (.held frames callee) (opening :: tokens) = verdict (.opened frames callee) tokens := by
  rw [verdict_cons, Reader.answer, opens, settle_unchanged low (.inl (admits_leftParen frames))]
  simp [Reader.extend, opens, admits_leftParen]

theorem verdict_emptyCall_closing (frames : List Frame) (callee : Expr) {closing : Token}
    (tokens : List Token) (closes : closing.kind = .rightParen) :
    verdict (.opened frames callee) (closing :: tokens) =
      verdict (.held frames (.call callee [])) tokens := by
  rw [verdict_cons, Reader.answer, if_pos closes]

theorem verdict_opened (frames : List Frame) (callee : Expr) {first : Token}
    (tokens : List Token) (begins : first.kind ≠ .rightParen) :
    verdict (.opened frames callee) (first :: tokens) =
      verdict (.wanted (.argument callee [] :: frames)) (first :: tokens) := by
  have same : Reader.answer .expression (.opened frames callee) first =
      Reader.answer .expression (.wanted (.argument callee [] :: frames)) first :=
    if_neg begins
  rw [verdict_cons, verdict_cons, same]

theorem verdict_comma {frames : List Frame} {callee argument : Expr} {earlier : List Expr}
    {comma : Token} (tokens : List Token) (separates : comma.kind = .comma)
    (low : argument.height ≤ limit) :
    verdict (.held (.argument callee earlier :: frames) argument) (comma :: tokens) =
      verdict (.wanted (.argument callee (argument :: earlier) :: frames)) tokens := by
  have settled : Reader.settle .expression .comma (.argument callee earlier :: frames) argument =
      .ok (.argument callee earlier :: frames, argument) :=
    settle_unchanged low (.inr trivial)
  rw [verdict_cons, Reader.answer, separates, settled]
  simp [Reader.extend, Frame.levelInside, Level.admits, separates]

theorem verdict_call_closing (frames : List Frame) (callee argument : Expr)
    (earlier : List Expr) {closing : Token} (tokens : List Token)
    (closes : closing.kind = .rightParen) :
    verdict (.held (.argument callee earlier :: frames) argument) (closing :: tokens) =
      verdict (.held frames (.call callee (earlier.reverse ++ [argument]))) tokens := by
  by_cases high : limit < argument.height
  · have lower : argument.height < (Expr.call callee (earlier.reverse ++ [argument])).height :=
      height_lt_call (List.mem_append_right _ (List.mem_singleton_self argument))
    rw [verdict_held_tooDeep _ _ high, verdict_held_tooDeep _ _ (Nat.lt_trans high lower)]
  · have settled :
        Reader.settle .expression .rightParen (.argument callee earlier :: frames) argument =
          .ok (.argument callee earlier :: frames, argument) :=
      settle_unchanged (Nat.not_lt.mp high) (.inr trivial)
    rw [verdict_cons, Reader.answer, closes, settled]
    simp [Reader.extend, Frame.levelInside, Level.admits, closes]

/-! ### Whole phrases -/

theorem within_both {left total : Nat} (right : Nat) {first whole : Except ReadingError Expr}
    (both : total ≤ limit ↔ left ≤ limit ∧ right ≤ limit)
    (second : first = if right ≤ limit then whole else .error .tooDeep) :
    (if left ≤ limit then first else .error .tooDeep) =
      if total ≤ limit then whole else .error .tooDeep := by
  by_cases room : left ≤ limit
  · rw [if_pos room, second]
    simp only [both, room, true_and]
  · rw [if_neg room, if_neg fun all => room (both.mp all).1]

mutual

-- The induction follows the derivation of the phrase.  It is stated for any open frames and any
-- tokens after the phrase, and the limit on heights needs no case of its own: a part that is too
-- high makes the whole too high, so both sides answer alike.

theorem Junction.read {tokens : List Token} {phrase : Expr} {need : Nat} :
    Junction tokens phrase need → ∀ (frames : List Frame) (rest : List Token),
      Frame.levelInside .expression frames = .expression → StopsCalls rest →
        verdict (.wanted frames) (tokens ++ rest) =
          if frames.length + need ≤ limit then verdict (.held frames phrase) rest
          else .error .tooDeep
  | .operand content => fun frames rest _ stops => content.read frames rest stops
  | @Junction.junction operator left right lhs rhs leftNeed rightNeed joins first second => by
      intro frames rest level stops
      have noCall : StopsCalls (operator :: (right ++ rest)) := by
        rcases joins with joins | joins
        · exact stopsCalls_cons joins (by decide)
        · exact stopsCalls_cons joins (by decide)
      rw [List.append_assoc, List.cons_append, first.read frames _ level noCall]
      apply within_both ((Frame.junction operator lhs :: frames).length + rightNeed)
      · rw [List.length_cons]
        omega
      by_cases high : limit < lhs.height
      · have higher : limit < (Expr.binary operator lhs rhs).height := by rw [height]; omega
        rw [verdict_held_tooDeep _ _ high, verdict_held_tooDeep _ _ higher, ite_self]
      · rw [verdict_junction_operator _ level joins (Nat.not_lt.mp high),
          second.read _ rest stops, verdict_junction _ _ _ _ stops]

theorem Operand.read {tokens : List Token} {phrase : Expr} {need : Nat} :
    Operand tokens phrase need → ∀ (frames : List Frame) (rest : List Token), StopsCalls rest →
      verdict (.wanted frames) (tokens ++ rest) =
        if frames.length + need ≤ limit then verdict (.held frames phrase) rest
        else .error .tooDeep
  | @Operand.negation operator inner operand need negates content => by
      intro frames rest stops
      rw [List.cons_append, verdict_not _ _ negates]
      apply within_both ((Frame.negation operator :: frames).length + need)
      · rw [List.length_cons]
        omega
      rw [content.read _ rest stops, verdict_negation _ _ _ stops]
  | .callable content => fun frames rest _ => content.read frames rest

theorem Callable.read {tokens : List Token} {phrase : Expr} {need : Nat} :
    Callable tokens phrase need → ∀ (frames : List Frame) (rest : List Token),
      verdict (.wanted frames) (tokens ++ rest) =
        if frames.length + need ≤ limit then verdict (.held frames phrase) rest
        else .error .tooDeep
  | .primary content => content.read
  | @Callable.emptyCall opening closing left callee need opens closes first => by
      intro frames rest
      rw [List.append_assoc, first.read frames]
      by_cases high : limit < callee.height
      · have higher : limit < (Expr.call callee []).height := by rw [height]; omega
        rw [verdict_held_tooDeep _ _ high, verdict_held_tooDeep _ _ higher]
      · have called : verdict (.held frames callee) ([opening, closing] ++ rest) =
            verdict (.held frames (.call callee [])) rest := by
          rw [List.cons_append, verdict_call_opening _ _ opens (Nat.not_lt.mp high)]
          exact verdict_emptyCall_closing frames callee rest closes
        rw [called]
  | @Callable.call opening closing left inner callee arguments leftNeed innerNeed opens closes
      first second => by
      intro frames rest
      obtain ⟨token, others, rfl, begins⟩ := second.begins
      rw [List.append_assoc, first.read frames]
      apply within_both (frames.length + 1 + innerNeed)
      · omega
      by_cases high : limit < callee.height
      · have higher : limit < (Expr.call callee arguments).height := by rw [height]; omega
        rw [verdict_held_tooDeep _ _ high, verdict_held_tooDeep _ _ higher, ite_self]
      · rw [List.cons_append, verdict_call_opening _ _ opens (Nat.not_lt.mp high),
          List.append_assoc, List.cons_append, verdict_opened _ _ _ begins,
          ← List.cons_append, List.singleton_append,
          second.read frames callee [] closing rest closes, List.reverse_nil, List.nil_append]

theorem Arguments.read {tokens : List Token} {arguments : List Expr} {need : Nat} :
    Arguments tokens arguments need → ∀ (frames : List Frame) (callee : Expr)
      (earlier : List Expr) (closing : Token) (rest : List Token), closing.kind = .rightParen →
        verdict (.wanted (.argument callee earlier :: frames)) (tokens ++ closing :: rest) =
          if frames.length + 1 + need ≤ limit then
            verdict (.held frames (.call callee (earlier.reverse ++ arguments))) rest
          else .error .tooDeep
  | .last content => by
      intro frames callee earlier closing rest closes
      rw [content.read _ _ (stopsCalls_cons closes (by decide)), List.length_cons,
        verdict_call_closing _ _ _ _ _ closes]
  | @Arguments.more comma left right argument others leftNeed rightNeed separates first second => by
      intro frames callee earlier closing rest closes
      rw [List.append_assoc, List.cons_append,
        first.read _ _ (stopsCalls_cons separates (by decide)), List.length_cons]
      apply within_both (frames.length + 1 + rightNeed)
      · omega
      by_cases high : limit < argument.height
      · have lower : argument.height <
            (Expr.call callee (earlier.reverse ++ argument :: others)).height :=
          height_lt_call (List.mem_append_right _ List.mem_cons_self)
        rw [verdict_held_tooDeep _ _ high, verdict_held_tooDeep _ _ (Nat.lt_trans high lower),
          ite_self]
      · have listed : (argument :: earlier).reverse ++ others =
            earlier.reverse ++ argument :: others := by simp
        rw [verdict_comma _ separates (Nat.not_lt.mp high),
          second.read frames callee _ closing rest closes, listed]

theorem Primary.read {tokens : List Token} {phrase : Expr} {need : Nat} :
    Primary tokens phrase need → ∀ (frames : List Frame) (rest : List Token),
      verdict (.wanted frames) (tokens ++ rest) =
        if frames.length + need ≤ limit then verdict (.held frames phrase) rest
        else .error .tooDeep
  | .identifier token named => by
      intro frames rest
      exact verdict_identifier frames rest named
  | @Primary.group opening closing inner phrase need opens closes content => by
      intro frames rest
      rw [List.cons_append, List.append_assoc, verdict_group_opening _ _ opens]
      apply within_both ((Frame.group :: frames).length + need)
      · rw [List.length_cons]
        omega
      rw [List.singleton_append, content.read _ _ rfl (stopsCalls_cons closes (by decide)),
        verdict_group_closing _ _ _ closes]

end

theorem Junction.verdict {tokens : List Token} {phrase : Expr} {need : Nat}
    (sentence : Junction tokens phrase need) :
    verdict (.wanted []) tokens =
      if need ≤ limit ∧ phrase.height ≤ limit then .ok phrase else .error .tooDeep := by
  have reading := sentence.read [] [] rfl (by intro token absent; cases absent)
  rw [List.append_nil, List.length_nil, Nat.zero_add] at reading
  rw [reading]
  by_cases room : need ≤ limit
  · rw [if_pos room]
    by_cases low : phrase.height ≤ limit
    · rw [if_pos ⟨room, low⟩, verdict_nil, Reader.finish, settle_unchanged low (.inr trivial)]
    · rw [verdict_held_tooDeep _ _ (Nat.not_le.mp low), if_neg (fun both => low both.2)]
  · rw [if_neg room, if_neg (fun both => room both.1)]

/-- A sentence is read to its tree when both limits admit it, and is too deep otherwise. -/
theorem Junction.ofTokens {tokens : List Token} {phrase : Expr} {need : Nat}
    (sentence : Junction (Token.content tokens) phrase need) :
    ofTokens tokens =
      if need ≤ limit ∧ phrase.height ≤ limit then .ok phrase else .error .tooDeep := by
  rw [ofTokens_eq_verdict, sentence.verdict]

end Grammar
end Permission
