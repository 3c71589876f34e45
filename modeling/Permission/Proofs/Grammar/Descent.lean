import Permission.Proofs.Grammar.Tracking

/-!
# Descending into phrases

A parser that descends into the open phrases reads what a reader with frames reads.  Where the
parser stands inside of a phrase, the reader has a frame for each phrase that is open around it; a
frame that is closed only by the next token is closed there at once, which tells nothing apart.
The descent always comes to an answer, since neither the levels nor the rounds run out.
-/

set_option autoImplicit false

namespace Permission

open Permission.Expr

def Power.level : Power → Level
  | .lowest => .expression
  | .comma => .expression
  | .logical => .operand
  | .unary => .operand
  | .call => .primary

theorem Power.admits_level (power : Power) (kind : Token.Kind) :
    power.level.admits kind = true ↔
      ∃ next, Power.continuing? kind = some next ∧ power.rank < next.rank := by
  cases power <;> cases kind <;> simp [Power.level, Level.admits, Power.continuing?, Power.rank]

namespace Grammar

/-! ### Answers of a reader -/

section

variable {outermost : Level} {frames : List Frame} {phrase : Expr} {token : Token}

theorem begin_unexpected {kind : Token.Kind} (room : frames.length < limit)
    (known : token.kind = kind) (noName : kind ≠ .identifier) (noGroup : kind ≠ .leftParen)
    (noNegation : kind ≠ .not) : Reader.begin frames token = .failed (.unexpected kind) := by
  rw [Reader.begin, if_neg (Nat.not_le.mpr room), known]
  cases kind <;> first | rfl | contradiction

theorem answer_tooHigh (high : limit < phrase.height) :
    Reader.answer outermost (.held frames phrase) token = .failed .tooDeep := by
  rw [Reader.answer, settle_tooDeep token.kind high]

theorem answer_admitted (low : phrase.height ≤ limit)
    (admitted : (Frame.levelInside outermost frames).admits token.kind = true) :
    Reader.answer outermost (.held frames phrase) token =
      if token.kind = .leftParen then .taken (.opened frames phrase)
      else .taken (.wanted (.junction token phrase :: frames)) := by
  have settled : Reader.settle outermost token.kind frames phrase = .ok (frames, phrase) := by
    unfold Reader.settle
    rw [if_neg (Nat.not_lt.mpr low), if_pos admitted]
  rw [Reader.answer, settled]
  exact if_pos admitted

theorem answer_outermost (low : phrase.height ≤ limit)
    (ends : outermost.admits token.kind = false) :
    Reader.answer outermost (.held [] phrase) token = .complete phrase := by
  have refused : ¬ (Frame.levelInside outermost []).admits token.kind = true := by
    rw [Frame.levelInside, ends]
    exact Bool.false_ne_true
  have settled : Reader.settle outermost token.kind [] phrase = .ok ([], phrase) := by
    unfold Reader.settle
    rw [if_neg (Nat.not_lt.mpr low), if_neg refused]
  rw [Reader.answer, settled]
  exact if_neg refused

theorem settle_enclosed {kind : Token.Kind} {frame : Frame}
    (encloses : frame = .group ∨ ∃ callee earlier, frame = .argument callee earlier)
    (low : phrase.height ≤ limit) :
    Reader.settle outermost kind (frame :: frames) phrase = .ok (frame :: frames, phrase) := by
  unfold Reader.settle
  rw [if_neg (Nat.not_lt.mpr low)]
  split
  · rfl
  · rcases encloses with rfl | ⟨callee, earlier, rfl⟩ <;> rfl

theorem answer_group (low : phrase.height ≤ limit)
    (ends : Level.expression.admits token.kind = false) :
    Reader.answer outermost (.held (.group :: frames) phrase) token =
      if token.kind = .rightParen then .taken (.held frames phrase)
      else .failed (.expected .rightParen token.kind) := by
  rw [Reader.answer, settle_enclosed (.inl rfl) low]
  simp only [Reader.extend, Frame.levelInside, ends]
  cases token.kind <;> rfl

theorem answer_argument {callee : Expr} {earlier : List Expr} (low : phrase.height ≤ limit)
    (ends : Level.operand.admits token.kind = false) :
    Reader.answer outermost (.held (.argument callee earlier :: frames) phrase) token =
      if token.kind = .comma then .taken (.wanted (.argument callee (phrase :: earlier) :: frames))
      else if token.kind = .rightParen then
        .taken (.held frames (.call callee (phrase :: earlier).reverse))
      else .failed (.expected .rightParen token.kind) := by
  rw [Reader.answer, settle_enclosed (.inr ⟨callee, earlier, rfl⟩) low]
  simp only [Reader.extend, Frame.levelInside, ends]
  cases token.kind <;> rfl

end

end Grammar

namespace Parser

open Grammar

variable {outermost : Level} {whole : Except ReadingError Expr × List Token}
  {frames : List Frame} {unread : List Token} {depth : Nat} {inner : Power → Parsing Expr}

/-- The reader holds the phrase inside of the frames, and has fewer tokens left than at first. -/
structure Holds (outermost : Level) (whole : Except ReadingError Expr × List Token)
    (frames : List Frame) (first : List Token) (phrase : Expr) (left : List Token) : Prop where
  shorter : left.length < first.length
  same : whole = Reader.run outermost (.held frames phrase) left

/-- The phrase that the reader holds is not too high and ends before the tokens that are left. -/
structure Completes (outermost : Level) (whole : Except ReadingError Expr × List Token)
    (frames : List Frame) (first : List Token) (phrase : Expr) (left : List Token) : Prop
    extends Holds outermost whole frames first phrase left where
  low : phrase.height ≤ limit
  ends : (Frame.levelInside outermost frames).admits (nextToken left).kind = false

/-- With so many phrases open, the action finds each phrase that a reader wants there. -/
def Finds (outermost : Level) (depth : Nat) (inner : Power → Parsing Expr) : Prop :=
  ∀ (power : Power) (whole : Except ReadingError Expr × List Token) (frames : List Frame)
    (unread : List Token), frames.length = depth →
    Frame.levelInside outermost frames = power.level →
    whole = Reader.run outermost (.wanted frames) unread →
    Tracks whole (inner power) depth unread (Completes outermost whole frames unread)

theorem nextToken_cons {kind : Token.Kind} (next : (nextToken unread).kind = kind)
    (proper : kind ≠ .endOfInput) :
    ∃ token others, unread = token :: others ∧ token.kind = kind := by
  cases unread with
  | nil => exact absurd next.symm proper
  | cons token others => exact ⟨token, others, rfl, next⟩

/-! ### Parentheses that close -/

/-- The next token is the parenthesis with which the reader comes to hold the phrase, or it is
refused in the place of one. -/
def Closes (outermost : Level) (whole : Except ReadingError Expr × List Token)
    (frames : List Frame) (phrase : Expr) (left : List Token) : Prop :=
  ∃ reader : Reader, whole = reader.run outermost left ∧
    reader.answer outermost (nextToken left) =
      if (nextToken left).kind = .rightParen then .taken (.held frames phrase)
      else .failed (.expected .rightParen (nextToken left).kind)

theorem tracks_closing {first : List Token} {phrase : Expr}
    (closes : Closes outermost whole frames phrase unread)
    (shorter : unread.length ≤ first.length) :
    Tracks whole (do let _ ← expect .rightParen; return phrase) depth unread
      (Holds outermost whole frames first) := by
  obtain ⟨reader, here, answered⟩ := closes
  refine (Tracks.expect (by decide) fun other => ?_).bind ?_
  · exact here.trans (run_failed (answered.trans (if_neg other)))
  · rintro closing left - ⟨rfl, known⟩
    exact Tracks.pure ⟨shorter, here.trans (run_taken (answered.trans (if_pos known)))⟩

/-! ### What a phrase begins with -/

theorem tracks_name (room : frames.length < limit)
    (begins : (nextToken unread).kind = .identifier)
    (here : whole = Reader.run outermost (.wanted frames) unread) :
    Tracks whole name depth unread (Holds outermost whole frames unread) := by
  refine (Tracks.expect (by decide) fun other => absurd begins other).bind ?_
  rintro token left - ⟨rfl, named⟩
  refine Tracks.pure ⟨Nat.lt_succ_self left.length, here.trans (run_taken ?_)⟩
  rw [Reader.answer, Reader.begin, if_neg (Nat.not_le.mpr room), named]

theorem tracks_group (inside : Finds outermost depth inner) (deep : frames.length + 1 = depth)
    (room : frames.length < limit) (begins : (nextToken unread).kind = .leftParen)
    (here : whole = Reader.run outermost (.wanted frames) unread) :
    Tracks whole (group inner) depth unread (Holds outermost whole frames unread) := by
  refine (Tracks.expect (by decide) fun other => absurd begins other).bind ?_
  rintro opening rest - ⟨rfl, opens⟩
  have opened : whole = Reader.run outermost (.wanted (.group :: frames)) rest := by
    refine here.trans (run_taken ?_)
    rw [Reader.answer, Reader.begin, if_neg (Nat.not_le.mpr room), opens]
  refine (inside .lowest whole (.group :: frames) rest deep rfl opened).bind ?_
  intro content left _ complete
  apply tracks_closing ⟨_, complete.same, answer_group complete.low complete.ends⟩
  exact Nat.le_succ_of_le (Nat.le_of_lt complete.shorter)

theorem Completes.close {frame : Frame} {first left : List Token} {operand phrase : Expr}
    (complete : Completes outermost whole (frame :: frames) first operand left)
    (inside : Frame.levelInside outermost (frame :: frames) = .operand)
    (closes : ∀ kind, kind ≠ .leftParen →
      Reader.settle outermost kind (frame :: frames) operand =
        Reader.settle outermost kind frames phrase) :
    whole = Reader.run outermost (.held frames phrase) left := by
  have noCall : (nextToken left).kind ≠ .leftParen := by
    intro opens
    have ends := complete.ends
    rw [inside, opens] at ends
    cases ends
  refine complete.same.trans (run_congr ?_)
  rw [Reader.answer, Reader.answer, closes _ noCall]

theorem tracks_negation (inside : Finds outermost depth inner) (deep : frames.length + 1 = depth)
    (room : frames.length < limit) (begins : (nextToken unread).kind = .not)
    (here : whole = Reader.run outermost (.wanted frames) unread) :
    Tracks whole (negation inner) depth unread (Holds outermost whole frames unread) := by
  obtain ⟨operator, rest, rfl, negates⟩ := nextToken_cons begins (by decide)
  have opened : whole = Reader.run outermost (.wanted (.negation operator :: frames)) rest := by
    refine here.trans (run_taken ?_)
    rw [Reader.answer, Reader.begin, if_neg (Nat.not_le.mpr room), negates]
  have found := inside .unary whole (.negation operator :: frames) rest deep rfl opened
  refine Tracks.take (found.bind ?_)
  intro operand left _ complete
  refine Tracks.pure ⟨Nat.lt_succ_of_lt complete.shorter, ?_⟩
  exact complete.close rfl fun kind other => settle_negation operator frames operand other

/-! ### Continuations -/

theorem tracks_checked {phrase : Expr}
    (here : whole = Reader.run outermost (.held frames phrase) unread) :
    Tracks whole (checked phrase) depth unread fun value left =>
      value = phrase ∧ left = unread ∧ phrase.height ≤ limit := by
  unfold checked
  by_cases high : limit < phrase.height
  · rw [if_pos high]
    exact Tracks.throw (here.trans (run_failed (answer_tooHigh high)))
  · rw [if_neg high]
    exact Tracks.pure ⟨rfl, rfl, Nat.not_lt.mp high⟩

theorem tracks_junction (inside : Finds outermost depth inner) (deep : frames.length + 1 = depth)
    {lhs : Expr} (low : lhs.height ≤ limit)
    (admitted : (Frame.levelInside outermost frames).admits (nextToken unread).kind = true)
    (noCall : (nextToken unread).kind ≠ .leftParen)
    (here : whole = Reader.run outermost (.held frames lhs) unread) :
    Tracks whole (junction inner lhs) depth unread (Holds outermost whole frames unread) := by
  have proper : (nextToken unread).kind ≠ .endOfInput := by
    intro ended
    rw [ended] at admitted
    cases level : Frame.levelInside outermost frames <;> rw [level] at admitted <;> cases admitted
  obtain ⟨operator, rest, rfl, -⟩ := nextToken_cons rfl proper
  have opened : whole = Reader.run outermost (.wanted (.junction operator lhs :: frames)) rest :=
    here.trans (run_taken ((answer_admitted low admitted).trans (if_neg noCall)))
  have found := inside .logical whole (.junction operator lhs :: frames) rest deep rfl opened
  refine Tracks.take (found.bind ?_)
  intro rhs left _ complete
  refine Tracks.pure ⟨Nat.lt_succ_of_lt complete.shorter, ?_⟩
  exact complete.close rfl fun kind other => settle_junction operator lhs frames rhs other

theorem tracks_arguments (inside : Finds outermost depth inner) (deep : frames.length + 1 = depth)
    {callee : Expr} (rounds : Nat) (earlier : List Expr) (enough : unread.length < rounds)
    (here : whole = Reader.run outermost (.wanted (.argument callee earlier :: frames)) unread) :
    Tracks whole (arguments inner rounds earlier) depth unread fun list =>
      Closes outermost whole frames (.call callee list) := by
  -- A round that goes on has taken an argument and a comma, so the rounds outlast the tokens.
  induction rounds generalizing earlier unread with
  | zero => exact absurd enough (Nat.not_lt_zero _)
  | succ rounds ih =>
      have found := inside .logical whole (.argument callee earlier :: frames) unread deep rfl here
      refine found.bind ?_
      intro argument left _ complete
      have answered : Reader.answer outermost (.held (.argument callee earlier :: frames) argument)
          (nextToken left) = _ := answer_argument complete.low complete.ends
      refine Tracks.look fun token kind => ?_
      rw [kind]
      by_cases separates : (nextToken left).kind = .comma
      · rw [if_pos separates]
        obtain ⟨comma, rest, rfl, -⟩ := nextToken_cons separates (by decide)
        refine Tracks.take (ih (argument :: earlier) ?_ ?_)
        · have shorter := complete.shorter
          rw [List.length_cons] at shorter
          omega
        · exact complete.same.trans (run_taken (answered.trans (if_pos separates)))
      · rw [if_neg separates]
        exact Tracks.pure ⟨_, complete.same, answered.trans (if_neg separates)⟩

theorem tracks_call (inside : Finds outermost depth inner) (deep : frames.length + 1 = depth)
    {callee : Expr} (low : callee.height ≤ limit) (begins : (nextToken unread).kind = .leftParen)
    (admitted : (Frame.levelInside outermost frames).admits .leftParen = true)
    (here : whole = Reader.run outermost (.held frames callee) unread) :
    Tracks whole (call inner callee) depth unread (Holds outermost whole frames unread) := by
  refine (Tracks.expect (by decide) fun other => absurd begins other).bind ?_
  rintro opening rest - ⟨rfl, opens⟩
  have opened : whole = Reader.run outermost (.opened frames callee) rest := by
    refine here.trans (run_taken ((answer_admitted low ?_).trans (if_pos opens)))
    rw [opens]
    exact admitted
  have close : ∀ list left, left.length ≤ rest.length →
      Closes outermost whole frames (.call callee list) left →
      Tracks whole (do let _ ← expect .rightParen; return .call callee list) depth left
        (Holds outermost whole frames (opening :: rest)) :=
    fun list left shorter closes => tracks_closing closes (Nat.le_succ_of_le shorter)
  refine Tracks.look fun token kind => ?_
  rw [kind]
  by_cases empty : (nextToken rest).kind = .rightParen
  · rw [if_pos empty, pure_bind]
    refine close [] rest (Nat.le_refl _) ⟨_, opened, ?_⟩
    rw [if_pos empty]
    exact if_pos empty
  · rw [if_neg empty]
    have begun : whole = Reader.run outermost (.wanted (.argument callee [] :: frames)) rest :=
      opened.trans (run_congr (if_neg empty))
    refine Tracks.count fun parser enough => ?_
    exact (tracks_arguments inside deep parser.tokens.length [] enough begun).bind close

theorem tracks_extend (inside : Finds outermost depth inner) (deep : frames.length + 1 = depth)
    {power : Power} (level : Frame.levelInside outermost frames = power.level)
    {first : List Token} {lhs : Expr} (rounds : Nat) (enough : unread.length < rounds)
    (low : lhs.height ≤ limit) (holds : Holds outermost whole frames first lhs unread) :
    Tracks whole (extend inner rounds power lhs) depth unread
      (Completes outermost whole frames first) := by
  -- A longer phrase has taken a token, so there are more rounds than tokens left to the end.
  induction rounds generalizing lhs unread with
  | zero => exact absurd enough (Nat.not_lt_zero _)
  | succ rounds ih =>
      have again : ∀ longer left, left.length ≤ unread.length →
          Holds outermost whole frames unread longer left →
          Tracks whole (do extend inner rounds power (← checked longer)) depth left
            (Completes outermost whole frames first) := by
        intro longer left _ further
        refine (tracks_checked further.same).bind ?_
        rintro _ _ - ⟨rfl, rfl, low⟩
        refine ih (Nat.lt_of_lt_of_le further.shorter (Nat.le_of_lt_succ enough)) low ?_
        exact ⟨Nat.lt_trans further.shorter holds.shorter, further.same⟩
      refine Tracks.look fun token kind => ?_
      simp only [kind]
      by_cases admitted : power.level.admits (nextToken unread).kind = true
      · obtain ⟨next, continues, tighter⟩ := (power.admits_level _).mp admitted
        simp only [continues, if_neg (Nat.not_le.mpr tighter)]
        rw [← level] at admitted
        by_cases opens : (nextToken unread).kind = .leftParen
        · rw [if_pos opens]
          rw [opens] at admitted
          exact (tracks_call inside deep low opens admitted holds.same).bind again
        · rw [if_neg opens]
          exact (tracks_junction inside deep low admitted opens holds.same).bind again
      · have complete : Completes outermost whole frames first lhs unread := by
          refine ⟨holds, low, ?_⟩
          rw [level]
          exact Bool.eq_false_iff.mpr admitted
        cases continues : Power.continuing? (nextToken unread).kind with
        | none => exact Tracks.pure complete
        | some next =>
            have looser : next.rank ≤ power.rank := Nat.not_lt.mp fun tighter =>
              admitted ((power.admits_level _).mpr ⟨next, continues, tighter⟩)
            simp only [if_pos looser]
            exact Tracks.pure complete

/-! ### Phrases -/

theorem tracks_content (inside : Finds outermost depth inner) (deep : frames.length + 1 = depth)
    (room : frames.length < limit) {power : Power}
    (level : Frame.levelInside outermost frames = power.level)
    (here : whole = Reader.run outermost (.wanted frames) unread) :
    Tracks whole (content inner power) depth unread
      (Completes outermost whole frames unread) := by
  have goesOn : ∀ first left, left.length ≤ unread.length →
      Holds outermost whole frames unread first left →
      Tracks whole (do extend inner (← get).tokens.length power (← checked first)) depth left
        (Completes outermost whole frames unread) := by
    intro first left _ holds
    refine Tracks.count fun parser enough => (tracks_checked holds.same).bind ?_
    rintro _ _ - ⟨rfl, rfl, low⟩
    exact tracks_extend inside deep level parser.tokens.length enough low holds
  refine Tracks.look fun token kind => ?_
  simp only [kind]
  cases begins : (nextToken unread).kind with
  | identifier => exact (tracks_name room begins here).bind goesOn
  | leftParen => exact (tracks_group inside deep room begins here).bind goesOn
  | not => exact (tracks_negation inside deep room begins here).bind goesOn
  | endOfInput | rightParen | comma | and | or =>
      have unfit := begin_unexpected room begins (by decide) (by decide) (by decide)
      exact (Tracks.throw (here.trans (run_failed unfit))).bind goesOn

theorem phrase_full {parser : Parser} (levels : Nat) (power : Power)
    (full : limit ≤ parser.depth) :
    phrase (levels + 1) power parser = some (.error .tooDeep, parser) :=
  if_pos full

theorem phrase_within {parser after : Parser} {levels : Nat} {power : Power}
    {result : Except ReadingError Expr} (room : ¬ limit ≤ parser.depth)
    (answered : content (phrase levels) power { parser with depth := parser.depth + 1 } =
      some (result, after)) :
    phrase (levels + 1) power parser = some (result, { after with depth := after.depth - 1 }) := by
  refine (if_neg room).trans ?_
  rw [answered]
  rfl

/-- Each phrase inside is one more that is open, and takes one level. -/
theorem finds_phrase (levels depth : Nat) (enough : limit < levels + depth)
    (within : depth ≤ limit) : Finds outermost depth (phrase levels) := by
  induction levels generalizing depth with
  | zero => omega
  | succ levels ih =>
      intro power whole frames unread deep level here parser stands
      cases stands.depth_eq
      by_cases full : limit ≤ parser.depth
      · refine ⟨.error .tooDeep, [], unread, rfl, phrase_full levels power full, ?_⟩
        refine here.trans (run_failed ?_)
        rw [Reader.answer, Reader.begin, if_pos (deep ▸ full)]
      · have inside : Finds outermost (parser.depth + 1) (phrase levels) :=
          ih (parser.depth + 1) (by omega) (by omega)
        obtain ⟨result, taken, left, parts, answered, reached⟩ :=
          tracks_content inside (congrArg (· + 1) deep) (by omega) level here _
            (stands.with_depth (parser.depth + 1))
        exact ⟨result, taken, left, parts, phrase_within full answered, reached⟩

/-- A parser with no phrase open reads a phrase as a reader does: the same is found or refused, and
the same tokens are left. -/
theorem parse_reads (power : Power) {parser : Parser} (stands : parser.Stands 0 unread) :
    ∃ result taken left, unread = taken ++ left ∧
      parse power parser = some (result, parser.skip taken.length) ∧
      Reader.run power.level (.wanted []) unread = (result, left) ∧
      ∀ phrase, result = .ok phrase → taken ≠ [] := by
  have finds : Finds power.level 0 (phrase (limit + 1)) :=
    finds_phrase (limit + 1) 0 (Nat.lt_succ_self limit) (Nat.zero_le limit)
  obtain ⟨result, taken, left, rfl, answered, reached⟩ :=
    finds power _ [] unread rfl rfl rfl parser stands
  refine ⟨result, taken, left, rfl, answered, ?_⟩
  cases result with
  | error error => exact ⟨reached, nofun⟩
  | ok phrase =>
      have complete : Completes power.level _ [] (taken ++ left) phrase left := reached
      refine ⟨?_, ?_⟩
      · exact complete.same.trans (run_complete (answer_outermost complete.low complete.ends))
      · rintro _ _ rfl
        exact absurd complete.shorter (Nat.lt_irrefl _)

end Parser
end Permission
