import Permission.Proofs.Grammar.Completeness
import Permission.Proofs.Lowering

/-!
# What does not matter in a token

A change of tokens that keeps their kinds, and the texts of identifiers, changes nothing in how an
expression is read and lowered: the reader takes the same steps, and the operators of its tree are
the changed ones.
-/

set_option autoImplicit false

namespace Permission

/-- The change keeps what an expression is made of: kinds, and the texts of identifiers. -/
structure Token.Keeps (change : Token → Token) : Prop where
  kind : ∀ token, (change token).kind = token.kind
  name : ∀ token, token.kind = .identifier → (change token).text = token.text

namespace Expr

mutual

/-- The tree with each operator changed. -/
def relabel (change : Token → Token) : Expr → Expr
  | .identifier name => .identifier name
  | .unary operator operand => .unary (change operator) (operand.relabel change)
  | .binary operator lhs rhs => .binary (change operator) (lhs.relabel change) (rhs.relabel change)
  | .call callee arguments => .call (callee.relabel change) (relabels change arguments)

def relabels (change : Token → Token) : List Expr → List Expr
  | [] => []
  | first :: others => first.relabel change :: relabels change others

end

theorem relabels_eq_map (change : Token → Token) (phrases : List Expr) :
    relabels change phrases = phrases.map (relabel change) := by
  induction phrases with
  | nil => rfl
  | cons first others ih => rw [relabels, ih, List.map_cons]

theorem relabels_reverse (change : Token → Token) (phrases : List Expr) :
    relabels change phrases.reverse = (relabels change phrases).reverse := by
  rw [relabels_eq_map, relabels_eq_map, List.map_reverse]

mutual

theorem height_relabel (change : Token → Token) : ∀ expr : Expr,
    (expr.relabel change).height = expr.height
  | .identifier name => rfl
  | .unary operator operand => by rw [relabel, height, height, height_relabel change operand]
  | .binary operator lhs rhs => by
      rw [relabel, height, height, height_relabel change lhs, height_relabel change rhs]
  | .call callee arguments => by
      rw [relabel, height, height, height_relabel change callee, heights_relabels change arguments]

theorem heights_relabels (change : Token → Token) : ∀ phrases : List Expr,
    heights (relabels change phrases) = heights phrases
  | [] => rfl
  | first :: others => by
      rw [relabels, heights, heights, height_relabel change first, heights_relabels change others]

end

/-! ### Reading -/

def Frame.relabel (change : Token → Token) : Frame → Frame
  | .group => .group
  | .negation operator => .negation (change operator)
  | .junction operator lhs => .junction (change operator) (lhs.relabel change)
  | .argument callee earlier => .argument (callee.relabel change) (relabels change earlier)

def Reader.relabel (change : Token → Token) : Reader → Reader
  | .wanted frames => .wanted (frames.map (Frame.relabel change))
  | .held frames phrase => .held (frames.map (Frame.relabel change)) (phrase.relabel change)
  | .opened frames callee => .opened (frames.map (Frame.relabel change)) (callee.relabel change)

def Reader.Answer.relabel (change : Token → Token) : Reader.Answer → Reader.Answer
  | .taken reader => .taken (reader.relabel change)
  | .complete phrase => .complete (phrase.relabel change)
  | .failed error => .failed error

theorem levelInside_relabel (change : Token → Token) (outermost : Level) (frames : List Frame) :
    Frame.levelInside outermost (frames.map (Frame.relabel change)) =
      Frame.levelInside outermost frames := by
  cases frames with
  | nil => rfl
  | cons frame outer => cases frame <;> rfl

theorem settle_relabel (change : Token → Token) (outermost : Level) (kind : Token.Kind)
    (frames : List Frame) (phrase : Expr) :
    Reader.settle outermost kind (frames.map (Frame.relabel change)) (phrase.relabel change) =
      (Reader.settle outermost kind frames phrase).map fun settled =>
        (settled.1.map (Frame.relabel change), settled.2.relabel change) := by
  induction frames generalizing phrase with
  | nil =>
      unfold Reader.settle
      rw [height_relabel, levelInside_relabel]
      split
      · rfl
      · split <;> rfl
  | cons frame outer ih =>
      unfold Reader.settle
      rw [height_relabel, levelInside_relabel]
      split
      · rfl
      · split
        · rfl
        · cases frame with
          | group => rfl
          | negation operator => exact ih (.unary operator phrase)
          | junction operator lhs => exact ih (.binary operator lhs phrase)
          | argument callee earlier => rfl

section

variable {change : Token → Token} (keeps : Token.Keeps change)

include keeps

theorem begin_relabel (frames : List Frame) (token : Token) :
    Reader.begin (frames.map (Frame.relabel change)) (change token) =
      (Reader.begin frames token).relabel change := by
  unfold Reader.begin
  rw [List.length_map, keeps.kind]
  split
  · rfl
  · cases kind : token.kind with
    | identifier =>
        rw [keeps.name token kind]
        rfl
    | _ => rfl

theorem extend_relabel (outermost : Level) (frames : List Frame) (phrase : Expr) (token : Token) :
    Reader.extend outermost (frames.map (Frame.relabel change)) (phrase.relabel change)
        (change token) =
      (Reader.extend outermost frames phrase token).relabel change := by
  unfold Reader.extend
  rw [levelInside_relabel, keeps.kind]
  split
  · split <;> rfl
  · cases frames with
    | nil => rfl
    | cons frame outer =>
        cases frame with
        | argument callee earlier =>
            cases kind : token.kind with
            | rightParen =>
                have listed := relabels_reverse change (phrase :: earlier)
                rw [relabels] at listed
                simpa [Reader.Answer.relabel, Reader.relabel, relabel, Frame.relabel]
                  using listed.symm
            | _ => rfl
        | _ => cases kind : token.kind <;> rfl

theorem answer_relabel (outermost : Level) (reader : Reader) (token : Token) :
    (reader.relabel change).answer outermost (change token) =
      (reader.answer outermost token).relabel change := by
  cases reader with
  | wanted frames => exact begin_relabel keeps frames token
  | opened frames callee =>
      rw [Reader.relabel, Reader.answer, Reader.answer, keeps.kind]
      split
      · rfl
      · exact begin_relabel keeps (.argument callee [] :: frames) token
  | held frames phrase =>
      rw [Reader.relabel, Reader.answer, Reader.answer, keeps.kind, settle_relabel]
      cases Reader.settle outermost token.kind frames phrase with
      | error error => rfl
      | ok settled => exact extend_relabel keeps outermost settled.1 settled.2 token

end

theorem finish_relabel (change : Token → Token) (outermost : Level) (reader : Reader) :
    (reader.relabel change).finish outermost =
      (reader.finish outermost).map (relabel change) := by
  cases reader with
  | wanted frames => simp [Reader.relabel, Reader.finish, Reader.finish.missing, Except.map]
  | opened frames callee => simp [Reader.relabel, Reader.finish, Reader.finish.missing, Except.map]
  | held frames phrase =>
      rw [Reader.relabel, Reader.finish, Reader.finish, settle_relabel]
      cases Reader.settle outermost .endOfInput frames phrase with
      | error error => rfl
      | ok settled =>
          obtain ⟨outer, settled⟩ := settled
          cases outer <;> rfl

theorem verdict_relabel {change : Token → Token} (keeps : Token.Keeps change) (reader : Reader)
    (tokens : List Token) :
    Grammar.verdict (reader.relabel change) (tokens.map change) =
      (Grammar.verdict reader tokens).map (relabel change) := by
  induction tokens generalizing reader with
  | nil => rw [List.map_nil, Grammar.verdict_nil, Grammar.verdict_nil, finish_relabel]
  | cons token tokens ih =>
      rw [List.map_cons, Grammar.verdict_cons, Grammar.verdict_cons, answer_relabel keeps]
      cases reader.answer .expression token with
      | taken next => exact ih next
      | complete phrase =>
          rw [Reader.Answer.relabel, keeps.kind]
          rfl
      | failed error => rfl

theorem content_map {change : Token → Token} (keeps : Token.Keeps change) (tokens : List Token) :
    Token.content (tokens.map change) = (Token.content tokens).map change := by
  rw [Token.content, Token.content, List.takeWhile_map]
  simp only [Function.comp_def, keeps.kind]

/-- Changing the tokens changes the operators of the tree, and nothing else. -/
theorem ofTokens_map {change : Token → Token} (keeps : Token.Keeps change) (tokens : List Token) :
    ofTokens (tokens.map change) = (ofTokens tokens).map (relabel change) := by
  rw [Grammar.ofTokens_eq_verdict, Grammar.ofTokens_eq_verdict, content_map keeps]
  exact verdict_relabel keeps (.wanted []) (Token.content tokens)

/-! ### Lowering -/

theorem form_relabel (change : Token → Token) (expr : Expr) :
    (expr.relabel change).form = expr.form := by
  cases expr <;> rfl

theorem identifier_relabel (change : Token → Token) (expr : Expr) :
    (expr.relabel change).identifier? = expr.identifier? := by
  cases expr <;> rfl

theorem calledBuiltin_relabel (change : Token → Token) (callee : Expr) :
    calledBuiltin (callee.relabel change) = calledBuiltin callee := by
  rw [calledBuiltin, calledBuiltin, form_relabel, identifier_relabel]

theorem checkedCall_relabel (change : Token → Token) (callee : Expr) (arguments : List Expr) :
    checkedCall (callee.relabel change) (relabels change arguments) =
      checkedCall callee arguments := by
  rw [checkedCall, checkedCall, calledBuiltin_relabel, relabels_eq_map]
  simp only [List.length_map, List.any_map, Function.comp_def, form_relabel]

theorem lowerCompound_relabels_cons {change : Token → Token} {first : Expr} {others : List Expr}
    (noName : first.form ≠ .identifier) (here : (first.relabel change).lower = first.lower)
    (later : lowerCompound (relabels change others) = lowerCompound others) :
    lowerCompound (relabels change (first :: others)) = lowerCompound (first :: others) := by
  have noName' : (first.relabel change).form ≠ .identifier := by
    rw [form_relabel]
    exact noName
  rw [relabels, lowerCompound_cons noName', lowerCompound_cons noName, here, later]

theorem connective_relabel {change : Token → Token} (keeps : Token.Keeps change)
    (operator : Token) : connective (change operator) = connective operator := by
  rw [connective, connective, keeps.kind]

mutual

theorem lower_relabel {change : Token → Token} (keeps : Token.Keeps change) : ∀ expr : Expr,
    (expr.relabel change).lower = expr.lower
  | .identifier name => rfl
  | .unary operator operand => by
      rw [relabel, lower, lower, keeps.kind, lower_relabel keeps operand]
  | .binary operator lhs rhs => by
      rw [relabel, lower, lower, connective_relabel keeps, lower_relabel keeps lhs,
        lower_relabel keeps rhs]
  | .call callee arguments => by
      rw [relabel, lower, lower, checkedCall_relabel, lowerCompound_relabels keeps arguments,
        relabels_eq_map, List.filterMap_map]
      simp only [Function.comp_def, identifier_relabel]

theorem lowerCompound_relabels {change : Token → Token} (keeps : Token.Keeps change) :
    ∀ arguments : List Expr,
      lowerCompound (relabels change arguments) = lowerCompound arguments
  | [] => rfl
  | .identifier name :: others => by
      rw [relabels, relabel, lowerCompound, lowerCompound, lowerCompound_relabels keeps others]
  | .unary operator operand :: others =>
      lowerCompound_relabels_cons nofun (lower_relabel keeps (.unary operator operand))
        (lowerCompound_relabels keeps others)
  | .binary operator lhs rhs :: others =>
      lowerCompound_relabels_cons nofun (lower_relabel keeps (.binary operator lhs rhs))
        (lowerCompound_relabels keeps others)
  | .call callee arguments :: others =>
      lowerCompound_relabels_cons nofun (lower_relabel keeps (.call callee arguments))
        (lowerCompound_relabels keeps others)

end

end Expr
end Permission
