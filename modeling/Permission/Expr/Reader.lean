import Permission.Expr

/-!
# Reading expressions from tokens

The grammar has junctions (`AND` and `OR`, of one rank and grouped to the left), negations, calls,
groups and identifiers.  A reader goes over the tokens once, from left to right, and keeps the
phrases that are still open as a list of `Frame`s, the innermost first.  It never takes a token
before it knows what to do with it, so an error leaves the offending token unread.

Two limits hold: at most `Expr.limit` phrases are open at once, the outermost one included, and no
tree is higher than `Expr.limit`.  Both are checked when the reader looks at the next token.
-/

set_option autoImplicit false

namespace Permission

inductive ReadingError where
  | unexpected (found : Token.Kind)
  | expected (wanted found : Token.Kind)
  | tooDeep
  deriving DecidableEq, Repr

namespace Expr

def limit : Nat := 100

/-- How much a phrase takes in on its right: calls and junctions, calls only, or nothing. -/
inductive Level where
  | expression
  | operand
  | primary
  deriving DecidableEq, Repr

def Level.admits : Level → Token.Kind → Bool
  | .expression, .and => true
  | .expression, .or => true
  | .expression, .leftParen => true
  | .operand, .leftParen => true
  | _, _ => false

/-- What stands open around the phrase that is being read.  The earlier arguments of a call stand
last one first. -/
inductive Frame where
  | group
  | negation (operator : Token)
  | junction (operator : Token) (lhs : Expr)
  | argument (callee : Expr) (earlier : List Expr)
  deriving Repr

/-- Where a reader stands between two tokens: a phrase must begin, or one stands here that may still
go on, or a call was opened and an argument or its closing parenthesis follows. -/
inductive Reader where
  | wanted (frames : List Frame)
  | held (frames : List Frame) (phrase : Expr)
  | opened (frames : List Frame) (callee : Expr)
  deriving Repr

inductive Reader.Answer where
  | taken (reader : Reader)
  | complete (phrase : Expr)
  | failed (error : ReadingError)
  deriving Repr

def Frame.levelInside (outermost : Level) : List Frame → Level
  | [] => outermost
  | .group :: _ => .expression
  -- An argument is an operand too: a junction stands there in parentheses only.
  | _ :: _ => .operand

namespace Reader

/-- Closes the negations and the junctions that end before a token of the given kind. -/
def settle (outermost : Level) (kind : Token.Kind) (frames : List Frame) (phrase : Expr) :
    Except ReadingError (List Frame × Expr) :=
  -- A tree that is too high is refused whatever follows it.
  if limit < phrase.height then
    .error .tooDeep
  else if (Frame.levelInside outermost frames).admits kind then
    .ok (frames, phrase)
  else
    match frames with
    | .negation operator :: outer => settle outermost kind outer (.unary operator phrase)
    | .junction operator lhs :: outer => settle outermost kind outer (.binary operator lhs phrase)
    | _ => .ok (frames, phrase)

def begin (frames : List Frame) (token : Token) : Answer :=
  if limit ≤ frames.length then
    .failed .tooDeep
  else
    match token.kind with
    | .identifier => .taken (.held frames (.identifier token.text))
    | .leftParen => .taken (.wanted (.group :: frames))
    | .not => .taken (.wanted (.negation token :: frames))
    | kind => .failed (.unexpected kind)

/-- Goes on after a phrase that ends before the token, or takes the token into it. -/
def extend (outermost : Level) (frames : List Frame) (phrase : Expr) (token : Token) : Answer :=
  if (Frame.levelInside outermost frames).admits token.kind then
    if token.kind = .leftParen then
      .taken (.opened frames phrase)
    else
      .taken (.wanted (.junction token phrase :: frames))
  else
    match frames, token.kind with
    | .group :: outer, .rightParen => .taken (.held outer phrase)
    | .argument callee earlier :: outer, .rightParen =>
      .taken (.held outer (.call callee (phrase :: earlier).reverse))
    | .argument callee earlier :: outer, .comma =>
      .taken (.wanted (.argument callee (phrase :: earlier) :: outer))
    | [], _ => .complete phrase
    | _, kind => .failed (.expected .rightParen kind)

def answer (outermost : Level) : Reader → Token → Answer
  | .wanted frames, token => begin frames token
  | .opened frames callee, token =>
    if token.kind = .rightParen then
      .taken (.held frames (.call callee []))
    else
      begin (.argument callee [] :: frames) token
  | .held frames phrase, token =>
    match settle outermost token.kind frames phrase with
    | .error error => .failed error
    | .ok (outer, settled) => extend outermost outer settled token

def finish (outermost : Level) : Reader → Except ReadingError Expr
  | .wanted frames => .error (missing frames)
  | .opened frames callee => .error (missing (.argument callee [] :: frames))
  | .held frames phrase =>
    match settle outermost .endOfInput frames phrase with
    | .error error => .error error
    | .ok ([], settled) => .ok settled
    | .ok (_, _) => .error (.expected .rightParen .endOfInput)
where
  missing (frames : List Frame) : ReadingError :=
    if limit ≤ frames.length then .tooDeep else .unexpected .endOfInput

/-- Reads on until the outermost phrase ends or an error is met.  The tokens that were not taken
are left. -/
def run (outermost : Level) : Reader → List Token → Except ReadingError Expr × List Token
  | reader, [] => (reader.finish outermost, [])
  | reader, token :: tokens =>
    match reader.answer outermost token with
    | .taken next => run outermost next tokens
    | .complete phrase => (.ok phrase, token :: tokens)
    | .failed error => (.error error, token :: tokens)

end Reader

def readPhrase (level : Level) (tokens : List Token) : Except ReadingError Expr × List Token :=
  Reader.run level (.wanted []) (Token.content tokens)

/-- Reads an expression that takes up all tokens before the first end of input.  The answer comes
with the tokens that are left. -/
def readWhole (tokens : List Token) : Except ReadingError Expr × List Token :=
  match readPhrase .expression tokens with
  | (.ok phrase, []) => (.ok phrase, [])
  | (.ok _, token :: left) => (.error (.expected .endOfInput token.kind), token :: left)
  | (.error error, left) => (.error error, left)

def ofTokens (tokens : List Token) : Except ReadingError Expr :=
  (readWhole tokens).1

end Expr

def ReadingError.message : ReadingError → String
  | .unexpected found => "unexpected token `" ++ found.name ++ "`"
  | .expected wanted found => "expected `" ++ wanted.name ++ "` but found `" ++ found.name ++ "`"
  | .tooDeep => "expression nests deeper than " ++ toString Expr.limit ++ " levels"

end Permission
