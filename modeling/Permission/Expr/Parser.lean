import Permission.Expr.Reader

/-!
# Parsing phrase by phrase

A `Parser` stands at a token of a list and counts the phrases that are open.  It can be asked for
one phrase after the other, whether the last one was found or not.  Where a `Reader` keeps the open
phrases in frames, a parser descends into them, so it has its place and its count to keep right on
every way out.

A parser that looks behind its tokens has no answer, and neither has one that is given too few
levels or rounds.  `Parser.parse` is given enough of them, so it always has one.
-/

set_option autoImplicit false

namespace Permission

/-- A token list with an end of input behind it, unless one stands there. -/
def Token.closed (tokens : List Token) : List Token :=
  match tokens.getLast? with
  | none => [Token.atEnd 0]
  | some last =>
    if last.kind = .endOfInput then tokens
    else tokens ++ [Token.atEnd (last.offset + last.text.utf8ByteSize)]

inductive Power where
  | lowest
  | comma
  | logical
  | unary
  | call
  deriving DecidableEq, Repr

namespace Power

def rank : Power → Nat
  | .lowest => 0
  | .comma => 1
  | .logical => 2
  | .unary => 3
  | .call => 4

def continuing? : Token.Kind → Option Power
  | .and => some .logical
  | .or => some .logical
  | .leftParen => some .call
  | _ => none

end Power

structure Parser where
  tokens : List Token
  position : Nat
  depth : Nat
  deriving Repr

/-- What is done with a parser: it may fail, and it leaves a parser in either case. -/
abbrev Parsing (Value : Type) := ExceptT ReadingError (StateT Parser Option) Value

namespace Parser

open Permission.Expr (limit)

def ofTokens (tokens : List Token) : Parser :=
  { tokens := Token.closed tokens, position := 0, depth := 0 }

def current : Parsing Token := fun parser =>
  parser.tokens[parser.position]?.map fun token => (.ok token, parser)

def stuck {Value : Type} : Parsing Value := fun _ => none

/-- Takes the current token.  An end of input is never left behind. -/
def advance : Parsing Token := do
  let token ← current
  if token.kind ≠ .endOfInput then
    modify fun parser => { parser with position := parser.position + 1 }
  return token

def expect (wanted : Token.Kind) : Parsing Token := do
  let token ← current
  if token.kind = wanted then advance else throw (.expected wanted token.kind)

def checked (phrase : Expr) : Parsing Expr :=
  if limit < phrase.height then throw .tooDeep else return phrase

def name : Parsing Expr := do
  let token ← expect .identifier
  return .identifier token.text

section

-- How the phrases inside of a phrase are parsed.
variable (inner : Power → Parsing Expr)

def group : Parsing Expr := do
  let _ ← expect .leftParen
  let content ← inner .lowest
  let _ ← expect .rightParen
  return content

def negation : Parsing Expr := do
  let operator ← advance
  let operand ← inner .unary
  return .unary operator operand

def junction (lhs : Expr) : Parsing Expr := do
  let operator ← advance
  let rhs ← inner .logical
  return .binary operator lhs rhs

/-- Parses arguments with commas between them, in so many rounds.  The earlier ones are given last
one first. -/
def arguments : Nat → List Expr → Parsing (List Expr)
  | 0, _ => stuck
  | rounds + 1, earlier => do
    let argument ← inner .logical
    if (← current).kind = .comma then
      let _ ← advance
      arguments rounds (argument :: earlier)
    else
      return (argument :: earlier).reverse

def call (callee : Expr) : Parsing Expr := do
  let _ ← expect .leftParen
  let list ←
    if (← current).kind = .rightParen then
      pure []
    else
      arguments inner (← get).tokens.length []
  let _ ← expect .rightParen
  return .call callee list

/-- Goes on with a phrase as long as the next token binds tighter than the power, in so many
rounds. -/
def extend : Nat → Power → Expr → Parsing Expr
  | 0, _, _ => stuck
  | rounds + 1, power, lhs => do
    let kind := (← current).kind
    match Power.continuing? kind with
    | none => return lhs
    | some next =>
      if next.rank ≤ power.rank then
        return lhs
      else
        let longer ← if kind = .leftParen then call inner lhs else junction inner lhs
        extend rounds power (← checked longer)

def content (power : Power) : Parsing Expr := do
  let first ←
    match (← current).kind with
    | .identifier => name
    | .leftParen => group inner
    | .not => negation inner
    | kind => throw (.unexpected kind)
  extend inner (← get).tokens.length power (← checked first)

end

/-- Parses a phrase up to a continuation that binds no tighter than the power, descending so many
levels.  The phrase is counted as open meanwhile. -/
def phrase : Nat → Power → Parsing Expr
  | 0, _ => stuck
  | levels + 1, power => fun parser =>
    if limit ≤ parser.depth then
      some (.error .tooDeep, parser)
    else do
      -- The phrase is closed after an error as well.
      let (result, after) ← content (phrase levels) power { parser with depth := parser.depth + 1 }
      return (result, { after with depth := after.depth - 1 })

/-- Parses a phrase.  More phrases than the limit admits are never open, so the levels suffice. -/
def parse (power : Power) : Parsing Expr :=
  phrase (limit + 1) power

def parseWhole : Parsing Expr := do
  let expr ← parse .lowest
  let _ ← expect .endOfInput
  return expr

end Parser
end Permission
