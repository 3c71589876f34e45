/-!
# Tokens

A token is a kind, the text that it was written as, and the byte offset of that text.  Operators
have several spellings; `Token.Kind.spellings` lists them in the order in which they are tried, so
a longer spelling stands before its own beginning.
-/

set_option autoImplicit false

namespace Permission

inductive Token.Kind where
  | endOfInput
  | identifier
  | leftParen
  | rightParen
  | comma
  | and
  | or
  | not
  deriving DecidableEq, Repr

/-- A token: its kind, its text as written, and where the text begins, in bytes. -/
structure Token where
  kind : Token.Kind
  text : String
  offset : Nat
  deriving DecidableEq, Repr

namespace Token

def Kind.name : Kind → String
  | .endOfInput => "EOF"
  | .identifier => "IDENTIFIER"
  | .leftParen => "LEFT_PAREN"
  | .rightParen => "RIGHT_PAREN"
  | .comma => "COMMA"
  | .and => "AND"
  | .or => "OR"
  | .not => "NOT"

/-- The fixed texts of the operators and the punctuation, in the order in which they are tried. -/
def Kind.spellings : List (String × Kind) :=
  [("And", .and), ("&&", .and), ("AND", .and), ("&", .and),
   ("Or", .or), ("||", .or), ("OR", .or), ("|", .or),
   ("Not", .not), ("!", .not), ("NOT", .not),
   ("(", .leftParen), (")", .rightParen), (",", .comma)]

def atEnd (offset : Nat) : Token :=
  { kind := .endOfInput, text := "", offset }

/-- How an operator is shown: as written, or by a keyword when a tree holds it without text. -/
def spelling (token : Token) : String :=
  if token.text.isEmpty then
    match token.kind with
    | .and => "And"
    | .or => "Or"
    | .not => "Not"
    | kind => kind.name
  else
    token.text

/-- The tokens that a reader sees: those before the first end of input. -/
def content (tokens : List Token) : List Token :=
  tokens.takeWhile (·.kind ≠ .endOfInput)

end Token
end Permission
