import Permission.Text.Blank
import Permission.Token

/-!
# Reading tokens from a source

A `Cursor` stands between what has been read of a source and what is left.  `Cursor.next` skips
blanks and takes one lexeme: the first fixed spelling that the text begins with, or else the
longest identifier.  `Cursor.remaining` takes all lexemes that are left.  Main statement:
`Cursor.next_shortens`, a token that was read has left less to read.
-/

set_option autoImplicit false

namespace Permission
namespace Token

def startsIdentifier (c : Char) : Bool :=
  c.isAlpha || c == '_'

def continuesIdentifier (c : Char) : Bool :=
  c.isAlphanum || c == '_'

def fixedLexeme? (text : List Char) : Option (Kind × List Char) :=
  Kind.spellings.findSome? fun (spelling, kind) =>
    if spelling.toList.isPrefixOf text then some (kind, spelling.toList) else none

def identifierLexeme? : List Char → Option (Kind × List Char)
  | [] => none
  | first :: others =>
    if startsIdentifier first then
      some (.identifier, first :: others.takeWhile continuesIdentifier)
    else
      none

/-- The lexeme that a text begins with: its kind and its characters.  Fixed spellings come before
identifiers, so a name never begins with a keyword. -/
def lexeme? (text : List Char) : Option (Kind × List Char) :=
  (fixedLexeme? text).or (identifierLexeme? text)

end Token

structure Cursor where
  offset : Nat
  rest : List Char
  deriving DecidableEq, Repr

/-- No lexeme begins at `offset`, where `remainder` is left to read. -/
structure LexicalError where
  offset : Nat
  remainder : String
  deriving DecidableEq, Repr

def LexicalError.message (error : LexicalError) : String :=
  "unexpected input `" ++ error.remainder ++ "` at offset " ++ toString error.offset

namespace Cursor

def start (source : String) : Cursor :=
  { offset := 0, rest := source.toList }

def advance (cursor : Cursor) (count : Nat) : Cursor :=
  { offset := cursor.offset + Text.byteLength (cursor.rest.take count)
    rest := cursor.rest.drop count }

def skipBlanks (cursor : Cursor) : Cursor :=
  { offset := cursor.offset + Text.byteLength (Text.leadingBlanks cursor.rest)
    rest := Text.trimStart cursor.rest }

/-- Reads one token.  Blanks before it are consumed in every case; the answer is `none` at the end
of the source, and a text that begins with no lexeme stays unread. -/
def next (cursor : Cursor) : Except LexicalError (Option Token) × Cursor :=
  let here := cursor.skipBlanks
  if here.rest.isEmpty then
    (.ok none, here)
  else
    match Token.lexeme? here.rest with
    | some (kind, text) =>
      (.ok (some { kind, text := String.ofList text, offset := here.offset }),
        here.advance text.length)
    | none =>
      (.error { offset := here.offset, remainder := String.ofList here.rest }, here)

end Cursor

private theorem fixedLexeme_ne_nil {text lexeme : List Char} {kind : Token.Kind}
    (found : Token.fixedLexeme? text = some (kind, lexeme)) : lexeme ≠ [] := by
  obtain ⟨⟨spelling, spelled⟩, listed, taken⟩ := List.exists_of_findSome?_eq_some found
  have notEmpty : ∀ entry ∈ Token.Kind.spellings, entry.1.toList ≠ [] := by decide
  by_cases begins : spelling.toList.isPrefixOf text
  · simp only [begins, if_true, Option.some.injEq, Prod.mk.injEq] at taken
    exact taken.2 ▸ notEmpty _ listed
  · simp [begins] at taken

theorem Token.lexeme_ne_nil {text lexeme : List Char} {kind : Token.Kind}
    (found : Token.lexeme? text = some (kind, lexeme)) : lexeme ≠ [] := by
  unfold Token.lexeme? at found
  rcases Option.or_eq_some_iff.mp found with fixed | ⟨_, named⟩
  · exact fixedLexeme_ne_nil fixed
  · unfold Token.identifierLexeme? at named
    split at named
    · simp at named
    · split at named
      · simp only [Option.some.injEq, Prod.mk.injEq] at named
        exact named.2 ▸ List.cons_ne_nil _ _
      · simp at named

namespace Cursor

theorem next_shortens {cursor after : Cursor} {token : Token}
    (read : cursor.next = (.ok (some token), after)) :
    after.rest.length < cursor.rest.length := by
  simp only [next] at read
  split at read
  · simp at read
  · rename_i nonempty
    split at read
    · rename_i kind lexeme found
      have positive := List.length_pos_iff.mpr (Token.lexeme_ne_nil found)
      have shorter := Text.length_trimStart_le cursor.rest
      have left : 0 < (Text.trimStart cursor.rest).length := by
        apply List.length_pos_iff.mpr
        intro empty
        exact nonempty (by simp [skipBlanks, empty])
      simp only [Prod.mk.injEq] at read
      simp only [← read.2, advance, skipBlanks, List.length_drop]
      omega
    · simp at read

/-- Reads all tokens that are left and closes them with an end of input.  After an error the
cursor stands at the text that begins with no lexeme. -/
def remaining (cursor : Cursor) : Except LexicalError (List Token) × Cursor :=
  match _read : cursor.next with
  | (.ok none, after) => (.ok [Token.atEnd after.offset], after)
  | (.ok (some token), after) =>
    let (tokens, final) := after.remaining
    (tokens.map (token :: ·), final)
  | (.error error, after) => (.error error, after)
termination_by cursor.rest.length
decreasing_by exact next_shortens _read

end Cursor

/-- The tokens of a source, closed by an end of input at its byte length. -/
def Token.ofSource (source : String) : Except LexicalError (List Token) :=
  (Cursor.start source).remaining.1

end Permission
