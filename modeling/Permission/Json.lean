/-!
# JSON values and their texts

A number keeps the literal that it was written as, and an object keeps its members in order, also
repeated ones.  A value has two texts: `compact`, without blanks, and `pretty`, with one entry per
line.
-/

set_option autoImplicit false

namespace Permission

inductive Json where
  | null
  | bool (value : Bool)
  | number (literal : String)
  | string (text : String)
  | array (elements : List Json)
  | object (members : List (String × Json))
  deriving Repr

namespace Json

def hexDigit (value : Nat) : Char :=
  if value < 10 then Char.ofNat (0x30 + value) else Char.ofNat (0x57 + value)

/-- How a character stands in a string: a quote, a backslash and the characters below U+0020 are
escaped, by a letter where there is one. -/
def escape (c : Char) : List Char :=
  if c = '"' then ['\\', '"']
  else if c = '\\' then ['\\', '\\']
  else if c = '\x08' then ['\\', 'b']
  else if c = '\t' then ['\\', 't']
  else if c = '\n' then ['\\', 'n']
  else if c = '\x0c' then ['\\', 'f']
  else if c = '\r' then ['\\', 'r']
  else if c.toNat < 0x20 then
    ['\\', 'u', '0', '0', hexDigit (c.toNat / 16), hexDigit (c.toNat % 16)]
  else [c]

def quoted (text : String) : String :=
  "\"" ++ String.ofList (text.toList.flatMap escape) ++ "\""

def boolText : Bool → String
  | true => "true"
  | false => "false"

mutual

def compact : Json → String
  | .null => "null"
  | .bool value => boolText value
  | .number literal => literal
  | .string text => quoted text
  | .array elements => "[" ++ ",".intercalate (compactElements elements) ++ "]"
  | .object members => "\x7b" ++ ",".intercalate (compactMembers members) ++ "\x7d"

def compactElements : List Json → List String
  | [] => []
  | first :: others => first.compact :: compactElements others

def compactMembers : List (String × Json) → List String
  | [] => []
  | (key, value) :: others => (quoted key ++ ":" ++ value.compact) :: compactMembers others

end

def newLine (depth : Nat) : String :=
  "\n" ++ String.ofList (List.replicate (2 * depth) ' ')

/-- Entries between brackets, one to a line; without entries, the brackets alone. -/
def bracketed (opening closing : String) (depth : Nat) : List String → String
  | [] => opening ++ closing
  | entries =>
    opening ++ newLine (depth + 1) ++ ("," ++ newLine (depth + 1)).intercalate entries ++
      newLine depth ++ closing

mutual

/-- The text of a value that stands at the given depth, with one entry per line and two blanks of
indentation for each bracket that is open. -/
def prettyAt (depth : Nat) : Json → String
  | .null => "null"
  | .bool value => boolText value
  | .number literal => literal
  | .string text => quoted text
  | .array elements => bracketed "[" "]" depth (prettyElements (depth + 1) elements)
  | .object members => bracketed "\x7b" "\x7d" depth (prettyMembers (depth + 1) members)

def prettyElements (depth : Nat) : List Json → List String
  | [] => []
  | first :: others => first.prettyAt depth :: prettyElements depth others

def prettyMembers (depth : Nat) : List (String × Json) → List String
  | [] => []
  | (key, value) :: others =>
    (quoted key ++ ": " ++ value.prettyAt depth) :: prettyMembers depth others

end

def pretty (value : Json) : String :=
  value.prettyAt 0

end Json
end Permission
