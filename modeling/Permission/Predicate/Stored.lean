import Permission.Json.Reader
import Permission.Predicate

/-!
# Stored predicates

A predicate is stored as a JSON object whose member `type` holds a tag and whose other members are
the fields of that tag.  Besides this layout, reading accepts members in any order with unknown
members between them, and an array of the tag and the fields in their order.  Below the outermost
value the tag may also be the number of the variant.

The embedded form is the same text with single quotes for double quotes, so that it fits into a
quoted attribute; a single quote inside a name is written as an escape.
-/

set_option autoImplicit false

namespace Permission
namespace Predicate

inductive Variant where
  | has
  | anyOf
  | allOf
  | and
  | or
  | not
  deriving DecidableEq, Repr

namespace Variant

def all : List Variant := [.has, .anyOf, .allOf, .and, .or, .not]

def tag : Variant → String
  | .has => "HAS"
  | .anyOf => "SOME"
  | .allOf => "EVERY"
  | .and => "AND"
  | .or => "OR"
  | .not => "NOT"

/-- The number that may stand for the tag below the outermost value. -/
def index : Variant → Nat
  | .has => 0
  | .anyOf => 1
  | .allOf => 2
  | .and => 3
  | .or => 4
  | .not => 5

def fields : Variant → List String
  | .has => ["val"]
  | .anyOf => ["val"]
  | .allOf => ["val"]
  | .and => ["lhs", "rhs"]
  | .or => ["lhs", "rhs"]
  | .not => ["expr"]

def ofTag? (text : String) : Option Variant :=
  all.find? fun variant => variant.tag == text

def ofJson? : Json → Option Variant
  | .string text => ofTag? text
  | .number literal => all.find? fun variant => toString variant.index == literal
  | _ => none

end Variant

def tagKey : String := "type"

/-! ### Writing -/

def toJson : Predicate → Json
  | .has name => .object [(tagKey, .string Variant.has.tag), ("val", .string name)]
  | .anyOf names =>
    .object [(tagKey, .string Variant.anyOf.tag), ("val", .array (names.map .string))]
  | .allOf names =>
    .object [(tagKey, .string Variant.allOf.tag), ("val", .array (names.map .string))]
  | .and lhs rhs =>
    .object [(tagKey, .string Variant.and.tag), ("lhs", lhs.toJson), ("rhs", rhs.toJson)]
  | .or lhs rhs =>
    .object [(tagKey, .string Variant.or.tag), ("lhs", lhs.toJson), ("rhs", rhs.toJson)]
  | .not operand => .object [(tagKey, .string Variant.not.tag), ("expr", operand.toJson)]

def store (predicate : Predicate) : String :=
  predicate.toJson.compact

def embedCharacter : Char → List Char
  | '"' => ['\'']
  | '\'' => ['\\', 'u', '0', '0', '2', '7']
  | c => [c]

def embed (predicate : Predicate) : String :=
  String.ofList (predicate.store.toList.flatMap embedCharacter)

/-! ### Reading -/

/-- A part of a stored value, with the predicate that it presents, if it presents one. -/
structure Part where
  json : Json
  predicate? : Option Predicate

namespace Part

def text? (part : Part) : Option String :=
  match part.json with
  | .string text => some text
  | _ => none

def texts? (part : Part) : Option (List String) :=
  match part.json with
  | .array elements => elements.mapM fun
      | .string text => some text
      | _ => none
  | _ => none

end Part

/-- The value of a key that occurs exactly once. -/
def unique? (key : String) (parts : List (String × Part)) : Option Part :=
  match parts.filter (·.1 == key) with
  | [(_, part)] => some part
  | _ => none

def assemble? (variant : Variant) (parts : List (String × Part)) : Option Predicate :=
  match variant with
  | .has => do return .has (← (← unique? "val" parts).text?)
  | .anyOf => do return .anyOf (← (← unique? "val" parts).texts?)
  | .allOf => do return .allOf (← (← unique? "val" parts).texts?)
  | .and => do
    return .and (← (← unique? "lhs" parts).predicate?) (← (← unique? "rhs" parts).predicate?)
  | .or => do
    return .or (← (← unique? "lhs" parts).predicate?) (← (← unique? "rhs" parts).predicate?)
  | .not => do return .not (← (← unique? "expr" parts).predicate?)

def ofMembers? (parts : List (String × Part)) : Option Predicate := do
  let tag ← unique? tagKey parts
  let variant ← Variant.ofJson? tag.json
  assemble? variant parts

def ofElements? : List Part → Option Predicate
  | [] => none
  | tag :: parts => do
    let variant ← Variant.ofJson? tag.json
    if parts.length = variant.fields.length then
      assemble? variant (variant.fields.zip parts)
    else
      none

mutual

def ofJson? : Json → Option Predicate
  | .object members => ofMembers? (memberParts members)
  | .array elements => ofElements? (elementParts elements)
  | _ => none

def memberParts : List (String × Json) → List (String × Part)
  | [] => []
  | (key, json) :: others => (key, { json, predicate? := ofJson? json }) :: memberParts others

def elementParts : List Json → List Part
  | [] => []
  | json :: others => { json, predicate? := ofJson? json } :: elementParts others

end

def outermostTag : Json.Reader Json := fun text =>
  match Json.skipSpace text with
  | '[' :: _ => .error .mismatched
  | '\x7b' :: _ => .error .mismatched
  | inside => do
    let (json, rest) ← Json.scalar inside
    match json with
    | .string tag => if (Variant.ofTag? tag).isSome then return (json, rest) else .error .mismatched
    | _ => .error .mismatched

/-- How the members of the outermost object are read: the tag may not occur twice. -/
def outermostRule (inner : Json.Reader Json) : Json.MemberRule where
  admits earlier key := !(key == tagKey && earlier.contains tagKey)
  value key := if key = tagKey then outermostTag else inner

def outermost : Json.Reader Json := fun text =>
  -- The bracket of the outermost value is open around what it holds.
  let inner := Json.value (Json.nestingLimit - 1)
  match Json.skipSpace text with
  | '[' :: rest => do
    let (entries, rest) ← Json.elements outermostTag inner rest
    return (.array entries, rest)
  | '\x7b' :: rest => do
    let (entries, rest) ← Json.members (outermostRule inner) rest
    return (.object entries, rest)
  | inside => Json.scalar inside

/-- The predicate that a list of characters stores.  The value is read whole before its fields are
looked at, and nothing but space may follow it. -/
def restoreCharacters (text : List Char) : Except StorageError Predicate := do
  let (json, rest) ← outermost text
  match ofJson? json with
  | none => .error .mismatched
  | some predicate =>
    if (Json.skipSpace rest).isEmpty then .ok predicate else .error .malformed

def restore (text : String) : Except StorageError Predicate :=
  restoreCharacters text.toList

def unembedCharacter (c : Char) : Char :=
  if c = '\'' then '"' else c

def extract (text : String) : Except StorageError Predicate :=
  restoreCharacters (text.toList.map unembedCharacter)

end Predicate
end Permission
