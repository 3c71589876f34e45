import Permission.Json.Reader

/-!
# How JSON values are written

The grammar of JSON texts, apart from the readers: which texts a value may be written as.  It is
strict.  Spaces may stand around the parts of a text and nowhere else, a character below U+0020
does not stand in a string as it is, surrogates stand in pairs, and a number lies within the range.
-/

set_option autoImplicit false

namespace Permission
namespace Json

def Spaces (text : List Char) : Prop :=
  ∀ c ∈ text, isSpace c = true

/-! ### Strings -/

inductive WrittenUnit : Nat → List Char → Prop where
  | digits {a b c d : Char} {first second third fourth : Nat} (highest : hexValue? a = some first)
      (high : hexValue? b = some second) (low : hexValue? c = some third)
      (lowest : hexValue? d = some fourth) :
      WrittenUnit (((first * 16 + second) * 16 + third) * 16 + fourth) [a, b, c, d]

/-- A character of a string stands for itself or is escaped: by a letter, by its unit, or by a pair
of surrogates. -/
inductive WrittenCharacter : Char → List Char → Prop where
  | plain {c : Char} (noQuote : c ≠ '"') (noBackslash : c ≠ '\\') (printed : 0x20 ≤ c.toNat) :
      WrittenCharacter c [c]
  | letter {letter c : Char} (stands : letterEscape? letter = some c) :
      WrittenCharacter c ['\\', letter]
  | unit {unit : Nat} {digits : List Char} (written : WrittenUnit unit digits)
      (noTrailing : isTrailingSurrogate unit = false)
      (noLeading : isLeadingSurrogate unit = false) :
      WrittenCharacter (Char.ofNat unit) ('\\' :: 'u' :: digits)
  | pair {high low : Nat} {highDigits lowDigits : List Char}
      (writtenHigh : WrittenUnit high highDigits) (writtenLow : WrittenUnit low lowDigits)
      (leading : isLeadingSurrogate high = true) (trailing : isTrailingSurrogate low = true) :
      WrittenCharacter (Char.ofNat (0x10000 + (high - 0xD800) * 0x400 + (low - 0xDC00)))
        ('\\' :: 'u' :: (highDigits ++ '\\' :: 'u' :: lowDigits))

inductive WrittenCharacters : List Char → List Char → Prop where
  | nil : WrittenCharacters [] ['"']
  | cons {c : Char} {characters text later : List Char} (first : WrittenCharacter c text)
      (others : WrittenCharacters characters later) :
      WrittenCharacters (c :: characters) (text ++ later)

/-! ### Numbers -/

def Digits (text : List Char) : Prop :=
  text ≠ [] ∧ ∀ c ∈ text, c.isDigit = true

inductive WrittenFraction : List Char → List Char → Prop where
  | none : WrittenFraction [] []
  | digits {digits : List Char} (some : Digits digits) : WrittenFraction digits ('.' :: digits)

inductive WrittenExponent : Int → List Char → Prop where
  | none : WrittenExponent 0 []
  | unsigned {mark : Char} {digits : List Char} (marks : mark = 'e' ∨ mark = 'E')
      (some : Digits digits) : WrittenExponent (decimalValue digits) (mark :: digits)
  | positive {mark : Char} {digits : List Char} (marks : mark = 'e' ∨ mark = 'E')
      (some : Digits digits) : WrittenExponent (decimalValue digits) (mark :: '+' :: digits)
  | negative {mark : Char} {digits : List Char} (marks : mark = 'e' ∨ mark = 'E')
      (some : Digits digits) : WrittenExponent (-decimalValue digits) (mark :: '-' :: digits)

/-- A number without its minus: no zero stands in front of other digits, and the value lies within
the range. -/
inductive Unsigned : List Char → Prop where
  | number {integer fraction fractionText exponentText : List Char} {power : Int}
      (whole : Digits integer) (noLeadingZero : ∀ later, integer = '0' :: later → later = [])
      (part : WrittenFraction fraction fractionText) (scale : WrittenExponent power exponentText)
      (inRange : outOfRange integer fraction power = false) :
      Unsigned (integer ++ (fractionText ++ exponentText))

inductive Numeral : List Char → Prop where
  | unsigned {text : List Char} (digits : Unsigned text) : Numeral text
  | negative {text : List Char} (digits : Unsigned text) : Numeral ('-' :: text)

/-! ### Values -/

inductive WrittenScalar : Json → List Char → Prop where
  | null : WrittenScalar .null ['n', 'u', 'l', 'l']
  | bool (value : Bool) : WrittenScalar (.bool value) (boolText value).toList
  | number {literal : List Char} (numeral : Numeral literal) :
      WrittenScalar (.number (String.ofList literal)) literal
  | string {characters text : List Char} (written : WrittenCharacters characters text) :
      WrittenScalar (.string (String.ofList characters)) ('"' :: text)

/-- Entries behind the first one, each behind its comma, and the bracket that ends them. -/
inductive LaterEntries {α : Type} (closing : Char) (entry : α → List Char → Prop) :
    List α → List Char → Prop where
  | nil {spaces : List Char} (blank : Spaces spaces) :
      LaterEntries closing entry [] (spaces ++ [closing])
  | cons {first : α} {others : List α} {spaces text later : List Char} (blank : Spaces spaces)
      (here : entry first text) (behind : LaterEntries closing entry others later) :
      LaterEntries closing entry (first :: others) (spaces ++ ',' :: (text ++ later))

inductive Entries {α : Type} (closing : Char) (entry : α → List Char → Prop) :
    List α → List Char → Prop where
  | nil {spaces : List Char} (blank : Spaces spaces) :
      Entries closing entry [] (spaces ++ [closing])
  | cons {first : α} {others : List α} {text later : List Char} (here : entry first text)
      (behind : LaterEntries closing entry others later) :
      Entries closing entry (first :: others) (text ++ later)

mutual

/-- A text that a value is written as. -/
inductive Written : Json → List Char → Prop where
  | scalar {json : Json} {text : List Char} (plain : WrittenScalar json text) : Written json text
  | array {elements : List Json} {text : List Char} (inside : Entries ']' Spaced elements text) :
      Written (.array elements) ('[' :: text)
  | object {members : List (String × Json)} {text : List Char}
      (inside : Entries '\x7d' WrittenMember members text) :
      Written (.object members) ('\x7b' :: text)

/-- A value with spaces in front of it. -/
inductive Spaced : Json → List Char → Prop where
  | value {json : Json} {spaces text : List Char} (blank : Spaces spaces)
      (written : Written json text) : Spaced json (spaces ++ text)

inductive WrittenMember : String × Json → List Char → Prop where
  | entry {characters spaces name spaces' text : List Char} {json : Json} (blank : Spaces spaces)
      (key : WrittenCharacters characters name) (blank' : Spaces spaces')
      (value : Spaced json text) :
      WrittenMember (String.ofList characters, json)
        (spaces ++ '"' :: (name ++ (spaces' ++ ':' :: text)))

end

end Json
end Permission
