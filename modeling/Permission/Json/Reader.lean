import Permission.Json
import Permission.Json.NumberRange
import Permission.Text.Blank

/-!
# Reading JSON

Readers take a value from the front of a text and answer with the text that is left.  They read
strictly: no comments, no trailing commas, no raw control characters in strings, no lone
surrogates, no numbers beyond the range of `Json.outOfRange`.  Brackets nest at most
`Json.nestingLimit` deep.

The readers of arrays and objects take the readers of their entries as arguments, so that a caller
can place a condition on some of them and have it checked at once.
-/

set_option autoImplicit false

namespace Permission

/-- Why a text does not hold a value that is asked for: it is no JSON, it ends inside a value, or it
is JSON, but not of the kind that is asked for. -/
inductive StorageError where
  | malformed
  | truncated
  | mismatched
  deriving DecidableEq, Repr

namespace Json

/-- A reader takes something from the front of a text and leaves the rest. -/
abbrev Reader (α : Type) := List Char → Except StorageError (α × List Char)

def nestingLimit : Nat := 127

def isSpace (c : Char) : Bool :=
  c == ' ' || c == '\t' || c == '\n' || c == '\r'

def skipSpace (text : List Char) : List Char :=
  text.dropWhile isSpace

def word : List Char → List Char → Except StorageError (List Char)
  | [], text => .ok text
  | _ :: _, [] => .error .truncated
  | wanted :: later, c :: text => if wanted = c then word later text else .error .malformed

/-! ### Strings -/

def hexValue? (c : Char) : Option Nat :=
  if '0' ≤ c ∧ c ≤ '9' then some (c.toNat - '0'.toNat)
  else if 'a' ≤ c ∧ c ≤ 'f' then some (c.toNat - 'a'.toNat + 10)
  else if 'A' ≤ c ∧ c ≤ 'F' then some (c.toNat - 'A'.toNat + 10)
  else none

/-- Takes the four hexadecimal digits of a UTF-16 unit.  A text of fewer than four bytes is
truncated, whatever it holds. -/
def utf16Unit (text : List Char) : Except StorageError (Nat × List Char) :=
  match text with
  | a :: b :: c :: d :: rest =>
    match hexValue? a, hexValue? b, hexValue? c, hexValue? d with
    | some a, some b, some c, some d => .ok (((a * 16 + b) * 16 + c) * 16 + d, rest)
    | _, _, _, _ => .error .malformed
  | short => if Text.byteLength short < 4 then .error .truncated else .error .malformed

def isLeadingSurrogate (unit : Nat) : Bool :=
  0xD800 ≤ unit && unit ≤ 0xDBFF

def isTrailingSurrogate (unit : Nat) : Bool :=
  0xDC00 ≤ unit && unit ≤ 0xDFFF

def unicodeEscape : Reader Char := fun text => do
  let (unit, rest) ← utf16Unit text
  if isTrailingSurrogate unit then
    .error .malformed
  else if isLeadingSurrogate unit then
    let rest ← word ['\\', 'u'] rest
    let (second, rest) ← utf16Unit rest
    if isTrailingSurrogate second then
      .ok (Char.ofNat (0x10000 + (unit - 0xD800) * 0x400 + (second - 0xDC00)), rest)
    else
      .error .malformed
  else
    .ok (Char.ofNat unit, rest)

def letterEscape? : Char → Option Char
  | '"' => some '"'
  | '\\' => some '\\'
  | '/' => some '/'
  | 'b' => some '\x08'
  | 'f' => some '\x0c'
  | 'n' => some '\n'
  | 'r' => some '\r'
  | 't' => some '\t'
  | _ => none

def escaped : Reader Char
  | [] => .error .truncated
  | 'u' :: rest => unicodeEscape rest
  | letter :: rest =>
    match letterEscape? letter with
    | some c => .ok (c, rest)
    | none => .error .malformed

def character : Reader (Option Char)
  | [] => .error .truncated
  | '"' :: rest => .ok (none, rest)
  | '\\' :: rest => do
    let (c, rest) ← escaped rest
    return (some c, rest)
  | c :: rest => if c.toNat < 0x20 then .error .malformed else .ok (some c, rest)

private theorem word_length {wanted text rest : List Char} (taken : word wanted text = .ok rest) :
    rest.length ≤ text.length := by
  induction wanted generalizing text with
  | nil =>
      simp only [word, Except.ok.injEq] at taken
      simp [taken]
  | cons first later ih =>
      cases text with
      | nil => simp [word] at taken
      | cons c text =>
          unfold word at taken
          split at taken
          · exact Nat.le_succ_of_le (ih taken)
          · simp at taken

private theorem utf16Unit_length {text rest : List Char} {unit : Nat}
    (taken : utf16Unit text = .ok (unit, rest)) : rest.length ≤ text.length := by
  unfold utf16Unit at taken
  split at taken
  · split at taken
    · simp only [Except.ok.injEq, Prod.mk.injEq] at taken
      simp only [← taken.2, List.length_cons]
      omega
    · simp at taken
  · split at taken <;> simp at taken

private theorem unicodeEscape_length {text rest : List Char} {c : Char}
    (taken : unicodeEscape text = .ok (c, rest)) : rest.length ≤ text.length := by
  unfold unicodeEscape at taken
  cases first : utf16Unit text with
  | error fault => simp [first, bind, Except.bind] at taken
  | ok read =>
      have shorter := utf16Unit_length (first.trans rfl)
      simp only [first, bind, Except.bind] at taken
      split at taken
      · simp at taken
      · split at taken
        · cases mark : word ['\\', 'u'] read.2 with
          | error fault => simp [mark] at taken
          | ok marked =>
              have afterMark := word_length mark
              cases second : utf16Unit marked with
              | error fault => simp [mark, second] at taken
              | ok pair =>
                  have afterPair := utf16Unit_length (second.trans rfl)
                  simp only [mark, second] at taken
                  split at taken
                  · simp only [Except.ok.injEq, Prod.mk.injEq] at taken
                    rw [← taken.2]
                    omega
                  · simp at taken
        · simp only [Except.ok.injEq, Prod.mk.injEq] at taken
          rw [← taken.2]
          exact shorter

private theorem escaped_length {text rest : List Char} {c : Char}
    (taken : escaped text = .ok (c, rest)) : rest.length < text.length := by
  unfold escaped at taken
  split at taken
  · simp at taken
  · exact Nat.lt_succ_of_le (unicodeEscape_length taken)
  · split at taken
    · simp only [Except.ok.injEq, Prod.mk.injEq] at taken
      simp [taken.2]
    · simp at taken

theorem character_length {text rest : List Char} {c : Option Char}
    (taken : character text = .ok (c, rest)) : rest.length < text.length := by
  unfold character at taken
  split at taken
  · simp at taken
  · simp only [Except.ok.injEq, Prod.mk.injEq] at taken
    simp [taken.2]
  · rename_i escapeText
    cases inner : escaped escapeText with
    | error fault => simp [inner, bind, Except.bind] at taken
    | ok read =>
        have shorter := escaped_length (inner.trans rfl)
        simp only [inner, bind, Except.bind, pure, Except.pure, Except.ok.injEq,
          Prod.mk.injEq] at taken
        rw [← taken.2, List.length_cons]
        omega
  · split at taken
    · simp at taken
    · simp only [Except.ok.injEq, Prod.mk.injEq] at taken
      simp [taken.2]

def characters (text : List Char) : Except StorageError (List Char × List Char) :=
  match _taken : character text with
  | .error fault => .error fault
  | .ok (none, rest) => .ok ([], rest)
  | .ok (some c, rest) => do
    let (others, rest) ← characters rest
    return (c :: others, rest)
termination_by text.length
decreasing_by exact character_length _taken

/-! ### Numbers -/

def digits (text : List Char) : Except StorageError (List Char × List Char) :=
  match text with
  | [] => .error .truncated
  | c :: _ =>
    if c.isDigit then .ok (text.takeWhile Char.isDigit, text.dropWhile Char.isDigit)
    else .error .malformed

/-- Takes the integer part of a number, which has no zero in front of other digits. -/
def integerDigits (text : List Char) : Except StorageError (List Char × List Char) := do
  let (taken, rest) ← digits text
  match taken with
  | '0' :: _ :: _ => .error .malformed
  | _ => return (taken, rest)

def fractionDigits : Reader (List Char)
  | '.' :: rest => digits rest
  | text => .ok ([], text)

def sign : List Char → Bool × List Char
  | '+' :: rest => (false, rest)
  | '-' :: rest => (true, rest)
  | text => (false, text)

def decimalValue (digits : List Char) : Nat :=
  digits.foldl (fun value digit => value * 10 + digitValue digit) 0

def exponent (text : List Char) : Except StorageError (Int × List Char) :=
  match text with
  | [] => .ok (0, [])
  | mark :: rest =>
    if mark = 'e' ∨ mark = 'E' then do
      let (negative, rest) := sign rest
      let (taken, rest) ← digits rest
      let value : Int := decimalValue taken
      return (if negative then -value else value, rest)
    else
      .ok (0, text)

/-- Takes a number.  The value keeps the text that was taken. -/
def numeral (text : List Char) : Except StorageError (Json × List Char) := do
  let unsigned := match text with
    | '-' :: rest => rest
    | _ => text
  let (integer, rest) ← integerDigits unsigned
  let (fraction, rest) ← fractionDigits rest
  let (power, rest) ← exponent rest
  if outOfRange integer fraction power then
    .error .malformed
  else
    return (.number (String.ofList (text.take (text.length - rest.length))), rest)

/-! ### Values -/

def scalar : Reader Json
  | [] => .error .truncated
  | '"' :: rest => do
    let (text, rest) ← characters rest
    return (.string (String.ofList text), rest)
  | 'n' :: rest => do
    let rest ← word ['u', 'l', 'l'] rest
    return (.null, rest)
  | 't' :: rest => do
    let rest ← word ['r', 'u', 'e'] rest
    return (.bool true, rest)
  | 'f' :: rest => do
    let rest ← word ['a', 'l', 's', 'e'] rest
    return (.bool false, rest)
  | c :: rest => if c = '-' ∨ c.isDigit then numeral (c :: rest) else .error .malformed

/-- Takes the elements after the first one, and the bracket that ends an array.  The fuel bounds
the number of elements. -/
def laterElements (value : Reader Json) : Nat → Reader (List Json)
  | 0, _ => .error .truncated
  | fuel + 1, text =>
    match skipSpace text with
    | [] => .error .truncated
    | ']' :: rest => .ok ([], rest)
    | ',' :: rest => do
      let (element, rest) ← value rest
      let (others, rest) ← laterElements value fuel rest
      return (element :: others, rest)
    | _ => .error .malformed

def elements (first later : Reader Json) : Reader (List Json) := fun text =>
  match skipSpace text with
  | [] => .error .truncated
  | ']' :: rest => .ok ([], rest)
  | inside => do
    let (element, rest) ← first inside
    let (others, rest) ← laterElements later (rest.length + 1) rest
    return (element :: others, rest)

/-- How the members of an object are read: which keys may follow the keys before them, and how the
value of a key is taken. -/
structure MemberRule where
  admits : List String → String → Bool
  value : String → Reader Json

def MemberRule.uniform (value : Reader Json) : MemberRule :=
  { admits := fun _ _ => true, value := fun _ => value }

/-- Takes one member of an object.  A key that is not admitted is a mismatch at once. -/
def member (rule : MemberRule) (earlier : List String) : Reader (String × Json) := fun text =>
  match skipSpace text with
  | [] => .error .truncated
  | '"' :: rest => do
    let (characters, rest) ← characters rest
    let key := String.ofList characters
    if rule.admits earlier key then
      match skipSpace rest with
      | [] => .error .truncated
      | ':' :: rest => do
        let (value, rest) ← rule.value key rest
        return ((key, value), rest)
      | _ => .error .malformed
    else
      .error .mismatched
  | _ => .error .malformed

def laterMembers (rule : MemberRule) : Nat → List String → Reader (List (String × Json))
  | 0, _, _ => .error .truncated
  | fuel + 1, earlier, text =>
    match skipSpace text with
    | [] => .error .truncated
    | '\x7d' :: rest => .ok ([], rest)
    | ',' :: rest => do
      let (entry, rest) ← member rule earlier rest
      let (others, rest) ← laterMembers rule fuel (entry.1 :: earlier) rest
      return (entry :: others, rest)
    | _ => .error .malformed

def members (rule : MemberRule) : Reader (List (String × Json)) := fun text =>
  match skipSpace text with
  | [] => .error .truncated
  | '\x7d' :: rest => .ok ([], rest)
  | inside => do
    let (entry, rest) ← member rule [] inside
    let (others, rest) ← laterMembers rule (rest.length + 1) [entry.1] rest
    return (entry :: others, rest)

/-- Takes a value whose brackets nest at most the given number deep. -/
def value : Nat → Reader Json
  | 0 => fun text =>
    match skipSpace text with
    | '[' :: _ => .error .malformed
    | '\x7b' :: _ => .error .malformed
    | inside => scalar inside
  | depth + 1 => fun text =>
    match skipSpace text with
    | '[' :: rest => do
      let (entries, rest) ← elements (value depth) (value depth) rest
      return (.array entries, rest)
    | '\x7b' :: rest => do
      let (entries, rest) ← members (.uniform (value depth)) rest
      return (.object entries, rest)
    | inside => scalar inside

end Json
end Permission
