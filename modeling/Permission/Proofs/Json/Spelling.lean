import Permission.Json.Reader

/-!
# Spelled values and reading them back

A JSON text may write the characters of its strings in several ways.  A spelling says how each
character is written; every spelling whose characters read back gives texts that read back as a
whole, as far as their brackets nest no deeper than the reader admits.
-/

set_option autoImplicit false

namespace Permission
namespace Json

/-! ### Characters and strings -/

/-- Each character reads back from what is written for it, whatever follows. -/
def ReadsBack (spell : Char → List Char) : Prop :=
  ∀ c rest, character (spell c ++ rest) = .ok (some c, rest)

theorem hexValue_hexDigit {value : Nat} (small : value < 16) :
    hexValue? (hexDigit value) = some value := by
  have all : ∀ value < 16, hexValue? (hexDigit value) = some value := by decide
  exact all value small

theorem character_unicode {c : Char} (small : c.toNat < 256) (rest : List Char) :
    character ('\\' :: 'u' :: '0' :: '0' :: hexDigit (c.toNat / 16) :: hexDigit (c.toNat % 16) ::
      rest) = .ok (some c, rest) := by
  have zero : hexValue? '0' = some 0 := by decide
  have high : hexValue? (hexDigit (c.toNat / 16)) = some (c.toNat / 16) :=
    hexValue_hexDigit (by omega)
  have low : hexValue? (hexDigit (c.toNat % 16)) = some (c.toNat % 16) :=
    hexValue_hexDigit (by omega)
  have whole : ((0 * 16 + 0) * 16 + c.toNat / 16) * 16 + c.toNat % 16 = c.toNat := by omega
  have unit : utf16Unit ('0' :: '0' :: hexDigit (c.toNat / 16) :: hexDigit (c.toNat % 16) ::
      rest) = .ok (c.toNat, rest) := by
    rw [utf16Unit, zero, high, low]
    simp only [whole]
  have trailing : isTrailingSurrogate c.toNat = false := by
    simp only [isTrailingSurrogate, Bool.and_eq_false_iff, decide_eq_false_iff_not]
    omega
  have leading : isLeadingSurrogate c.toNat = false := by
    simp only [isLeadingSurrogate, Bool.and_eq_false_iff, decide_eq_false_iff_not]
    omega
  rw [character, escaped, unicodeEscape, unit]
  simp [bind, Except.bind, pure, Except.pure, trailing, leading, Char.ofNat_toNat]

theorem character_plain {c : Char} (noQuote : c ≠ '"') (noBackslash : c ≠ '\\')
    (printed : 0x20 ≤ c.toNat) (rest : List Char) :
    character (c :: rest) = .ok (some c, rest) := by
  rw [character]
  · rw [if_neg (Nat.not_lt.mpr printed)]
  · exact noQuote
  · exact noBackslash

theorem escape_cases (c : Char) :
    (∃ letter, escape c = ['\\', letter] ∧ letterEscape? letter = some c ∧ letter ≠ 'u' ∧
      letter ≠ '\'') ∨
    (c.toNat < 0x20 ∧ escape c =
      ['\\', 'u', '0', '0', hexDigit (c.toNat / 16), hexDigit (c.toNat % 16)]) ∨
    (c ≠ '"' ∧ c ≠ '\\' ∧ 0x20 ≤ c.toNat ∧ escape c = [c]) := by
  unfold escape
  by_cases quote : c = '"'
  · rw [if_pos quote, quote]
    exact Or.inl ⟨'"', rfl, rfl, by decide, by decide⟩
  rw [if_neg quote]
  by_cases backslash : c = '\\'
  · rw [if_pos backslash, backslash]
    exact Or.inl ⟨'\\', rfl, rfl, by decide, by decide⟩
  rw [if_neg backslash]
  by_cases backspace : c = '\x08'
  · rw [if_pos backspace, backspace]
    exact Or.inl ⟨'b', rfl, rfl, by decide, by decide⟩
  rw [if_neg backspace]
  by_cases tab : c = '\t'
  · rw [if_pos tab, tab]
    exact Or.inl ⟨'t', rfl, rfl, by decide, by decide⟩
  rw [if_neg tab]
  by_cases lineFeed : c = '\n'
  · rw [if_pos lineFeed, lineFeed]
    exact Or.inl ⟨'n', rfl, rfl, by decide, by decide⟩
  rw [if_neg lineFeed]
  by_cases formFeed : c = '\x0c'
  · rw [if_pos formFeed, formFeed]
    exact Or.inl ⟨'f', rfl, rfl, by decide, by decide⟩
  rw [if_neg formFeed]
  by_cases carriageReturn : c = '\r'
  · rw [if_pos carriageReturn, carriageReturn]
    exact Or.inl ⟨'r', rfl, rfl, by decide, by decide⟩
  rw [if_neg carriageReturn]
  by_cases control : c.toNat < 0x20
  · rw [if_pos control]
    exact Or.inr (Or.inl ⟨control, rfl⟩)
  · rw [if_neg control]
    exact Or.inr (Or.inr ⟨quote, backslash, Nat.not_lt.mp control, rfl⟩)

theorem readsBack_escape : ReadsBack escape := by
  intro c rest
  rcases escape_cases c with ⟨letter, written, stands, noUnicode, _⟩ | ⟨control, written⟩ |
    ⟨noQuote, noBackslash, printed, written⟩
  · rw [written]
    change (escaped (letter :: rest)).bind (fun read => .ok (some read.1, read.2)) = _
    rw [escaped, stands]
    · rfl
    · exact noUnicode
  · rw [written]
    exact character_unicode (by omega) rest
  · rw [written]
    exact character_plain noQuote noBackslash printed rest

theorem characters_step {text rest : List Char} {c : Char}
    (taken : character text = .ok (some c, rest)) :
    characters text = (characters rest).map fun (others, rest) => (c :: others, rest) := by
  rw [characters]
  split
  · rename_i failed
    rw [taken] at failed
    cases failed
  · rename_i ended
    rw [taken] at ended
    cases ended
  · rename_i same
    rw [taken] at same
    cases same
    cases characters rest <;> rfl

theorem characters_spelled {spell : Char → List Char} (reads : ReadsBack spell)
    (text rest : List Char) :
    characters (text.flatMap spell ++ '"' :: rest) = .ok (text, rest) := by
  induction text with
  | nil =>
      rw [characters]
      rfl
  | cons c text ih =>
      rw [List.flatMap_cons, List.append_assoc, characters_step (reads c _), ih]
      rfl

/-! ### Values -/

def spelledString (spell : Char → List Char) (text : String) : List Char :=
  '"' :: (text.toList.flatMap spell ++ ['"'])

mutual

/-- The text of a value without any space, with its strings spelled in the given way. -/
def spelled (spell : Char → List Char) : Json → List Char
  | .null => ['n', 'u', 'l', 'l']
  | .bool value => (boolText value).toList
  | .number literal => literal.toList
  | .string text => spelledString spell text
  | .array [] => ['[', ']']
  | .array (first :: others) => '[' :: (spelled spell first ++ spelledLater spell others ++ [']'])
  | .object [] => ['\x7b', '\x7d']
  | .object ((key, value) :: others) =>
    '\x7b' :: (spelledString spell key ++ ':' :: spelled spell value ++
      spelledLaterMembers spell others ++ ['\x7d'])

def spelledLater (spell : Char → List Char) : List Json → List Char
  | [] => []
  | first :: others => ',' :: (spelled spell first ++ spelledLater spell others)

def spelledLaterMembers (spell : Char → List Char) : List (String × Json) → List Char
  | [] => []
  | (key, value) :: others =>
    ',' :: (spelledString spell key ++ ':' :: spelled spell value ++
      spelledLaterMembers spell others)

end

mutual

/-- No part of the value is a number, whose text would not show where it ends. -/
def Textual : Json → Prop
  | .number _ => False
  | .array elements => Textuals elements
  | .object members => TextualMembers members
  | _ => True

def Textuals : List Json → Prop
  | [] => True
  | first :: others => Textual first ∧ Textuals others

def TextualMembers : List (String × Json) → Prop
  | [] => True
  | (_, value) :: others => Textual value ∧ TextualMembers others

end

mutual

/-- A change of characters that keeps what stands around strings is a change of the spelling. -/
theorem spelled_flatMap {spell change : Char → List Char}
    (keeps : ∀ c, c ≠ '\'' → change c = [c]) : ∀ {json : Json}, Textual json →
      (spelled spell json).flatMap change = spelled (fun c => (spell c).flatMap change) json
  | .null, _ => by simp [spelled, keeps]
  | .bool value, _ => by cases value <;> simp [spelled, keeps, boolText]
  | .number _, textual => textual.elim
  | .string text, _ => by simp [spelled, spelledString, keeps, List.flatMap_assoc]
  | .array [], _ => by simp [spelled, keeps]
  | .array (first :: others), textual => by
      simp [spelled, keeps, spelled_flatMap keeps textual.1, spelledLater_flatMap keeps textual.2]
  | .object [], _ => by simp [spelled, keeps]
  | .object ((key, value) :: others), textual => by
      simp [spelled, spelledString, keeps, List.flatMap_assoc, spelled_flatMap keeps textual.1,
        spelledLaterMembers_flatMap keeps textual.2]

theorem spelledLater_flatMap {spell change : Char → List Char}
    (keeps : ∀ c, c ≠ '\'' → change c = [c]) : ∀ {elements : List Json}, Textuals elements →
      (spelledLater spell elements).flatMap change =
        spelledLater (fun c => (spell c).flatMap change) elements
  | [], _ => rfl
  | first :: others, textual => by
      simp [spelledLater, keeps, spelled_flatMap keeps textual.1,
        spelledLater_flatMap keeps textual.2]

theorem spelledLaterMembers_flatMap {spell change : Char → List Char}
    (keeps : ∀ c, c ≠ '\'' → change c = [c]) :
    ∀ {members : List (String × Json)}, TextualMembers members →
      (spelledLaterMembers spell members).flatMap change =
        spelledLaterMembers (fun c => (spell c).flatMap change) members
  | [], _ => rfl
  | (key, value) :: others, textual => by
      simp [spelledLaterMembers, spelledString, keeps, List.flatMap_assoc,
        spelled_flatMap keeps textual.1, spelledLaterMembers_flatMap keeps textual.2]

end

theorem intercalate_comma (first : List Char) (others : List (List Char)) :
    [','].intercalate (first :: others) = first ++ others.flatMap (',' :: ·) := by
  induction others generalizing first with
  | nil => simp [List.intercalate]
  | cons next others ih =>
      have later := ih next
      simp only [List.intercalate, List.intersperse_cons_cons, List.flatten_cons] at later ⊢
      rw [later, List.flatMap_cons]
      rfl

theorem quoted_toList (text : String) : (quoted text).toList = spelledString escape text := by
  simp [quoted, spelledString]

mutual

theorem compact_toList : ∀ json : Json, json.compact.toList = spelled escape json
  | .null => by rw [compact, spelled]; rfl
  | .bool value => by rw [compact, spelled]
  | .number literal => by rw [compact, spelled]
  | .string text => by rw [compact, spelled, quoted_toList]
  | .array [] => by rw [compact, spelled, compactElements]; simp
  | .array (first :: others) => by
      rw [compact, spelled, compactElements]
      simp [String.toList_append, String.toList_intercalate, intercalate_comma,
        compact_toList first, compactElements_toList others]
  | .object [] => by rw [compact, spelled, compactMembers]; simp
  | .object ((key, value) :: others) => by
      rw [compact, spelled, compactMembers]
      simp [String.toList_append, String.toList_intercalate, intercalate_comma, quoted_toList,
        compact_toList value, compactMembers_toList others]

theorem compactElements_toList : ∀ elements : List Json,
    ((compactElements elements).map String.toList).flatMap (',' :: ·) =
      spelledLater escape elements
  | [] => rfl
  | first :: others => by
      rw [compactElements, spelledLater, List.map_cons, List.flatMap_cons, compact_toList first,
        compactElements_toList others]
      rfl

theorem compactMembers_toList : ∀ members : List (String × Json),
    ((compactMembers members).map String.toList).flatMap (',' :: ·) =
      spelledLaterMembers escape members
  | [] => rfl
  | (key, value) :: others => by
      rw [compactMembers, spelledLaterMembers, List.map_cons, List.flatMap_cons,
        compactMembers_toList others, String.toList_append, String.toList_append, quoted_toList,
        compact_toList value]
      simp

end

/-! ### Reading spelled values back -/

mutual

def nesting : Json → Nat
  | .array elements => nestings elements + 1
  | .object members => memberNestings members + 1
  | _ => 0

def nestings : List Json → Nat
  | [] => 0
  | first :: others => max (nesting first) (nestings others)

def memberNestings : List (String × Json) → Nat
  | [] => 0
  | (_, value) :: others => max (nesting value) (memberNestings others)

end

theorem nesting_array_le {elements : List Json} {depth : Nat} :
    (array elements).nesting ≤ depth + 1 ↔ nestings elements ≤ depth :=
  Nat.succ_le_succ_iff

theorem nesting_object_le {members : List (String × Json)} {depth : Nat} :
    (object members).nesting ≤ depth + 1 ↔ memberNestings members ≤ depth :=
  Nat.succ_le_succ_iff

theorem nestings_cons_le {first : Json} {others : List Json} {depth : Nat} :
    nestings (first :: others) ≤ depth ↔ first.nesting ≤ depth ∧ nestings others ≤ depth :=
  Nat.max_le

theorem memberNestings_cons_le {key : String} {value : Json} {others : List (String × Json)}
    {depth : Nat} :
    memberNestings ((key, value) :: others) ≤ depth ↔
      value.nesting ≤ depth ∧ memberNestings others ≤ depth :=
  Nat.max_le

/-- A reader takes the value that a text spells if it nests at most so deep, and otherwise finds
the text malformed, whatever follows it. -/
def Takes (reader : Reader Json) (spell : Char → List Char) (depth : Nat) (json : Json) : Prop :=
  ∀ rest, reader (spelled spell json ++ rest) =
    if json.nesting ≤ depth then .ok (json, rest) else .error .malformed

theorem skipSpace_cons {c : Char} (printed : isSpace c = false) (rest : List Char) :
    skipSpace (c :: rest) = c :: rest := by
  rw [skipSpace, List.dropWhile_cons_of_neg]
  rw [printed]
  exact Bool.false_ne_true

theorem length_le_spelledLater (spell : Char → List Char) (elements : List Json) :
    elements.length ≤ (spelledLater spell elements).length := by
  induction elements with
  | nil => exact Nat.le_refl _
  | cons first others ih =>
      rw [spelledLater, List.length_cons, List.length_cons, List.length_append]
      omega

theorem length_le_spelledLaterMembers (spell : Char → List Char)
    (members : List (String × Json)) :
    members.length ≤ (spelledLaterMembers spell members).length := by
  induction members with
  | nil => exact Nat.le_refl _
  | cons first others ih =>
      rw [spelledLaterMembers, List.length_cons, List.length_cons, List.length_append]
      omega

def consTaken {α : Type} (first : Except StorageError (α × List Char))
    (more : α → Reader (List α)) : Except StorageError (List α × List Char) :=
  first.bind fun entry =>
    (more entry.1 entry.2).bind fun entries => .ok (entry.1 :: entries.1, entries.2)

theorem consTaken_fits {α : Type} {first : α} {fits fit all : Prop} [Decidable fits]
    [Decidable fit] [Decidable all] {others : List α} {text rest : List Char}
    {more : α → Reader (List α)} (both : all ↔ fits ∧ fit)
    (later : more first text = if fit then .ok (others, rest) else .error .malformed) :
    consTaken (if fits then .ok (first, text) else .error .malformed) more =
      if all then .ok (first :: others, rest) else .error .malformed := by
  by_cases here : fits
  · rw [if_pos here]
    change (more first text).bind _ = _
    rw [later]
    by_cases there : fit
    · rw [if_pos there, if_pos (both.mpr ⟨here, there⟩)]
      rfl
    · rw [if_neg there, if_neg fun whole => there (both.mp whole).2]
      rfl
  · rw [if_neg here, if_neg fun whole => here (both.mp whole).1]
    rfl

def wrapTaken {α β : Type} (wrap : α → β) (taken : Except StorageError (α × List Char)) :
    Except StorageError (β × List Char) :=
  taken.bind fun entries => .ok (wrap entries.1, entries.2)

theorem wrapTaken_fits {α β : Type} (wrap : α → β) {entries : α} {rest : List Char}
    {inner outer : Prop} [Decidable inner] [Decidable outer] (same : outer ↔ inner) :
    wrapTaken wrap (if inner then .ok (entries, rest) else .error .malformed) =
      if outer then .ok (wrap entries, rest) else .error .malformed := by
  by_cases fits : inner
  · rw [if_pos fits, if_pos (same.mpr fits)]
    rfl
  · rw [if_neg fits, if_neg (mt same.mp fits)]
    rfl

theorem wrapTaken_ok {α β : Type} {wrap : α → β} {taken : Except StorageError (α × List Char)}
    {result : β} {rest : List Char} (done : wrapTaken wrap taken = .ok (result, rest)) :
    ∃ entries, taken = .ok (entries, rest) ∧ wrap entries = result := by
  cases taken with
  | error fault => cases done
  | ok read =>
      cases done
      exact ⟨read.1, rfl, rfl⟩

/-- Takes a value by its bracket, with the given readers of what stands behind the bracket. -/
def byBracket (elements : Reader (List Json)) (members : Reader (List (String × Json))) :
    Reader Json := fun text =>
  match skipSpace text with
  | '[' :: rest => wrapTaken array (elements rest)
  | '\x7b' :: rest => wrapTaken object (members rest)
  | inside => scalar inside

theorem byBracket_scalar {elements : Reader (List Json)} {members : Reader (List (String × Json))}
    {text : List Char} (noArray : ∀ rest, skipSpace text ≠ '[' :: rest)
    (noObject : ∀ rest, skipSpace text ≠ '\x7b' :: rest) :
    byBracket elements members text = scalar (skipSpace text) := by
  unfold byBracket
  split
  · exact absurd ‹_› (noArray _)
  · exact absurd ‹_› (noObject _)
  · rfl

theorem byBracket_begin {elements : Reader (List Json)} {members : Reader (List (String × Json))}
    {text rest : List Char} {c : Char} (begins : skipSpace text = c :: rest) (noArray : c ≠ '[')
    (noObject : c ≠ '\x7b') : byBracket elements members text = scalar (c :: rest) := by
  rw [byBracket_scalar, begins]
  · intro behind same
    rw [begins] at same
    exact noArray (List.cons.inj same).1
  · intro behind same
    rw [begins] at same
    exact noObject (List.cons.inj same).1

theorem value_zero : value 0 =
    byBracket (fun _ => .error .malformed) (fun _ => .error .malformed) := rfl

theorem value_succ (depth : Nat) : value (depth + 1) =
    byBracket (elements (value depth) (value depth)) (members (.uniform (value depth))) := rfl

theorem laterElements_spelled {reader : Reader Json} {spell : Char → List Char} {depth : Nat}
    {elements : List Json} (takes : ∀ element ∈ elements, Takes reader spell depth element)
    {fuel : Nat} (enough : elements.length < fuel) (rest : List Char) :
    laterElements reader fuel (spelledLater spell elements ++ ']' :: rest) =
      if nestings elements ≤ depth then .ok (elements, rest) else .error .malformed := by
  induction elements generalizing fuel with
  | nil =>
      cases fuel with
      | zero => cases enough
      | succ fuel => rw [laterElements, nestings, if_pos (Nat.zero_le _)]; rfl
  | cons first others ih =>
      cases fuel with
      | zero => cases enough
      | succ fuel =>
          have here := takes first List.mem_cons_self
            (spelledLater spell others ++ ']' :: rest)
          have later := ih (fun element member => takes element (List.mem_cons_of_mem _ member))
            (Nat.lt_of_succ_lt_succ enough)
          have step (text : List Char) : laterElements reader (fuel + 1) (',' :: text) =
              consTaken (reader text) fun _ => laterElements reader fuel := rfl
          rw [spelledLater, List.cons_append, List.append_assoc, step, here]
          exact consTaken_fits nestings_cons_le later

theorem elements_spelled {reader : Reader Json} {spell : Char → List Char} {depth : Nat}
    {first : Json} {others : List Json}
    (takes : ∀ element ∈ first :: others, Takes reader spell depth element)
    (begins : ∃ c text, spelled spell first = c :: text ∧ isSpace c = false ∧ c ≠ ']')
    (rest : List Char) :
    elements reader reader (spelled spell first ++ spelledLater spell others ++ ']' :: rest) =
      if nestings (first :: others) ≤ depth then .ok (first :: others, rest)
      else .error .malformed := by
  obtain ⟨c, text, start, printed, noEnd⟩ := begins
  have here := takes first List.mem_cons_self (spelledLater spell others ++ ']' :: rest)
  have enough : others.length < (spelledLater spell others ++ ']' :: rest).length + 1 := by
    have counted := length_le_spelledLater spell others
    rw [List.length_append]
    omega
  have later := laterElements_spelled
    (fun element member => takes element (List.mem_cons_of_mem _ member)) enough rest
  have inside : elements reader reader
      (spelled spell first ++ (spelledLater spell others ++ ']' :: rest)) =
        consTaken (reader (spelled spell first ++ (spelledLater spell others ++ ']' :: rest)))
          fun _ left => laterElements reader (left.length + 1) left := by
    rw [start, List.cons_append, elements, skipSpace_cons printed]
    split
    · rename_i empty
      cases empty
    · rename_i ended
      cases ended
      exact absurd rfl noEnd
    · rfl
  rw [List.append_assoc, inside, here]
  exact consTaken_fits nestings_cons_le later

theorem member_spelled {rule : MemberRule} {spell : Char → List Char} {depth : Nat}
    {earlier : List String} {key : String} {value : Json} (reads : ReadsBack spell)
    (admitted : rule.admits earlier key = true) (takes : Takes (rule.value key) spell depth value)
    (rest : List Char) :
    member rule earlier (spelledString spell key ++ ':' :: spelled spell value ++ rest) =
      if value.nesting ≤ depth then .ok ((key, value), rest) else .error .malformed := by
  have text : spelledString spell key ++ ':' :: spelled spell value ++ rest =
      '"' :: (key.toList.flatMap spell ++ '"' :: ':' :: (spelled spell value ++ rest)) := by
    simp [spelledString]
  rw [text, member, skipSpace_cons (by decide)]
  simp only [characters_spelled reads, bind, Except.bind, String.ofList_toList, admitted,
    skipSpace_cons (show isSpace ':' = false by decide), takes rest, if_true]
  by_cases fits : value.nesting ≤ depth
  · rw [if_pos fits, if_pos fits]
    rfl
  · rw [if_neg fits, if_neg fits]

def RuleTakes (rule : MemberRule) (spell : Char → List Char) (depth : Nat)
    (entry : String × Json) : Prop :=
  (∀ earlier, rule.admits earlier entry.1 = true) ∧ Takes (rule.value entry.1) spell depth entry.2

theorem laterMembers_spelled {rule : MemberRule} {spell : Char → List Char} {depth : Nat}
    {members : List (String × Json)} (reads : ReadsBack spell)
    (takes : ∀ entry ∈ members, RuleTakes rule spell depth entry) {fuel : Nat}
    (enough : members.length < fuel) (earlier : List String) (rest : List Char) :
    laterMembers rule fuel earlier (spelledLaterMembers spell members ++ '\x7d' :: rest) =
      if memberNestings members ≤ depth then .ok (members, rest) else .error .malformed := by
  induction members generalizing fuel earlier with
  | nil =>
      cases fuel with
      | zero => cases enough
      | succ fuel => rw [laterMembers, memberNestings, if_pos (Nat.zero_le _)]; rfl
  | cons first others ih =>
      cases fuel with
      | zero => cases enough
      | succ fuel =>
          obtain ⟨key, value⟩ := first
          obtain ⟨admitted, taken⟩ := takes (key, value) List.mem_cons_self
          have here := member_spelled reads (admitted earlier) taken
            (spelledLaterMembers spell others ++ '\x7d' :: rest)
          have later := ih (fun entry member => takes entry (List.mem_cons_of_mem _ member))
            (Nat.lt_of_succ_lt_succ enough) (key :: earlier)
          have step (text : List Char) : laterMembers rule (fuel + 1) earlier (',' :: text) =
              consTaken (member rule earlier text) fun entry =>
                laterMembers rule fuel (entry.1 :: earlier) := rfl
          rw [spelledLaterMembers, List.cons_append, List.append_assoc _ _ (_ :: rest), step, here]
          exact consTaken_fits memberNestings_cons_le later

theorem members_spelled (rule : MemberRule) {spell : Char → List Char} {depth : Nat}
    {key : String} {value : Json} {others : List (String × Json)} (reads : ReadsBack spell)
    (admitted : rule.admits [] key = true) (takes : Takes (rule.value key) spell depth value)
    (takesOthers : ∀ entry ∈ others, RuleTakes rule spell depth entry) (rest : List Char) :
    members rule (spelledString spell key ++ ':' :: spelled spell value ++
        spelledLaterMembers spell others ++ '\x7d' :: rest) =
      if memberNestings ((key, value) :: others) ≤ depth then .ok ((key, value) :: others, rest)
      else .error .malformed := by
  have here := member_spelled reads admitted takes
    (spelledLaterMembers spell others ++ '\x7d' :: rest)
  have enough : others.length <
      (spelledLaterMembers spell others ++ '\x7d' :: rest).length + 1 := by
    have counted := length_le_spelledLaterMembers spell others
    rw [List.length_append]
    omega
  have later := laterMembers_spelled reads takesOthers enough [key] rest
  have inside (text : List Char) : members rule ('"' :: text) =
      consTaken (member rule [] ('"' :: text)) fun entry left =>
        laterMembers rule (left.length + 1) [entry.1] left := rfl
  rw [List.append_assoc]
  have opened := inside ((key.toList.flatMap spell ++ ['"']) ++ ':' :: spelled spell value ++
    (spelledLaterMembers spell others ++ '\x7d' :: rest))
  rw [← List.cons_append, ← List.cons_append, ← spelledString] at opened
  rw [opened, here]
  exact consTaken_fits memberNestings_cons_le later

theorem spelled_begins {spell : Char → List Char} {json : Json} (textual : Textual json) :
    ∃ c text, spelled spell json = c :: text ∧ isSpace c = false ∧ c ≠ ']' := by
  cases json with
  | null => exact ⟨'n', _, rfl, by decide, by decide⟩
  | bool value =>
      cases value with
      | false => exact ⟨'f', ['a', 'l', 's', 'e'], rfl, by decide, by decide⟩
      | true => exact ⟨'t', ['r', 'u', 'e'], rfl, by decide, by decide⟩
  | number literal => exact textual.elim
  | string text => exact ⟨'"', _, rfl, by decide, by decide⟩
  | array elements =>
      cases elements with
      | nil => exact ⟨'[', _, rfl, by decide, by decide⟩
      | cons first others => exact ⟨'[', _, rfl, by decide, by decide⟩
  | object members =>
      cases members with
      | nil => exact ⟨'\x7b', _, rfl, by decide, by decide⟩
      | cons first others => exact ⟨'\x7b', _, rfl, by decide, by decide⟩

theorem scalar_string {spell : Char → List Char} (reads : ReadsBack spell) (text : String)
    (rest : List Char) :
    scalar (spelledString spell text ++ rest) = .ok (.string text, rest) := by
  have shape : spelledString spell text ++ rest =
      '"' :: (text.toList.flatMap spell ++ '"' :: rest) := by
    simp [spelledString]
  rw [shape, scalar, characters_spelled reads]
  simp [bind, Except.bind, pure, Except.pure]

theorem value_zero_array (spell : Char → List Char) (elements : List Json) :
    Takes (value 0) spell 0 (.array elements) := by
  intro rest
  rw [if_neg (by rw [nesting]; omega)]
  cases elements <;> rfl

theorem value_zero_object (spell : Char → List Char) (members : List (String × Json)) :
    Takes (value 0) spell 0 (.object members) := by
  intro rest
  rw [if_neg (by rw [nesting]; omega)]
  cases members <;> rfl

theorem value_succ_array {spell : Char → List Char} {depth : Nat} {first : Json}
    {others : List Json}
    (takes : ∀ element ∈ first :: others, Takes (value depth) spell depth element)
    (textual : Textual first) :
    Takes (value (depth + 1)) spell (depth + 1) (.array (first :: others)) := by
  intro rest
  have entries := elements_spelled takes (spelled_begins textual) rest
  have shape : spelled spell (.array (first :: others)) ++ rest =
      '[' :: (spelled spell first ++ spelledLater spell others ++ ']' :: rest) := by
    simp [spelled]
  have opened (text : List Char) : value (depth + 1) ('[' :: text) =
      wrapTaken array (Json.elements (value depth) (value depth) text) := rfl
  rw [shape, opened, entries]
  exact wrapTaken_fits array nesting_array_le

theorem value_succ_object {spell : Char → List Char} {depth : Nat} {key : String} {inner : Json}
    {others : List (String × Json)} (reads : ReadsBack spell)
    (takes : ∀ entry ∈ (key, inner) :: others, Takes (value depth) spell depth entry.2) :
    Takes (value (depth + 1)) spell (depth + 1) (.object ((key, inner) :: others)) := by
  intro rest
  have admitted : (MemberRule.uniform (value depth)).admits [] key = true := rfl
  have entries := members_spelled (.uniform (value depth)) reads admitted
    (takes (key, inner) List.mem_cons_self)
    (fun entry member => ⟨fun _ => rfl, takes entry (List.mem_cons_of_mem _ member)⟩) rest
  have shape : spelled spell (.object ((key, inner) :: others)) ++ rest =
      '\x7b' :: (spelledString spell key ++ ':' :: spelled spell inner ++
        spelledLaterMembers spell others ++ '\x7d' :: rest) := by
    simp [spelled]
  have opened (text : List Char) : value (depth + 1) ('\x7b' :: text) =
      wrapTaken object (Json.members (.uniform (value depth)) text) := rfl
  rw [shape, opened, entries]
  exact wrapTaken_fits object nesting_object_le

mutual

-- The depth that is left goes down with each bracket, so it is generalised in every statement.

theorem value_takes {spell : Char → List Char} (reads : ReadsBack spell) :
    ∀ (json : Json), Textual json → ∀ depth, Takes (value depth) spell depth json
  | .null, _, depth => by intro rest; cases depth <;> rfl
  | .bool true, _, depth => by intro rest; cases depth <;> rfl
  | .bool false, _, depth => by intro rest; cases depth <;> rfl
  | .number _, textual, _ => textual.elim
  | .string text, _, depth => by
      intro rest
      have taken := scalar_string reads text rest
      rw [if_pos (show (Json.string text).nesting ≤ depth from Nat.zero_le depth)]
      cases depth <;> exact taken
  | .array elements, _, 0 => value_zero_array spell elements
  | .object members, _, 0 => value_zero_object spell members
  | .array [], _, depth + 1 => by
      intro rest
      rw [if_pos (nesting_array_le.mpr (Nat.zero_le depth))]
      rfl
  | .object [], _, depth + 1 => by
      intro rest
      rw [if_pos (nesting_object_le.mpr (Nat.zero_le depth))]
      rfl
  | .array (first :: others), textual, depth + 1 =>
      value_succ_array (elements_take reads (first :: others) textual depth) textual.1
  | .object ((key, inner) :: others), textual, depth + 1 =>
      value_succ_object reads (members_take reads ((key, inner) :: others) textual depth)

theorem elements_take {spell : Char → List Char} (reads : ReadsBack spell) :
    ∀ (elements : List Json), Textuals elements → ∀ depth, ∀ element ∈ elements,
      Takes (value depth) spell depth element
  | [], _, _ => by
      intro element absent
      cases absent
  | first :: others, textual, depth => by
      intro element member
      rcases List.mem_cons.mp member with same | later
      · rw [same]
        exact value_takes reads first textual.1 depth
      · exact elements_take reads others textual.2 depth element later

theorem members_take {spell : Char → List Char} (reads : ReadsBack spell) :
    ∀ (members : List (String × Json)), TextualMembers members → ∀ depth, ∀ entry ∈ members,
      Takes (value depth) spell depth entry.2
  | [], _, _ => by
      intro entry absent
      cases absent
  | (key, inner) :: others, textual, depth => by
      intro entry member
      rcases List.mem_cons.mp member with same | later
      · rw [same]
        exact value_takes reads inner textual.1 depth
      · exact members_take reads others textual.2 depth entry later

end

end Json
end Permission
