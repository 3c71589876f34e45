import Permission.Proofs.Attempts
import Permission.Proofs.Storage.Distinct

/-!
# The embedded form as a script literal

Markup takes the embedded form for an object literal of JavaScript.  This module says what such a
literal is read as, and then what the embedded form is: the stored object of the predicate, but with
a single quote for each double quote in its names.  For the exchange of quotes also reaches the
quote of an escape, and what is an escape of the one quote becomes an escape of the other.
-/

set_option autoImplicit false

namespace Permission
namespace Script

/-! ### Reading literals -/

abbrev Reader (α : Type) := List Char → Option (α × List Char)

def isBlank (c : Char) : Bool :=
  (Text.isBlank c && c != '\u0085') || c == '\uFEFF'

def skipBlanks (text : List Char) : List Char :=
  text.dropWhile isBlank

/-- The character that a letter stands for after a backslash.  A letter without a meaning of its own
stands for itself; the ends of lines, and what begins a numeric escape, are left out. -/
def letterEscape? : Char → Option Char
  | 'b' => some '\x08'
  | 'f' => some '\x0c'
  | 'n' => some '\n'
  | 'r' => some '\r'
  | 't' => some '\t'
  | 'v' => some '\x0b'
  | c =>
    if c.isDigit ∨ c = 'x' ∨ c ∈ ['\n', '\r', '\u2028', '\u2029'] then none else some c

/-- Takes what follows a backslash.  The letter `u` begins the escape of a unit of UTF-16 or of a
pair of surrogates, as in JSON. -/
def escaped : Reader Char
  | [] => none
  | 'u' :: rest => (Json.unicodeEscape rest).toOption
  | letter :: rest => (letterEscape? letter).map fun c => (c, rest)

def character (quote : Char) : Reader (Option Char)
  | [] => none
  | '\\' :: rest => (escaped rest).map fun (c, rest) => (some c, rest)
  | c :: rest =>
    if c = quote then some (none, rest)
    else if c = '\n' ∨ c = '\r' then none
    else some (some c, rest)

private theorem escaped_shortens {text rest : List Char} {c : Char}
    (taken : escaped text = some (c, rest)) : rest.length ≤ text.length := by
  unfold escaped at taken
  split at taken
  · cases taken
  · rename_i unit
    have read : Json.character ('\\' :: 'u' :: unit) = .ok (some c, rest) := by
      change (Json.unicodeEscape unit).bind (fun read => .ok (some read.1, read.2)) = _
      cases outcome : Json.unicodeEscape unit with
      | error fault =>
          rw [outcome] at taken
          cases taken
      | ok read =>
          rw [outcome] at taken
          cases taken
          rfl
    exact Nat.le_of_lt_succ (Json.character_length read)
  · obtain ⟨_, _, same⟩ := Option.map_eq_some_iff.mp taken
    cases same
    exact Nat.le_succ _

theorem character_shortens {quote : Char} {text rest : List Char} {c : Option Char}
    (taken : character quote text = some (c, rest)) : rest.length < text.length := by
  unfold character at taken
  split at taken
  · cases taken
  · obtain ⟨⟨d, left⟩, inner, same⟩ := Option.map_eq_some_iff.mp taken
    cases same
    exact Nat.lt_succ_of_le (escaped_shortens inner)
  · split at taken
    · cases taken
      exact Nat.lt_succ_self _
    · split at taken
      · cases taken
      · cases taken
        exact Nat.lt_succ_self _

def characters (quote : Char) (text : List Char) : Option (List Char × List Char) :=
  match _taken : character quote text with
  | none => none
  | some (none, rest) => some ([], rest)
  | some (some c, rest) => (characters quote rest).map fun (others, rest) => (c :: others, rest)
termination_by text.length
decreasing_by exact character_shortens _taken

def stringLiteral : Reader String
  | [] => none
  | quote :: rest =>
    if quote = '\'' ∨ quote = '"' then
      (characters quote rest).map fun (text, rest) => (String.ofList text, rest)
    else
      none

/-- Takes the entries after the first one, and the bracket that ends them.  The fuel bounds the
number of entries. -/
def laterEntries {α : Type} (closing : Char) (entry : Reader α) : Nat → Reader (List α)
  | 0, _ => none
  | fuel + 1, text =>
    match skipBlanks text with
    | [] => none
    | c :: rest =>
      if c = closing then some ([], rest)
      else if c = ',' then do
        let (first, rest) ← entry rest
        let (others, rest) ← laterEntries closing entry fuel rest
        return (first :: others, rest)
      else none

def entries {α : Type} (closing : Char) (entry : Reader α) : Reader (List α) := fun text =>
  match skipBlanks text with
  | [] => none
  | c :: rest =>
    if c = closing then some ([], rest)
    else do
      let (first, rest) ← entry (c :: rest)
      let (others, rest) ← laterEntries closing entry (rest.length + 1) rest
      return (first :: others, rest)

/-- Takes a member of an object: its key in quotes, a colon and its value. -/
def member (value : Reader Json) : Reader (String × Json) := fun text => do
  let (key, rest) ← stringLiteral (skipBlanks text)
  match skipBlanks rest with
  | ':' :: rest =>
    let (json, rest) ← value rest
    return ((key, json), rest)
  | _ => none

/-- The keys are those of the fields that the object gets: none comes again, which would take the
place of the earlier one, and none is `__proto__`, which names no field. -/
def NamesFields (members : List (String × Json)) : Prop :=
  (members.map Prod.fst).Nodup ∧ "__proto__" ∉ members.map Prod.fst

instance (members : List (String × Json)) : Decidable (NamesFields members) :=
  inferInstanceAs (Decidable (_ ∧ _))

/-- Takes a string, an array or an object whose brackets nest at most the given number deep. -/
def value : Nat → Reader Json
  | 0, text => (stringLiteral (skipBlanks text)).map fun (text, rest) => (.string text, rest)
  | depth + 1, text =>
    match skipBlanks text with
    | '[' :: rest => do
      let (elements, rest) ← entries ']' (value depth) rest
      return (.array elements, rest)
    | '\x7b' :: rest => do
      let (members, rest) ← entries '\x7d' (member (value depth)) rest
      if NamesFields members then some (.object members, rest) else none
    | inside => (stringLiteral inside).map fun (text, rest) => (.string text, rest)

/-- The value of a literal, with its strings and lists and the fields of its objects in the order in
which they are written.  The brackets of a text nest no deeper than it is long. -/
def read (text : String) : Option Json := do
  let (json, rest) ← value text.length text.toList
  if (skipBlanks rest).isEmpty then some json else none

/-! ### Texts that are read as known values -/

/-- A reader takes a value from a text, whatever follows. -/
def Takes {α : Type} (reader : Reader α) (text : List Char) (taken : α) : Prop :=
  ∀ rest, reader (text ++ rest) = some (taken, rest)

theorem skipBlanks_cons {c : Char} (printed : isBlank c = false) (rest : List Char) :
    skipBlanks (c :: rest) = c :: rest := by
  rw [skipBlanks, List.dropWhile_cons_of_neg]
  rw [printed]
  exact Bool.false_ne_true

theorem letterEscape_agrees {letter c : Char} (stands : Json.letterEscape? letter = some c) :
    letterEscape? letter = some c := by
  unfold Json.letterEscape? at stands
  split at stands <;> cases stands <;> decide

theorem unicodeEscape_byte {c : Char} (small : c.toNat < 256) (rest : List Char) :
    Json.unicodeEscape ('0' :: '0' :: Json.hexDigit (c.toNat / 16) ::
      Json.hexDigit (c.toNat % 16) :: rest) = .ok (c, rest) := by
  obtain ⟨⟨d, left⟩, taken, same⟩ := ok_of_bind (Json.character_unicode small rest)
  cases same
  exact taken

theorem character_unicode {c : Char} (small : c.toNat < 256) (quote : Char) :
    Takes (character quote) ['\\', 'u', '0', '0', Json.hexDigit (c.toNat / 16),
      Json.hexDigit (c.toNat % 16)] (some c) := by
  intro rest
  have unit := unicodeEscape_byte small rest
  change ((Json.unicodeEscape ('0' :: '0' :: Json.hexDigit (c.toNat / 16) ::
    Json.hexDigit (c.toNat % 16) :: rest)).toOption.map fun read => (some read.1, read.2)) = _
  rw [unit]
  rfl

theorem character_letter {letter c : Char} (stands : letterEscape? letter = some c)
    (noUnicode : letter ≠ 'u') (quote : Char) :
    Takes (character quote) ['\\', letter] (some c) := by
  intro rest
  have taken : escaped (letter :: rest) = some (c, rest) := by
    rw [escaped, stands]
    · rfl
    · exact noUnicode
  change (escaped (letter :: rest)).map (fun read => (some read.1, read.2)) = _
  rw [taken]
  rfl

theorem character_plain {c quote : Char} (noQuote : c ≠ quote) (noBackslash : c ≠ '\\')
    (printed : 0x20 ≤ c.toNat) : Takes (character quote) [c] (some c) := by
  intro rest
  have noEnd : ¬ (c = '\n' ∨ c = '\r') := by
    rintro (rfl | rfl)
    · exact absurd printed (by decide)
    · exact absurd printed (by decide)
  rw [List.singleton_append, character, if_neg noQuote, if_neg noEnd]
  exact noBackslash

theorem characters_step {quote c : Char} {text rest : List Char}
    (taken : character quote text = some (some c, rest)) :
    characters quote text =
      (characters quote rest).map fun (others, rest) => (c :: others, rest) := by
  rw [characters]
  split
  · rename_i failed
    rw [taken] at failed
    cases failed
  · rename_i ended
    rw [taken] at ended
    cases ended
  · rename_i same
    rw [taken] at same
    cases same
    rfl

theorem characters_end {quote : Char} {text rest : List Char}
    (ended : character quote text = some (none, rest)) :
    characters quote text = some ([], rest) := by
  rw [characters]
  split
  · rename_i failed
    rw [ended] at failed
    cases failed
  · rename_i same
    rw [ended] at same
    cases same
    rfl
  · rename_i taken
    rw [ended] at taken
    cases taken

theorem characters_take {quote : Char} {spell : Char → List Char} {change : Char → Char}
    (takes : ∀ c, Takes (character quote) (spell c) (some (change c)))
    (noBackslash : quote ≠ '\\') (text : List Char) :
    Takes (characters quote) (text.flatMap spell ++ [quote]) (text.map change) := by
  intro rest
  induction text with
  | nil =>
      have ended : character quote (quote :: rest) = some (none, rest) := by
        rw [character, if_pos rfl]
        exact noBackslash
      exact characters_end ended
  | cons c text ih =>
      rw [List.flatMap_cons, List.append_assoc, List.append_assoc,
        characters_step (takes c _), ← List.append_assoc, ih]
      rfl

section Entries

variable {ι α : Type} {closing : Char} {entry : Reader α}
variable {write : ι → List Char} {take : ι → α}

theorem laterEntries_take (printed : isBlank closing = false) (noComma : closing ≠ ',')
    {parts : List ι} (takes : ∀ part ∈ parts, Takes entry (write part) (take part))
    {fuel : Nat} (enough : parts.length < fuel) :
    Takes (laterEntries closing entry fuel)
      ((parts.flatMap fun part => ',' :: write part) ++ [closing]) (parts.map take) := by
  intro rest
  induction parts generalizing fuel with
  | nil =>
      cases fuel with
      | zero => cases enough
      | succ fuel =>
          change laterEntries closing entry (fuel + 1) (closing :: rest) = _
          rw [laterEntries, skipBlanks_cons printed]
          exact if_pos rfl
  | cons part parts ih =>
      cases fuel with
      | zero => cases enough
      | succ fuel =>
          obtain ⟨here, there⟩ := List.forall_mem_cons.mp takes
          have later := ih there (Nat.lt_of_succ_lt_succ enough)
          have comma : isBlank ',' = false := by decide
          have step (text : List Char) : laterEntries closing entry (fuel + 1) (',' :: text) =
              (entry text).bind fun first => (laterEntries closing entry fuel first.2).bind
                fun others => some (first.1 :: others.1, others.2) := by
            rw [laterEntries, skipBlanks_cons comma]
            exact (if_neg noComma.symm).trans (if_pos rfl)
          rw [List.flatMap_cons, List.cons_append, List.cons_append, List.cons_append, step,
            List.append_assoc, List.append_assoc, here, Option.bind_some, ← List.append_assoc,
            later]
          rfl

theorem length_le_later (write : ι → List Char) (parts : List ι) :
    parts.length ≤ (parts.flatMap fun part => ',' :: write part).length := by
  induction parts with
  | nil => exact Nat.le_refl 0
  | cons part parts ih =>
      rw [List.flatMap_cons, List.length_append, List.length_cons, List.length_cons]
      omega

theorem entries_take_nil (entry : Reader α) (printed : isBlank closing = false) :
    Takes (entries closing entry) [closing] [] := by
  intro rest
  change entries closing entry (closing :: rest) = _
  rw [entries, skipBlanks_cons printed]
  exact if_pos rfl

theorem entries_take_cons (printed : isBlank closing = false) (noComma : closing ≠ ',')
    {first : ι} {others : List ι}
    (takes : ∀ part ∈ first :: others, Takes entry (write part) (take part))
    (begins : ∃ c text, write first = c :: text ∧ isBlank c = false ∧ c ≠ closing) :
    Takes (entries closing entry)
      (write first ++ (others.flatMap fun part => ',' :: write part) ++ [closing])
      ((first :: others).map take) := by
  intro rest
  obtain ⟨here, there⟩ := List.forall_mem_cons.mp takes
  let behind := (others.flatMap fun part => ',' :: write part) ++ [closing] ++ rest
  have enough : others.length < behind.length + 1 := by
    have counted := length_le_later write others
    simp only [behind, List.length_append]
    omega
  have later : laterEntries closing entry (behind.length + 1) behind =
      some (others.map take, rest) := laterEntries_take printed noComma there enough rest
  have opened : entries closing entry (write first ++ behind) =
      (entry (write first ++ behind)).bind fun taken =>
        (laterEntries closing entry (taken.2.length + 1) taken.2).bind
          fun behind => some (taken.1 :: behind.1, behind.2) := by
    obtain ⟨c, text, shape, visible, inside⟩ := begins
    rw [shape, List.cons_append, entries, skipBlanks_cons visible]
    exact if_neg inside
  have text : write first ++ (others.flatMap fun part => ',' :: write part) ++ [closing] ++ rest =
      write first ++ behind := by
    simp [behind]
  rw [text, opened, here, Option.bind_some, later]
  rfl

end Entries

theorem value_string {text : List Char} {taken : String} (depth : Nat)
    (takes : Takes stringLiteral text taken)
    (begins : ∃ c later, text = c :: later ∧ isBlank c = false ∧ c ≠ '[' ∧ c ≠ '\x7b') :
    Takes (value depth) text (.string taken) := by
  intro rest
  obtain ⟨c, later, rfl, printed, noArray, noObject⟩ := begins
  have here := takes rest
  cases depth with
  | zero =>
      rw [value, List.cons_append, skipBlanks_cons printed, ← List.cons_append, here]
      rfl
  | succ depth =>
      rw [value, List.cons_append, skipBlanks_cons printed]
      split
      · rename_i same
        exact absurd (List.cons.inj same).1 noArray
      · rename_i same
        exact absurd (List.cons.inj same).1 noObject
      · rw [← List.cons_append, here]
        rfl

theorem value_array {depth : Nat} {text : List Char} {elements : List Json}
    (takes : Takes (entries ']' (value depth)) text elements) :
    Takes (value (depth + 1)) ('[' :: text) (.array elements) := by
  intro rest
  have opened (inside : List Char) : value (depth + 1) ('[' :: inside) =
      (entries ']' (value depth) inside).bind fun taken => some (.array taken.1, taken.2) := rfl
  rw [List.cons_append, opened, takes]
  rfl

theorem value_object {depth : Nat} {text : List Char} {members : List (String × Json)}
    (takes : Takes (entries '\x7d' (member (value depth))) text members)
    (fields : NamesFields members) :
    Takes (value (depth + 1)) ('\x7b' :: text) (.object members) := by
  intro rest
  have opened (inside : List Char) : value (depth + 1) ('\x7b' :: inside) =
      (entries '\x7d' (member (value depth)) inside).bind fun taken =>
        if NamesFields taken.1 then some (.object taken.1, taken.2) else none := rfl
  rw [List.cons_append, opened, takes]
  exact if_pos fields

theorem member_take {reader : Reader Json} {name text : List Char} {key : String} {taken : Json}
    (named : Takes stringLiteral name key) (takes : Takes reader text taken)
    (begins : ∃ c later, name = c :: later ∧ isBlank c = false) :
    Takes (member reader) (name ++ ':' :: text) (key, taken) := by
  intro rest
  obtain ⟨c, later, rfl, printed⟩ := begins
  have here := named (':' :: text ++ rest)
  have colon : isBlank ':' = false := by decide
  rw [List.append_assoc, member, List.cons_append, skipBlanks_cons printed, ← List.cons_append,
    here]
  simp only [Option.bind_eq_bind, Option.bind_some, List.cons_append, skipBlanks_cons colon,
    takes rest]
  rfl

end Script

/-! ### What is written -/

namespace Predicate

open Script (Takes isBlank)

def embeddedCharacter (c : Char) : List Char :=
  (Json.escape c).flatMap embedCharacter

def shownCharacter (c : Char) : Char :=
  if c = '"' then '\'' else c

/-- The name that a script reads for a name. -/
def shown (name : String) : String :=
  String.ofList (name.toList.map shownCharacter)

def renamed (change : String → String) : Predicate → Predicate
  | .has name => .has (change name)
  | .anyOf names => .anyOf (names.map change)
  | .allOf names => .allOf (names.map change)
  | .and lhs rhs => .and (lhs.renamed change) (rhs.renamed change)
  | .or lhs rhs => .or (lhs.renamed change) (rhs.renamed change)
  | .not operand => .not (operand.renamed change)

def embeddedString (text : String) : List Char :=
  '\'' :: (text.toList.flatMap embeddedCharacter ++ ['\''])

def embeddedValue (json : Json) : List Char :=
  (Json.spelled Json.escape json).flatMap embedCharacter

def embeddedMember (entry : String × Json) : List Char :=
  embeddedString entry.1 ++ ':' :: embeddedValue entry.2

theorem embed_toList (predicate : Predicate) :
    predicate.embed.toList = embeddedValue predicate.toJson := by
  rw [embed, String.toList_ofList, store_toList, embeddedValue]

theorem spelledString_embedded (text : String) :
    (Json.spelledString Json.escape text).flatMap embedCharacter = embeddedString text := by
  rw [Json.spelledString, List.flatMap_cons, List.flatMap_append, List.flatMap_assoc]
  rfl

theorem embeddedValue_string (text : String) :
    embeddedValue (.string text) = embeddedString text :=
  spelledString_embedded text

theorem spelledLater_embedded (elements : List Json) :
    (Json.spelledLater Json.escape elements).flatMap embedCharacter =
      elements.flatMap fun element => ',' :: embeddedValue element := by
  induction elements with
  | nil => rfl
  | cons first others ih =>
      rw [Json.spelledLater, List.flatMap_cons, List.flatMap_append, ih, List.flatMap_cons]
      rfl

theorem spelledLaterMembers_embedded (members : List (String × Json)) :
    (Json.spelledLaterMembers Json.escape members).flatMap embedCharacter =
      members.flatMap fun entry => ',' :: embeddedMember entry := by
  induction members with
  | nil => rfl
  | cons entry others ih =>
      rw [Json.spelledLaterMembers, List.flatMap_cons, List.flatMap_append, List.flatMap_append, ih,
        spelledString_embedded, List.flatMap_cons]
      rfl

theorem embeddedValue_array (first : Json) (others : List Json) :
    embeddedValue (.array (first :: others)) = '[' :: (embeddedValue first ++
      (others.flatMap fun element => ',' :: embeddedValue element) ++ [']']) := by
  rw [embeddedValue, Json.spelled, List.flatMap_cons, List.flatMap_append, List.flatMap_append,
    spelledLater_embedded]
  rfl

theorem embeddedValue_object (first : String × Json) (others : List (String × Json)) :
    embeddedValue (.object (first :: others)) = '\x7b' :: (embeddedMember first ++
      (others.flatMap fun entry => ',' :: embeddedMember entry) ++ ['\x7d']) := by
  rw [embeddedValue, Json.spelled, List.flatMap_cons, List.flatMap_append, List.flatMap_append,
    List.flatMap_append, spelledLaterMembers_embedded, spelledString_embedded]
  rfl

/-! ### What is read -/

theorem flatMap_embedCharacter {text : List Char} (plain : ∀ c ∈ text, c ≠ '\'' ∧ c ≠ '"') :
    text.flatMap embedCharacter = text := by
  induction text with
  | nil => rfl
  | cons c text ih =>
      obtain ⟨⟨noSingle, noDouble⟩, later⟩ := List.forall_mem_cons.mp plain
      rw [List.flatMap_cons, ih later, embedCharacter]
      · rfl
      · exact noDouble
      · exact noSingle

theorem hexDigit_plain {value : Nat} (small : value < 16) :
    Json.hexDigit value ≠ '\'' ∧ Json.hexDigit value ≠ '"' := by
  have all : ∀ value < 16, Json.hexDigit value ≠ '\'' ∧ Json.hexDigit value ≠ '"' := by decide
  exact all value small

/-- Each character is read as it is, but for the double quote, of whose escape only the backslash is
left to the single quote that takes its place. -/
theorem character_embedded (c : Char) :
    Takes (Script.character '\'') (embeddedCharacter c) (some (shownCharacter c)) := by
  by_cases double : c = '"'
  · rw [double]
    exact fun rest => rfl
  by_cases single : c = '\''
  · rw [single]
    exact Script.character_unicode (show '\''.toNat < 256 by decide) '\''
  rw [shownCharacter, if_neg double, embeddedCharacter]
  rcases Json.escape_cases c with ⟨letter, written, stands, noUnicode, noSingle⟩ |
    ⟨control, written⟩ | ⟨_, noBackslash, printed, written⟩
  · have noDouble : letter ≠ '"' := by
      rintro rfl
      cases stands
      exact double rfl
    rw [written, flatMap_embedCharacter (by simp [noSingle, noDouble])]
    exact Script.character_letter (Script.letterEscape_agrees stands) noUnicode '\''
  · have high := hexDigit_plain (show c.toNat / 16 < 16 by omega)
    have low := hexDigit_plain (show c.toNat % 16 < 16 by omega)
    rw [written, flatMap_embedCharacter (by simp [high, low])]
    exact Script.character_unicode (by omega) '\''
  · rw [written, flatMap_embedCharacter (by simp [single, double])]
    exact Script.character_plain single noBackslash printed

theorem stringLiteral_embedded (text : String) :
    Takes Script.stringLiteral (embeddedString text) (shown text) := by
  intro rest
  have inside := Script.characters_take character_embedded (by decide) text.toList rest
  rw [embeddedString, List.cons_append, Script.stringLiteral, if_pos (.inl rfl), inside]
  rfl

theorem embeddedString_begins (text : String) :
    ∃ c later, embeddedString text = c :: later ∧ isBlank c = false ∧ c ≠ '[' ∧ c ≠ '\x7b' :=
  ⟨'\'', _, rfl, by decide, by decide, by decide⟩

theorem string_embedded (depth : Nat) (text : String) :
    Takes (Script.value depth) (embeddedValue (.string text)) (.string (shown text)) := by
  rw [embeddedValue_string]
  exact Script.value_string depth (stringLiteral_embedded text) (embeddedString_begins text)

theorem member_embedded {reader : Script.Reader Json} {key : String} {written taken : Json}
    (kept : shown key = key) (takes : Takes reader (embeddedValue written) taken) :
    Takes (Script.member reader) (embeddedMember (key, written)) (key, taken) := by
  have named := stringLiteral_embedded key
  rw [kept] at named
  obtain ⟨c, later, begins, printed, _⟩ := embeddedString_begins key
  exact Script.member_take named takes ⟨c, later, begins, printed⟩

theorem names_embedded {depth : Nat} (deep : 0 < depth) (names : List String) :
    Takes (Script.value depth) (embeddedValue (.array (names.map .string)))
      (.array ((names.map shown).map .string)) := by
  obtain ⟨depth, rfl⟩ := Nat.exists_eq_add_one_of_ne_zero (Nat.ne_of_gt deep)
  cases names with
  | nil => exact Script.value_array (Script.entries_take_nil (Script.value depth) (by decide))
  | cons first others =>
      have takes : ∀ name ∈ first :: others,
          Takes (Script.value depth) (embeddedValue (.string name)) (.string (shown name)) :=
        fun name _ => string_embedded depth name
      have begins : ∃ c text, embeddedValue (.string first) = c :: text ∧
          isBlank c = false ∧ c ≠ ']' :=
        ⟨'\'', _, embeddedValue_string first, by decide, by decide⟩
      have inside := Script.entries_take_cons (by decide) (by decide) takes begins
      rw [List.map_cons, embeddedValue_array, List.flatMap_map, List.map_map]
      exact Script.value_array inside

theorem shown_tag (variant : Variant) : shown variant.tag = variant.tag := by
  cases variant <;> decide

theorem shown_field (variant : Variant) : ∀ key ∈ tagKey :: variant.fields, shown key = key := by
  cases variant <;> decide

theorem namesFields_stored (variant : Variant) {members : List (String × Json)}
    (keys : members.map Prod.fst = tagKey :: variant.fields) : Script.NamesFields members := by
  rw [Script.NamesFields, keys]
  cases variant <;> decide

/-- The object of a variant is read as the object of the same variant, if the values of its fields
are read.  For each field, what is stored and what is read stand behind its key. -/
theorem object_embedded {depth : Nat} (deep : 0 < depth) (variant : Variant)
    (parts : List (String × Json × Json)) (keys : parts.map Prod.fst = variant.fields)
    (takes : ∀ part ∈ parts, Takes (Script.value (depth - 1)) (embeddedValue part.2.1) part.2.2) :
    Takes (Script.value depth)
      (embeddedValue (.object ((tagKey, .string variant.tag) ::
        parts.map fun part => (part.1, part.2.1))))
      (.object ((tagKey, .string variant.tag) :: parts.map fun part => (part.1, part.2.2))) := by
  obtain ⟨depth, rfl⟩ := Nat.exists_eq_add_one_of_ne_zero (Nat.ne_of_gt deep)
  rw [Nat.add_sub_cancel] at takes
  let tag : String × Json × Json := (tagKey, .string variant.tag, .string variant.tag)
  have listed : (tag :: parts).map Prod.fst = tagKey :: variant.fields :=
    congrArg (tagKey :: ·) keys
  have tagged : Takes (Script.value depth) (embeddedValue tag.2.1) tag.2.2 := by
    have read := string_embedded depth variant.tag
    rwa [shown_tag] at read
  have values : ∀ part ∈ tag :: parts,
      Takes (Script.value depth) (embeddedValue part.2.1) part.2.2 :=
    List.forall_mem_cons.mpr ⟨tagged, takes⟩
  have each : ∀ part ∈ tag :: parts, Takes (Script.member (Script.value depth))
      (embeddedMember (part.1, part.2.1)) (part.1, part.2.2) := by
    intro part member
    have key := shown_field variant part.1 (listed ▸ List.mem_map_of_mem member)
    exact member_embedded key (values part member)
  have begins : ∃ c text, embeddedMember (tag.1, tag.2.1) = c :: text ∧
      isBlank c = false ∧ c ≠ '\x7d' :=
    ⟨'\'', _, rfl, by decide, by decide⟩
  have inside := Script.entries_take_cons (by decide) (by decide) each begins
  rw [embeddedValue_object, List.flatMap_map]
  refine Script.value_object inside (namesFields_stored variant ?_)
  rw [← listed]
  simp [tag]

theorem takes_embedded (predicate : Predicate) {depth : Nat} (deep : predicate.nesting ≤ depth) :
    Takes (Script.value depth) (embeddedValue predicate.toJson)
      (predicate.renamed shown).toJson := by
  induction predicate generalizing depth with
  | has name =>
      exact object_embedded deep .has [("val", .string name, .string (shown name))] rfl
        (List.forall_mem_singleton.mpr (string_embedded _ name))
  | anyOf names =>
      rw [nesting] at deep
      have inside := names_embedded (show 0 < depth - 1 by omega) names
      exact object_embedded (by omega) .anyOf [("val", _, _)] rfl
        (List.forall_mem_singleton.mpr inside)
  | allOf names =>
      rw [nesting] at deep
      have inside := names_embedded (show 0 < depth - 1 by omega) names
      exact object_embedded (by omega) .allOf [("val", _, _)] rfl
        (List.forall_mem_singleton.mpr inside)
  | and lhs rhs left right =>
      rw [nesting] at deep
      have first := left (show lhs.nesting ≤ depth - 1 by omega)
      have second := right (show rhs.nesting ≤ depth - 1 by omega)
      exact object_embedded (by omega) .and [("lhs", _, _), ("rhs", _, _)] rfl
        (List.forall_mem_cons.mpr ⟨first, List.forall_mem_singleton.mpr second⟩)
  | or lhs rhs left right =>
      rw [nesting] at deep
      have first := left (show lhs.nesting ≤ depth - 1 by omega)
      have second := right (show rhs.nesting ≤ depth - 1 by omega)
      exact object_embedded (by omega) .or [("lhs", _, _), ("rhs", _, _)] rfl
        (List.forall_mem_cons.mpr ⟨first, List.forall_mem_singleton.mpr second⟩)
  | not operand inner =>
      rw [nesting] at deep
      have inside := inner (show operand.nesting ≤ depth - 1 by omega)
      exact object_embedded (by omega) .not [("expr", _, _)] rfl
        (List.forall_mem_singleton.mpr inside)

theorem nesting_le_length (predicate : Predicate) :
    predicate.nesting ≤ (embeddedValue predicate.toJson).length := by
  have object (first : String × Json) (others : List (String × Json)) :
      (embeddedValue (.object (first :: others))).length = (embeddedMember first).length +
        (others.flatMap fun entry => ',' :: embeddedMember entry).length + 2 := by
    simp [embeddedValue_object]
    omega
  have member (key : String) (json : Json) : (embeddedValue json).length <
      (embeddedMember (key, json)).length := by
    simp [embeddedMember]
    omega
  induction predicate with
  | has name =>
      rw [nesting, toJson, object]
      omega
  | anyOf names =>
      rw [nesting, toJson, object]
      omega
  | allOf names =>
      rw [nesting, toJson, object]
      omega
  | and lhs rhs left right =>
      have first := member "lhs" lhs.toJson
      have second := member "rhs" rhs.toJson
      rw [nesting, toJson, object]
      simp only [List.flatMap_cons, List.length_append, List.length_cons]
      omega
  | or lhs rhs left right =>
      have first := member "lhs" lhs.toJson
      have second := member "rhs" rhs.toJson
      rw [nesting, toJson, object]
      simp only [List.flatMap_cons, List.length_append, List.length_cons]
      omega
  | not operand inner =>
      have inside := member "expr" operand.toJson
      rw [nesting, toJson, object]
      simp only [List.flatMap_cons, List.length_append, List.length_cons]
      omega

theorem read_embed (predicate : Predicate) :
    Script.read predicate.embed = some (predicate.renamed shown).toJson := by
  have enough : predicate.nesting ≤ predicate.embed.length := by
    rw [← String.length_toList, embed_toList]
    exact nesting_le_length predicate
  have taken := takes_embedded predicate enough []
  rw [List.append_nil, ← embed_toList] at taken
  rw [Script.read, taken]
  rfl

/-! ### Which predicates are read as they are -/

theorem map_eq_self {α : Type} {change : α → α} {elements : List α} :
    elements.map change = elements ↔ ∀ element ∈ elements, change element = element := by
  have fixed := List.map_inj_left (l := elements) (f := change) (g := id)
  rwa [List.map_id] at fixed

theorem renamed_eq_self {change : String → String} {predicate : Predicate} :
    predicate.renamed change = predicate ↔ ∀ name ∈ predicate.leaves, change name = name := by
  induction predicate with
  | has name => simp [renamed, leaves]
  | anyOf names => simp [renamed, leaves, map_eq_self]
  | allOf names => simp [renamed, leaves, map_eq_self]
  | and lhs rhs left right => simp [renamed, leaves, left, right, or_imp, forall_and]
  | or lhs rhs left right => simp [renamed, leaves, left, right, or_imp, forall_and]
  | not operand inner => simp [renamed, leaves, inner]

theorem shownCharacter_eq_self {c : Char} : shownCharacter c = c ↔ c ≠ '"' := by
  unfold shownCharacter
  split
  · rename_i double
    simp [double]
  · rename_i other
    exact iff_of_true rfl other

theorem shown_eq_self {name : String} : shown name = name ↔ '"' ∉ name.toList := by
  rw [shown, ← String.toList_inj, String.toList_ofList, map_eq_self]
  simp only [shownCharacter_eq_self]
  constructor
  · exact fun kept double => kept '"' double rfl
  · exact fun plain c member double => plain (double ▸ member)

/-- A script reads the embedded form of a predicate as its stored object, but with a single quote
for each double quote in its names.  So the tags, the fields and the lists are always those of the
predicate, and the names are as far as they have no double quote. -/
theorem embed_read_as_script (predicate : Predicate) :
    Script.read predicate.embed = some (predicate.renamed shown).toJson ∧
      (Script.read predicate.embed = some predicate.toJson ↔
        ∀ name ∈ predicate.leaves, '"' ∉ name.toList) := by
  refine ⟨read_embed predicate, ?_⟩
  calc Script.read predicate.embed = some predicate.toJson
    _ ↔ (predicate.renamed shown).toJson = predicate.toJson := by rw [read_embed, Option.some_inj]
    _ ↔ predicate.renamed shown = predicate := ⟨toJson_injective, congrArg toJson⟩
    _ ↔ ∀ name ∈ predicate.leaves, shown name = name := renamed_eq_self
    _ ↔ ∀ name ∈ predicate.leaves, '"' ∉ name.toList := by simp only [shown_eq_self]

/-- The name that is a double quote is read as a single quote, which is another name. -/
theorem doubleQuote_misread :
    Script.read (Predicate.has "\"").embed = some (Predicate.has "'").toJson ∧
      Script.read (Predicate.has "\"").embed ≠ some (Predicate.has "\"").toJson := by
  have read := read_embed (.has "\"")
  have single : shown "\"" = "'" := by decide
  rw [renamed, single] at read
  refine ⟨read, ?_⟩
  rw [read]
  intro same
  exact absurd (toJson_injective (Option.some.inj same)) (by decide)

end Predicate
end Permission
