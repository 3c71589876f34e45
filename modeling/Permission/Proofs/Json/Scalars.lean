import Permission.Proofs.Attempts
import Permission.Proofs.Json.Spelling
import Permission.Proofs.Json.Written
import Permission.Proofs.Text

/-!
# Strings and numbers are taken as they are written

A reader of a character or a string takes exactly a front of the text that is written for what it
answers.  A number does not show where it ends, so a number that is written is taken whole only if
the text after it does not go on with it.
-/

set_option autoImplicit false

namespace Permission
namespace Json

/-! ### Strings -/

theorem word_ok_iff {wanted text rest : List Char} :
    word wanted text = .ok rest ↔ text = wanted ++ rest := by
  induction wanted generalizing text with
  | nil => simp [word]
  | cons first later ih =>
      cases text with
      | nil => simp [word]
      | cons c text =>
          rw [word, List.cons_append, List.cons.injEq]
          by_cases same : first = c
          · rw [if_pos same, ih]
            simp [same]
          · rw [if_neg same]
            simp [Ne.symm same]

theorem utf16Unit_ok_iff {unit : Nat} {text rest : List Char} :
    utf16Unit text = .ok (unit, rest) ↔ ∃ front, text = front ++ rest ∧ WrittenUnit unit front := by
  constructor
  · intro read
    unfold utf16Unit at read
    split at read
    · rename_i a b c d later
      split at read
      · rename_i highest high low lowest
        cases read
        exact ⟨[a, b, c, d], rfl, .digits highest high low lowest⟩
      · cases read
    · split at read <;> cases read
  · rintro ⟨front, rfl, digits⟩
    cases digits with
    | digits highest high low lowest => simp [utf16Unit, highest, high, low, lowest]

theorem unicodeEscape_ok_iff {c : Char} {text rest : List Char} :
    unicodeEscape text = .ok (c, rest) ↔
      ∃ front, text = front ++ rest ∧ WrittenCharacter c ('\\' :: 'u' :: front) := by
  constructor
  · intro read
    obtain ⟨⟨unit, left⟩, found, read⟩ := ok_of_bind read
    obtain ⟨front, whole, high⟩ := utf16Unit_ok_iff.mp found
    dsimp only at read
    split at read
    · cases read
    · rename_i noTrailing
      split at read
      · rename_i leading
        obtain ⟨left', marked, read⟩ := ok_of_bind read
        obtain ⟨⟨second, left''⟩, found, read⟩ := ok_of_bind read
        obtain ⟨front', behind, low⟩ := utf16Unit_ok_iff.mp found
        dsimp only at read
        split at read
        · rename_i trailing
          simp only [Except.ok.injEq, Prod.mk.injEq] at read
          obtain ⟨rfl, rfl⟩ := read
          rw [whole, word_ok_iff.mp marked, behind]
          exact ⟨front ++ '\\' :: 'u' :: front', by simp, .pair high low leading trailing⟩
        · cases read
      · rename_i noLeading
        cases read
        exact ⟨front, whole, .unit high (by simpa using noTrailing) (by simpa using noLeading)⟩
  · rintro ⟨front, rfl, written⟩
    generalize shape : '\\' :: 'u' :: front = text at written
    cases written with
    | plain => cases shape
    | letter stands =>
        cases shape
        cases stands
    | unit digits noTrailing noLeading =>
        cases shape
        rw [unicodeEscape, utf16Unit_ok_iff.mpr ⟨_, rfl, digits⟩]
        simp [bind, Except.bind, noTrailing, noLeading]
    | @pair high low highDigits lowDigits first second leading trailing =>
        cases shape
        have noTrailing : isTrailingSurrogate high = false := by
          simp only [isLeadingSurrogate, isTrailingSurrogate, Bool.and_eq_true, decide_eq_true_eq,
            Bool.and_eq_false_iff, decide_eq_false_iff_not] at leading ⊢
          omega
        have mark : word ['\\', 'u'] ('\\' :: 'u' :: (lowDigits ++ rest)) =
            .ok (lowDigits ++ rest) := rfl
        rw [unicodeEscape, List.append_assoc, utf16Unit_ok_iff.mpr ⟨_, rfl, first⟩]
        simp [bind, Except.bind, noTrailing, leading, mark, trailing,
          utf16Unit_ok_iff.mpr ⟨_, rfl, second⟩]

theorem escaped_ok_iff {c : Char} {text rest : List Char} :
    escaped text = .ok (c, rest) ↔
      ∃ front, text = front ++ rest ∧ WrittenCharacter c ('\\' :: front) := by
  constructor
  · intro read
    unfold escaped at read
    split at read
    · cases read
    · obtain ⟨front, rfl, written⟩ := unicodeEscape_ok_iff.mp read
      exact ⟨'u' :: front, rfl, written⟩
    · rename_i letter later _
      split at read
      · rename_i stands
        cases read
        exact ⟨[letter], rfl, .letter stands⟩
      · cases read
  · rintro ⟨front, rfl, written⟩
    generalize shape : '\\' :: front = text at written
    cases written with
    | plain _ noBackslash =>
        cases shape
        exact absurd rfl noBackslash
    | @letter letter _ stands =>
        cases shape
        rw [List.singleton_append, escaped, stands]
        rintro rfl
        cases stands
    | unit digits noTrailing noLeading =>
        cases shape
        exact unicodeEscape_ok_iff.mpr ⟨_, rfl, .unit digits noTrailing noLeading⟩
    | pair first second leading trailing =>
        cases shape
        exact unicodeEscape_ok_iff.mpr ⟨_, rfl, .pair first second leading trailing⟩

theorem character_ok_iff {c : Char} {text rest : List Char} :
    character text = .ok (some c, rest) ↔
      ∃ front, text = front ++ rest ∧ WrittenCharacter c front := by
  constructor
  · intro read
    unfold character at read
    split at read
    · cases read
    · cases read
    · obtain ⟨⟨_, left⟩, found, read⟩ := ok_of_bind read
      cases read
      obtain ⟨front, rfl, written⟩ := escaped_ok_iff.mp found
      exact ⟨'\\' :: front, rfl, written⟩
    · rename_i noQuote noBackslash
      split at read
      · cases read
      · rename_i printed
        cases read
        exact ⟨[c], rfl, .plain noQuote noBackslash (Nat.not_lt.mp printed)⟩
  · rintro ⟨front, rfl, written⟩
    have unescaped {front : List Char} (read : escaped (front ++ rest) = .ok (c, rest)) :
        character ('\\' :: (front ++ rest)) = .ok (some c, rest) := by
      rw [character, read]
      rfl
    cases written with
    | plain noQuote noBackslash printed => exact character_plain noQuote noBackslash printed rest
    | letter stands => exact unescaped (escaped_ok_iff.mpr ⟨_, rfl, .letter stands⟩)
    | unit digits noTrailing noLeading =>
        exact unescaped (escaped_ok_iff.mpr ⟨_, rfl, .unit digits noTrailing noLeading⟩)
    | pair first second leading trailing =>
        exact unescaped (escaped_ok_iff.mpr ⟨_, rfl, .pair first second leading trailing⟩)

theorem character_end_iff {text rest : List Char} :
    character text = .ok (none, rest) ↔ text = '"' :: rest := by
  constructor
  · intro read
    unfold character at read
    split at read
    · cases read
    · cases read
      rfl
    · obtain ⟨_, _, read⟩ := ok_of_bind read
      cases read
    · split at read <;> cases read
  · rintro rfl
    rfl

theorem characters_ok_iff {taken text rest : List Char} :
    characters text = .ok (taken, rest) ↔
      ∃ front, text = front ++ rest ∧ WrittenCharacters taken front := by
  constructor
  · intro read
    fun_induction characters text generalizing taken with
    | case1 text fault failed => cases read
    | case2 text left ended =>
        cases read
        exact ⟨['"'], character_end_iff.mp ended, .nil⟩
    | case3 text c left here ih =>
        obtain ⟨⟨others, left'⟩, found, read⟩ := ok_of_bind read
        cases read
        obtain ⟨front, rfl, written⟩ := character_ok_iff.mp here
        obtain ⟨front', rfl, others⟩ := ih found
        exact ⟨front ++ front', (List.append_assoc _ _ _).symm, .cons written others⟩
  · rintro ⟨front, rfl, written⟩
    induction written with
    | nil =>
        rw [characters]
        rfl
    | cons first others ih =>
        rw [List.append_assoc, characters_step (character_ok_iff.mpr ⟨_, rfl, first⟩), ih]
        rfl

theorem characters_written {taken text : List Char} (written : WrittenCharacters taken text)
    (rest : List Char) : characters (text ++ rest) = .ok (taken, rest) :=
  characters_ok_iff.mpr ⟨text, rfl, written⟩

/-! ### What follows -/

/-- The text does not begin with one of the given characters. -/
def Stops (goesOn : Char → Bool) (text : List Char) : Prop :=
  ∀ c ∈ text.head?, goesOn c = false

theorem Stops.of_imp {goesOn goesOn' : Char → Bool} {text : List Char}
    (fewer : ∀ c, goesOn' c = true → goesOn c = true) (stops : Stops goesOn text) :
    Stops goesOn' text := by
  intro c next
  cases found : goesOn' c with
  | false => rfl
  | true => rw [← stops c next, fewer c found]

theorem stops_cons {goesOn : Char → Bool} {c : Char} {text : List Char} :
    Stops goesOn (c :: text) ↔ goesOn c = false := by
  simp [Stops]

/-- A reader takes exactly a front of the text that is written for what it answers.  It takes a
front that is written if the text behind it does not go on with it. -/
structure Exact {α : Type} (goesOn : Char → Bool) (reader : Reader α)
    (written : α → List Char → Prop) : Prop where
  sound : ∀ {text taken rest}, reader text = .ok (taken, rest) →
    ∃ front, text = front ++ rest ∧ written taken front
  complete : ∀ {taken front rest}, written taken front → Stops goesOn rest →
    reader (front ++ rest) = .ok (taken, rest)

theorem Exact.of_iff {α : Type} {goesOn : Char → Bool} {reader : Reader α}
    {written written' : α → List Char → Prop} (exact : Exact goesOn reader written)
    (same : ∀ taken text, written taken text ↔ written' taken text) :
    Exact goesOn reader written' := by
  constructor
  · intro text taken rest read
    obtain ⟨front, whole, here⟩ := exact.sound read
    exact ⟨front, whole, (same taken front).mp here⟩
  · intro taken front rest here stops
    exact exact.complete ((same taken front).mpr here) stops

/-! ### Numbers -/

theorem digits_exact :
    Exact Char.isDigit digits fun taken front => front = taken ∧ Digits taken := by
  constructor
  · intro text taken rest read
    unfold digits at read
    split at read
    · cases read
    · rename_i c later
      split at read
      · rename_i first
        cases read
        refine ⟨_, List.takeWhile_append_dropWhile.symm, rfl, ?_,
          List.all_eq_true.mp List.all_takeWhile⟩
        rw [List.takeWhile_cons_of_pos first]
        exact List.cons_ne_nil _ _
      · cases read
  · rintro taken front rest ⟨rfl, some, digital⟩ stops
    obtain ⟨c, later, rfl⟩ := List.exists_cons_of_ne_nil some
    have run := Text.takeWhile_append_iff.mpr ⟨digital, stops⟩
    have left : ((c :: later) ++ rest).dropWhile Char.isDigit = rest := by
      have whole := List.takeWhile_append_dropWhile (p := Char.isDigit) (l := (c :: later) ++ rest)
      rw [run] at whole
      exact List.append_cancel_left whole
    rw [List.cons_append] at run left ⊢
    rw [digits, if_pos (digital c List.mem_cons_self), run, left]

theorem integerDigits_exact :
    Exact Char.isDigit integerDigits fun taken front =>
      front = taken ∧ Digits taken ∧ ∀ later, taken = '0' :: later → later = [] := by
  constructor
  · intro text taken rest read
    obtain ⟨⟨found, left⟩, some, read⟩ := ok_of_bind read
    obtain ⟨front, whole, same, digital⟩ := digits_exact.sound some
    dsimp only at read
    split at read
    · cases read
    · rename_i noLeadingZero
      cases read
      refine ⟨front, whole, same, digital, ?_⟩
      rintro (_ | ⟨d, later⟩) shape
      · rfl
      · exact absurd shape (noLeadingZero d later)
  · rintro taken front rest ⟨rfl, digital, noLeadingZero⟩ stops
    rw [integerDigits, digits_exact.complete ⟨rfl, digital⟩ stops]
    dsimp only [bind, Except.bind]
    split
    · cases noLeadingZero _ rfl
    · rfl

def isFractionPart (c : Char) : Bool :=
  c == '.' || c.isDigit

theorem fractionDigits_exact : Exact isFractionPart fractionDigits WrittenFraction := by
  constructor
  · intro text taken rest read
    unfold fractionDigits at read
    split at read
    · obtain ⟨front, rfl, rfl, digital⟩ := digits_exact.sound read
      exact ⟨'.' :: front, rfl, .digits digital⟩
    · cases read
      exact ⟨[], rfl, .none⟩
  · intro taken front rest written stops
    cases written with
    | none =>
        rw [List.nil_append, fractionDigits]
        rintro later rfl
        cases stops_cons.mp stops
    | digits digital =>
        exact digits_exact.complete ⟨rfl, digital⟩
          (stops.of_imp (by simp +contextual [isFractionPart]))

def isExponentPart (c : Char) : Bool :=
  c == 'e' || c == 'E' || c.isDigit

theorem sign_cases (text : List Char) :
    (∃ later, text = '+' :: later ∧ sign text = (false, later)) ∨
      (∃ later, text = '-' :: later ∧ sign text = (true, later)) ∨ sign text = (false, text) := by
  unfold sign
  split
  · exact .inl ⟨_, rfl, rfl⟩
  · exact .inr (.inl ⟨_, rfl, rfl⟩)
  · exact .inr (.inr rfl)

theorem sign_digits {digits : List Char} (digital : Digits digits) (rest : List Char) :
    sign (digits ++ rest) = (false, digits ++ rest) := by
  obtain ⟨c, later, rfl⟩ := List.exists_cons_of_ne_nil digital.1
  have first := digital.2 c List.mem_cons_self
  rw [List.cons_append, sign]
  · intro d same
    cases same
    cases first
  · intro d same
    cases same
    cases first

theorem exponent_exact : Exact isExponentPart exponent WrittenExponent := by
  constructor
  · intro text taken rest read
    unfold exponent at read
    split at read
    · cases read
      exact ⟨[], rfl, .none⟩
    · rename_i mark later
      split at read
      · rename_i marks
        rcases sign_cases later with ⟨digits, rfl, signed⟩ | ⟨digits, rfl, signed⟩ | signed
        · rw [signed] at read
          obtain ⟨⟨digits, left⟩, found, read⟩ := ok_of_bind read
          obtain ⟨front, rfl, rfl, digital⟩ := digits_exact.sound found
          cases read
          exact ⟨mark :: '+' :: front, rfl, .positive marks digital⟩
        · rw [signed] at read
          obtain ⟨⟨digits, left⟩, found, read⟩ := ok_of_bind read
          obtain ⟨front, rfl, rfl, digital⟩ := digits_exact.sound found
          cases read
          exact ⟨mark :: '-' :: front, rfl, .negative marks digital⟩
        · rw [signed] at read
          obtain ⟨⟨digits, left⟩, found, read⟩ := ok_of_bind read
          obtain ⟨front, rfl, rfl, digital⟩ := digits_exact.sound found
          cases read
          exact ⟨mark :: front, rfl, .unsigned marks digital⟩
      · cases read
        exact ⟨[], rfl, .none⟩
  · intro taken front rest written stops
    have counted {digits : List Char} (digital : Digits digits) :
        Json.digits (digits ++ rest) = .ok (digits, rest) :=
      digits_exact.complete ⟨rfl, digital⟩
        (stops.of_imp (by simp +contextual [isExponentPart]))
    cases written with
    | none =>
        cases rest with
        | nil => rfl
        | cons c rest =>
            have other := stops_cons.mp stops
            simp only [isExponentPart, Bool.or_eq_false_iff, beq_eq_false_iff_ne] at other
            rw [List.nil_append, exponent, if_neg (by simp [other])]
    | unsigned marks digital =>
        rw [List.cons_append, exponent, if_pos marks, sign_digits digital]
        simp [counted digital, bind, Except.bind, pure, Except.pure]
    | positive marks digital =>
        rw [List.cons_append, List.cons_append, exponent, if_pos marks]
        simp [sign, counted digital, bind, Except.bind, pure, Except.pure]
    | negative marks digital =>
        rw [List.cons_append, List.cons_append, exponent, if_pos marks]
        simp [sign, counted digital, bind, Except.bind, pure, Except.pure]

def isNumberPart (c : Char) : Bool :=
  isFractionPart c || isExponentPart c

theorem WrittenExponent.stops {power : Int} {text rest : List Char}
    (written : WrittenExponent power text) (behind : Stops isNumberPart rest) :
    Stops isFractionPart (text ++ rest) := by
  cases written with
  | none => exact behind.of_imp (by simp +contextual [isNumberPart])
  | unsigned marks | positive marks | negative marks =>
      rw [List.cons_append, stops_cons]
      rcases marks with rfl | rfl <;> decide

theorem WrittenFraction.stops {digits text rest : List Char}
    (written : WrittenFraction digits text) (behind : Stops isFractionPart rest) :
    Stops Char.isDigit (text ++ rest) := by
  cases written with
  | none => exact behind.of_imp (by simp +contextual [isFractionPart])
  | digits => exact stops_cons.mpr (by decide)

/-- Takes a number without its minus, and answers with the text that is left. -/
def unsignedNumeral (text : List Char) : Except StorageError (List Char) := do
  let (integer, rest) ← integerDigits text
  let (fraction, rest) ← fractionDigits rest
  let (power, rest) ← exponent rest
  if outOfRange integer fraction power then .error .malformed else return rest

theorem unsignedNumeral_sound {text rest : List Char} (read : unsignedNumeral text = .ok rest) :
    ∃ front, text = front ++ rest ∧ Unsigned front := by
  obtain ⟨⟨integer, left⟩, found, read⟩ := ok_of_bind read
  obtain ⟨front, whole, same, digital, noLeadingZero⟩ := integerDigits_exact.sound found
  obtain ⟨⟨fraction, left'⟩, found, read⟩ := ok_of_bind read
  obtain ⟨front', behind, part⟩ := fractionDigits_exact.sound found
  obtain ⟨⟨power, left''⟩, found, read⟩ := ok_of_bind read
  obtain ⟨front'', last, scale⟩ := exponent_exact.sound found
  dsimp only at read
  split at read
  · cases read
  · rename_i inRange
    cases read
    subst same
    refine ⟨front ++ (front' ++ front''), ?_, ?_⟩
    · rw [whole, behind, last]
      simp
    · exact .number digital noLeadingZero part scale (by simpa using inRange)

theorem unsignedNumeral_complete {front rest : List Char} (written : Unsigned front)
    (stops : Stops isNumberPart rest) : unsignedNumeral (front ++ rest) = .ok rest := by
  cases written with
  | @number integer fraction fractionText exponentText power whole noLeadingZero part scale
      inRange =>
      have third := exponent_exact.complete scale
        (stops.of_imp (by simp +contextual [isNumberPart]))
      have afterFraction := scale.stops stops
      have second := fractionDigits_exact.complete part afterFraction
      have first := integerDigits_exact.complete ⟨rfl, whole, noLeadingZero⟩
        (part.stops afterFraction)
      rw [List.append_assoc, List.append_assoc, unsignedNumeral, first]
      simp [bind, Except.bind, pure, Except.pure, second, third, inRange]

/-- A number without its minus, if it has one. -/
def magnitude (text : List Char) : List Char :=
  match text with
  | '-' :: rest => rest
  | _ => text

theorem numeral_eq (text : List Char) :
    numeral text = (unsignedNumeral (magnitude text)).map fun rest =>
      (.number (String.ofList (text.take (text.length - rest.length))), rest) := by
  change (integerDigits (magnitude text)).bind _ = ((integerDigits (magnitude text)).bind _).map _
  rcases integerDigits (magnitude text) with fault | ⟨integer, rest⟩
  · rfl
  change (fractionDigits rest).bind _ = ((fractionDigits rest).bind _).map _
  rcases fractionDigits rest with fault | ⟨fraction, rest⟩
  · rfl
  change (exponent rest).bind _ = ((exponent rest).bind _).map _
  rcases exponent rest with fault | ⟨power, rest⟩
  · rfl
  change (if outOfRange integer fraction power then _ else _) = Except.map _ (if _ then _ else _)
  split <;> rfl

theorem magnitude_cases (text : List Char) :
    (∃ later, text = '-' :: later ∧ magnitude text = later) ∨ magnitude text = text := by
  unfold magnitude
  split
  · exact .inl ⟨_, rfl, rfl⟩
  · exact .inr rfl

theorem Unsigned.begins {text : List Char} (written : Unsigned text) :
    ∃ c later, text = c :: later ∧ c.isDigit = true := by
  cases written with
  | number whole =>
      obtain ⟨c, later, rfl⟩ := List.exists_cons_of_ne_nil whole.1
      exact ⟨c, _, rfl, whole.2 c List.mem_cons_self⟩

theorem magnitude_unsigned {front : List Char} (written : Unsigned front) (rest : List Char) :
    magnitude (front ++ rest) = front ++ rest := by
  obtain ⟨c, later, rfl, digit⟩ := written.begins
  rw [List.cons_append, magnitude]
  intro d same
  cases same
  cases digit

theorem numeral_exact : Exact isNumberPart numeral fun taken front =>
    taken = .number (String.ofList front) ∧ Numeral front := by
  have cut (front rest : List Char) :
      (front ++ rest).take ((front ++ rest).length - rest.length) = front := by simp
  constructor
  · intro text taken rest read
    rw [numeral_eq] at read
    cases found : unsignedNumeral (magnitude text) with
    | error fault =>
        rw [found] at read
        cases read
    | ok left =>
        rw [found] at read
        cases read
        obtain ⟨front, whole, written⟩ := unsignedNumeral_sound found
        rcases magnitude_cases text with ⟨later, rfl, same⟩ | same
        · rw [same] at whole
          subst whole
          refine ⟨'-' :: front, rfl, ?_, .negative written⟩
          rw [← List.cons_append, cut]
        · rw [same] at whole
          subst whole
          exact ⟨front, rfl, by rw [cut], .unsigned written⟩
  · rintro taken front rest ⟨rfl, written⟩ stops
    rw [numeral_eq]
    cases written with
    | unsigned digits =>
        rw [magnitude_unsigned digits, unsignedNumeral_complete digits stops]
        simp [Except.map]
    | negative digits =>
        rw [List.cons_append, magnitude, unsignedNumeral_complete digits stops]
        simp only [Except.map, ← List.cons_append, cut]

/-! ### Values without brackets -/

theorem Numeral.begins {text : List Char} (written : Numeral text) :
    ∃ c later, text = c :: later ∧ (c = '-' ∨ c.isDigit = true) := by
  cases written with
  | unsigned digits =>
      obtain ⟨c, later, same, digit⟩ := digits.begins
      exact ⟨c, later, same, .inr digit⟩
  | negative => exact ⟨'-', _, rfl, .inl rfl⟩

theorem scalar_exact : Exact isNumberPart scalar WrittenScalar := by
  constructor
  · intro text taken rest read
    unfold scalar at read
    split at read
    · cases read
    · obtain ⟨⟨characters, left⟩, found, read⟩ := ok_of_bind read
      cases read
      obtain ⟨front, rfl, written⟩ := characters_ok_iff.mp found
      exact ⟨'"' :: front, rfl, .string written⟩
    · obtain ⟨left, found, read⟩ := ok_of_bind read
      cases read
      rw [word_ok_iff.mp found]
      exact ⟨_, rfl, .null⟩
    · obtain ⟨left, found, read⟩ := ok_of_bind read
      cases read
      rw [word_ok_iff.mp found]
      exact ⟨_, rfl, .bool true⟩
    · obtain ⟨left, found, read⟩ := ok_of_bind read
      cases read
      rw [word_ok_iff.mp found]
      exact ⟨_, rfl, .bool false⟩
    · split at read
      · obtain ⟨front, whole, rfl, written⟩ := numeral_exact.sound read
        exact ⟨front, whole, .number written⟩
      · cases read
  · intro taken front rest written stops
    cases written with
    | null => rfl
    | bool value => cases value <;> rfl
    | @number literal written =>
        have taken := numeral_exact.complete ⟨rfl, written⟩ stops
        obtain ⟨c, later, rfl, first⟩ := written.begins
        rw [List.cons_append] at taken ⊢
        rw [scalar, if_pos first, taken]
        all_goals
          rintro rfl
          rcases first with first | first <;> cases first
    | string written =>
        rw [List.cons_append, scalar, characters_written written]
        rfl

end Json
end Permission
