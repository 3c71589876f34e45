import Permission.Proofs.Text
import Permission.Token.Cursor

/-!
# What a lexeme is

Fixed spellings are tried in an order, and before identifiers.  Here the texts of each kind are
given without any order, and an order-free condition on the next character says where a lexeme
ends: an identifier ends before a character that no identifier has, and a single `&` or `|` is
not followed by itself.
-/

set_option autoImplicit false

namespace Permission
namespace Token

/-- A letter from A to Z in either case, or the underscore. -/
def BeginsName (c : Char) : Prop :=
  ('a' ≤ c ∧ c ≤ 'z') ∨ ('A' ≤ c ∧ c ≤ 'Z') ∨ c = '_'

/-- A character that a name may begin with, or a digit from 0 to 9. -/
def InName (c : Char) : Prop :=
  BeginsName c ∨ ('0' ≤ c ∧ c ≤ '9')

def keywords : List String :=
  ["And", "AND", "Or", "OR", "Not", "NOT"]

/-- The characters other than letters that a token may begin with. -/
def signs : List Char :=
  ['&', '|', '!', '(', ')', ',']

/-- The texts that a token of a kind may have. -/
def Kind.Admits : Kind → String → Prop
  | .endOfInput, _ => False
  | .identifier, text =>
    (∃ first others, text.toList = first :: others ∧ BeginsName first ∧ ∀ c ∈ others, InName c) ∧
      ∀ keyword ∈ keywords, ¬ keyword.toList <+: text.toList
  | .leftParen, text => text = "("
  | .rightParen, text => text = ")"
  | .comma, text => text = ","
  | .and, text => text = "And" ∨ text = "&&" ∨ text = "AND" ∨ text = "&"
  | .or, text => text = "Or" ∨ text = "||" ∨ text = "OR" ∨ text = "|"
  | .not, text => text = "Not" ∨ text = "!" ∨ text = "NOT"

theorem Kind.Admits.inside {kind : Kind} {text : String} (admitted : kind.Admits text) :
    kind ≠ .endOfInput := by
  rintro rfl
  exact admitted

/-- A token of this kind and text does not end before the character. -/
def Kind.GoesOn : Kind → String → Char → Prop
  | .identifier, _, c => InName c
  | .and, text, c => text = "&" ∧ c = '&'
  | .or, text, c => text = "|" ∧ c = '|'
  | _, _, _ => False

/-! ### Characters of names -/

theorem startsIdentifier_iff {c : Char} : startsIdentifier c = true ↔ BeginsName c := by
  change ((decide ('A' ≤ c ∧ c ≤ 'Z') || decide ('a' ≤ c) && decide (c ≤ 'z')) || c == '_') = true ↔
    BeginsName c
  simp only [BeginsName, Bool.or_eq_true, Bool.and_eq_true, decide_eq_true_eq, beq_iff_eq]
  grind

theorem continuesIdentifier_iff {c : Char} : continuesIdentifier c = true ↔ InName c := by
  rw [InName, ← startsIdentifier_iff]
  change ((c.isAlpha || decide ('0' ≤ c) && decide (c ≤ '9')) || c == '_') = true ↔
    (c.isAlpha || c == '_') = true ∨ _
  simp only [Bool.or_eq_true, Bool.and_eq_true, decide_eq_true_eq, beq_iff_eq]
  grind

/-! ### Fixed spellings -/

theorem spellings_cases : ∀ entry ∈ Kind.spellings,
    (entry.1 ∈ keywords ∧ ∀ c ∈ entry.1.toList, continuesIdentifier c = true) ∨
      ∃ sign ∈ signs, startsIdentifier sign = false ∧ entry.1.toList.head? = some sign := by
  have checked : Kind.spellings.all fun entry =>
      (keywords.contains entry.1 && entry.1.toList.all continuesIdentifier) ||
        signs.any fun sign => !startsIdentifier sign && entry.1.toList.head? == some sign := by
    decide
  simpa using checked

theorem keywords_spelled : ∀ keyword ∈ keywords, keyword ∈ Kind.spellings.map Prod.fst := by
  simp [keywords, Kind.spellings]

theorem signs_spelled : ∀ sign ∈ signs, [sign] ∈ Kind.spellings.map (·.1.toList) := by
  simp [signs, Kind.spellings]

theorem mem_spellings_iff {kind : Kind} {text : String} :
    (text, kind) ∈ Kind.spellings ↔ kind.Admits text ∧ kind ≠ .identifier := by
  cases kind <;> simp [Kind.spellings, Kind.Admits]

theorem fixedLexeme_eq_none_iff {text : List Char} :
    fixedLexeme? text = none ↔ ∀ entry ∈ Kind.spellings, ¬ entry.1.toList <+: text := by
  simp [fixedLexeme?, List.findSome?_eq_none_iff]

theorem fixedLexeme_spelled {text lexeme : List Char} {kind : Kind}
    (found : fixedLexeme? text = some (kind, lexeme)) :
    (String.ofList lexeme, kind) ∈ Kind.spellings ∧ lexeme <+: text := by
  obtain ⟨⟨spelling, spelled⟩, listed, taken⟩ := List.exists_of_findSome?_eq_some found
  by_cases begins : spelling.toList.isPrefixOf text = true
  · simp only [begins, if_true, Option.some.injEq, Prod.mk.injEq] at taken
    obtain ⟨rfl, rfl⟩ := taken
    rw [String.ofList_toList]
    exact ⟨listed, List.isPrefixOf_iff_prefix.mp begins⟩
  · simp [begins] at taken

theorem fixedLexeme_append_iff {kind : Kind} {text : String} {rest : List Char} :
    fixedLexeme? (text.toList ++ rest) = some (kind, text.toList) ↔
      (text, kind) ∈ Kind.spellings ∧ ∀ c ∈ rest.head?, ¬ kind.GoesOn text c := by
  constructor
  · intro found
    have listed := (fixedLexeme_spelled found).1
    rw [String.ofList_toList] at listed
    refine ⟨listed, ?_⟩
    intro c next goesOn
    obtain ⟨later, rfl⟩ := List.head?_eq_some_iff.mp next
    cases kind with
    | and =>
        obtain ⟨rfl, rfl⟩ := goesOn
        cases found
    | or =>
        obtain ⟨rfl, rfl⟩ := goesOn
        cases found
    | identifier => exact (mem_spellings_iff.mp listed).2 rfl
    | _ => exact goesOn
  · intro ⟨listed, stops⟩
    simp only [Kind.spellings, List.mem_cons, Prod.mk.injEq, List.not_mem_nil, or_false] at listed
    rcases listed with ⟨rfl, rfl⟩ | ⟨rfl, rfl⟩ | ⟨rfl, rfl⟩ | ⟨rfl, rfl⟩ | ⟨rfl, rfl⟩ |
      ⟨rfl, rfl⟩ | ⟨rfl, rfl⟩ | ⟨rfl, rfl⟩ | ⟨rfl, rfl⟩ | ⟨rfl, rfl⟩ | ⟨rfl, rfl⟩ |
      ⟨rfl, rfl⟩ | ⟨rfl, rfl⟩ | ⟨rfl, rfl⟩
    all_goals first | rfl | skip
    · have single : ∀ c ∈ rest.head?, c ≠ '&' := fun c next same => stops c next ⟨rfl, same⟩
      cases rest with
      | nil => rfl
      | cons c rest => simp [fixedLexeme?, Kind.spellings, (single c rfl).symm]
    · have single : ∀ c ∈ rest.head?, c ≠ '|' := fun c next same => stops c next ⟨rfl, same⟩
      cases rest with
      | nil => rfl
      | cons c rest => simp [fixedLexeme?, Kind.spellings, (single c rfl).symm]

/-! ### Names -/

theorem identifierLexeme_eq_some_iff {text lexeme : List Char} {kind : Kind} :
    identifierLexeme? text = some (kind, lexeme) ↔
      kind = .identifier ∧ ∃ first others, text = first :: others ∧ BeginsName first ∧
        lexeme = first :: others.takeWhile continuesIdentifier := by
  cases text with
  | nil => simp [identifierLexeme?]
  | cons first others =>
      rw [identifierLexeme?]
      by_cases begins : startsIdentifier first = true
      · rw [if_pos begins]
        have named := startsIdentifier_iff.mp begins
        constructor
        · intro same
          cases same
          exact ⟨rfl, first, others, rfl, named, rfl⟩
        · intro ⟨isName, first', others', whole, _, cut⟩
          cases whole
          rw [isName, cut]
      · rw [if_neg begins]
        constructor
        · intro impossible
          cases impossible
        · intro ⟨_, first', others', whole, named, _⟩
          cases whole
          exact absurd (startsIdentifier_iff.mpr named) begins

theorem identifierLexeme_append_iff {text : String} {rest : List Char} :
    identifierLexeme? (text.toList ++ rest) = some (.identifier, text.toList) ↔
      (∃ first others, text.toList = first :: others ∧ BeginsName first ∧ ∀ c ∈ others, InName c) ∧
        ∀ c ∈ rest.head?, ¬ InName c := by
  simp only [← continuesIdentifier_iff, Bool.not_eq_true]
  constructor
  · intro found
    obtain ⟨_, first, others, whole, begins, cut⟩ := identifierLexeme_eq_some_iff.mp found
    rw [cut, List.cons_append] at whole
    have run := congrArg (List.takeWhile continuesIdentifier) (List.cons.inj whole).2
    obtain ⟨inside, stops⟩ := Text.takeWhile_append_iff.mp run
    exact ⟨⟨first, _, cut, begins, inside⟩, stops⟩
  · intro ⟨⟨first, others, shape, begins, inside⟩, stops⟩
    have run := Text.takeWhile_append_iff.mpr ⟨inside, stops⟩
    rw [shape, identifierLexeme_eq_some_iff]
    exact ⟨rfl, first, others ++ rest, rfl, begins, by rw [run]⟩

/-- Name characters that stop at a place hold every keyword that the text begins with. -/
theorem keyword_within {keyword name rest : List Char}
    (characters : ∀ c ∈ keyword, continuesIdentifier c = true)
    (stops : ∀ c ∈ rest.head?, continuesIdentifier c = false)
    (begins : keyword <+: name ++ rest) : keyword <+: name := by
  rcases List.prefix_or_prefix_of_prefix begins (List.prefix_append name rest) with
    within | ⟨more, longer⟩
  · exact within
  · rw [← longer, List.prefix_append_right_inj] at begins
    cases more with
    | nil => simp [← longer]
    | cons c more =>
        obtain ⟨later, same⟩ := begins
        have next : c ∈ rest.head? := by rw [← same]; rfl
        have inside : c ∈ keyword := by rw [← longer]; simp
        have continued := characters c inside
        rw [stops c next] at continued
        cases continued

theorem fixedLexeme_name {name rest : List Char} {first : Char} {others : List Char}
    (shape : name = first :: others) (begins : BeginsName first)
    (noKeyword : ∀ keyword ∈ keywords, ¬ keyword.toList <+: name)
    (stops : ∀ c ∈ rest.head?, continuesIdentifier c = false) :
    fixedLexeme? (name ++ rest) = none := by
  rw [fixedLexeme_eq_none_iff]
  intro entry listed spelled
  rcases spellings_cases entry listed with ⟨isKeyword, characters⟩ | ⟨sign, _, noName, head⟩
  · exact noKeyword entry.1 isKeyword (keyword_within characters stops spelled)
  · obtain ⟨more, same⟩ := List.head?_eq_some_iff.mp head
    rw [same, shape, List.cons_append, List.cons_prefix_cons] at spelled
    rw [spelled.1, startsIdentifier_iff.mpr begins] at noName
    cases noName

/-! ### Lexemes -/

theorem lexeme_prefix {text lexeme : List Char} {kind : Kind}
    (found : lexeme? text = some (kind, lexeme)) : lexeme <+: text := by
  rcases Option.or_eq_some_iff.mp found with fixed | ⟨_, named⟩
  · exact (fixedLexeme_spelled fixed).2
  · obtain ⟨_, first, others, rfl, _, rfl⟩ := identifierLexeme_eq_some_iff.mp named
    exact List.cons_prefix_cons.mpr ⟨rfl, List.takeWhile_prefix _⟩

/-- A text begins with a lexeme exactly if the lexeme is one of the texts of its kind and does not
go on with the character after it. -/
theorem lexeme_append_iff {kind : Kind} {text : String} {rest : List Char} :
    lexeme? (text.toList ++ rest) = some (kind, text.toList) ↔
      kind.Admits text ∧ ∀ c ∈ rest.head?, ¬ kind.GoesOn text c := by
  constructor
  · intro found
    rcases Option.or_eq_some_iff.mp found with fixed | ⟨unfixed, named⟩
    · obtain ⟨listed, stops⟩ := fixedLexeme_append_iff.mp fixed
      exact ⟨(mem_spellings_iff.mp listed).1, stops⟩
    · obtain ⟨rfl, _⟩ := identifierLexeme_eq_some_iff.mp named
      obtain ⟨shape, stops⟩ := identifierLexeme_append_iff.mp named
      refine ⟨⟨shape, ?_⟩, stops⟩
      intro keyword isKeyword within
      obtain ⟨entry, listed, rfl⟩ := List.mem_map.mp (keywords_spelled keyword isKeyword)
      exact fixedLexeme_eq_none_iff.mp unfixed entry listed (within.trans (List.prefix_append _ _))
  · intro ⟨admitted, stops⟩
    by_cases isName : kind = .identifier
    · subst isName
      obtain ⟨⟨first, others, shape, begins, inside⟩, noKeyword⟩ := admitted
      have stopped : ∀ c ∈ rest.head?, continuesIdentifier c = false := fun c next =>
        Bool.eq_false_iff.mpr fun goesOn => stops c next (continuesIdentifier_iff.mp goesOn)
      have named := identifierLexeme_append_iff.mpr ⟨⟨first, others, shape, begins, inside⟩, stops⟩
      rw [lexeme?, fixedLexeme_name shape begins noKeyword stopped, named]
      rfl
    · have fixed := fixedLexeme_append_iff.mpr ⟨mem_spellings_iff.mpr ⟨admitted, isName⟩, stops⟩
      rw [lexeme?, fixed]
      rfl

theorem spellings_begin : ∀ entry ∈ Kind.spellings,
    ∃ c others, entry.1.toList = c :: others ∧ (BeginsName c ∨ c ∈ signs) := by
  have checked : ∀ entry ∈ Kind.spellings,
      entry.1.toList.head?.any fun c => startsIdentifier c || signs.contains c := by decide
  intro entry listed
  have begins := checked entry listed
  cases shape : entry.1.toList with
  | nil =>
      rw [shape] at begins
      cases begins
  | cons c others =>
      rw [shape] at begins
      exact ⟨c, others, rfl, by simpa [startsIdentifier_iff] using begins⟩

/-- Exactly the characters that neither begin a name nor are signs begin no lexeme. -/
theorem lexeme_eq_none_iff {c : Char} {text : List Char} :
    lexeme? (c :: text) = none ↔ ¬ BeginsName c ∧ c ∉ signs := by
  rw [lexeme?, Option.or_eq_none_iff, fixedLexeme_eq_none_iff]
  constructor
  · intro none
    obtain ⟨unfixed, unnamed⟩ := none
    constructor
    · intro begins
      have named := identifierLexeme_eq_some_iff.mpr ⟨rfl, c, text, rfl, begins, rfl⟩
      rw [unnamed] at named
      cases named
    · intro isSign
      obtain ⟨entry, listed, spelled⟩ := List.mem_map.mp (signs_spelled c isSign)
      apply unfixed entry listed
      rw [spelled]
      exact List.cons_prefix_cons.mpr ⟨rfl, List.nil_prefix⟩
  · intro neither
    obtain ⟨noName, noSign⟩ := neither
    constructor
    · intro entry listed spelled
      obtain ⟨first, others, shape, begins⟩ := spellings_begin entry listed
      rw [shape, List.cons_prefix_cons] at spelled
      rw [spelled.1] at begins
      rcases begins with isName | isSign
      · exact noName isName
      · exact noSign isSign
    · rw [identifierLexeme?, if_neg (mt startsIdentifier_iff.mp noName)]

end Token
end Permission
