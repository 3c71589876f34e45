import Permission.Proofs.Tokens.Cover

/-!
# Reading finds the cover

One step of a cursor takes the token that leads what is left.  So all steps together give the
tokens that cover the source, or stop where no token leads.
-/

set_option autoImplicit false

namespace Permission
namespace Token

/-- A digit, or a character that is neither a blank nor part of any token. -/
def BeginsNone (c : Char) : Prop :=
  ('0' ≤ c ∧ c ≤ '9') ∨ (Text.isBlank c = false ∧ ¬ InName c ∧ c ∉ signs)

/-! ### One step -/

theorem skipBlanks_append {base : Nat} {blanks rest : List Char} {c : Char}
    (blank : ∀ d ∈ blanks, Text.isBlank d = true) (stops : Text.isBlank c = false) :
    Cursor.skipBlanks ⟨base, blanks ++ c :: rest⟩ = ⟨base + Text.byteLength blanks, c :: rest⟩ := by
  rw [Cursor.skipBlanks, Text.leadingBlanks_append blank stops, Text.trimStart_append blank stops]

theorem skipBlanks_blank {base : Nat} {text : List Char}
    (blank : ∀ c ∈ text, Text.isBlank c = true) :
    Cursor.skipBlanks ⟨base, text⟩ = ⟨base + Text.byteLength text, []⟩ := by
  have taken : (text ++ []).takeWhile Text.isBlank = text ++ [].takeWhile Text.isBlank :=
    List.takeWhile_append_of_pos blank
  have dropped : (text ++ []).dropWhile Text.isBlank = [].dropWhile Text.isBlank :=
    List.dropWhile_append_of_pos blank
  rw [List.append_nil] at taken dropped
  rw [Cursor.skipBlanks, Text.leadingBlanks, Text.trimStart, taken, dropped]
  simp

theorem next_blank {base : Nat} {text : List Char} (blank : ∀ c ∈ text, Text.isBlank c = true) :
    Cursor.next ⟨base, text⟩ = (.ok none, ⟨base + Text.byteLength text, []⟩) := by
  rw [Cursor.next, skipBlanks_blank blank]
  rfl

theorem next_lexeme {base : Nat} {blanks rest : List Char} {c : Char} {kind : Kind} {text : String}
    (blank : ∀ d ∈ blanks, Text.isBlank d = true) (stops : Text.isBlank c = false)
    (found : lexeme? (c :: rest) = some (kind, text.toList)) :
    Cursor.next ⟨base, blanks ++ c :: rest⟩ =
      (.ok (some ⟨kind, text, base + Text.byteLength blanks⟩),
        Cursor.advance ⟨base + Text.byteLength blanks, c :: rest⟩ text.toList.length) := by
  rw [Cursor.next, skipBlanks_append blank stops]
  simp [found]

theorem Leads.next {base : Nat} {text rest : List Char} {token : Token}
    (leads : Leads base text token rest) :
    Cursor.next ⟨base, text⟩ =
      (.ok (some token), ⟨token.offset + token.text.utf8ByteSize, rest⟩) := by
  obtain ⟨admitted, ends, front, blank, rfl, place⟩ := leads
  obtain ⟨first, others, shape, printed⟩ := admitted.begins
  have found := lexeme_append_iff.mpr ⟨admitted, ends⟩
  have after : Cursor.advance ⟨token.offset, token.text.toList ++ rest⟩ token.text.toList.length =
      ⟨token.offset + token.text.utf8ByteSize, rest⟩ := by
    rw [Cursor.advance, List.take_left, List.drop_left, Text.byteLength_toList]
  rw [shape, List.cons_append] at found after ⊢
  rw [← shape] at found after
  rw [next_lexeme blank printed found, ← place, after]

theorem Leads.shorter {base : Nat} {text rest : List Char} {token : Token}
    (leads : Leads base text token rest) : rest.length < text.length :=
  Cursor.next_shortens leads.next

theorem beginsNone_iff {c : Char} :
    BeginsNone c ↔ Text.isBlank c = false ∧ ¬ BeginsName c ∧ c ∉ signs := by
  constructor
  · intro beginsNone
    rcases beginsNone with ⟨low, high⟩ | ⟨printed, noName, noSign⟩
    · have above : 48 ≤ c.toNat := low
      have below : c.toNat ≤ 57 := high
      refine ⟨isBlank_of_printed (by omega) (by omega), ?_, ?_⟩
      · rintro (⟨letter, _⟩ | ⟨letter, _⟩ | rfl)
        · have code : 97 ≤ c.toNat := letter
          omega
        · have code : 65 ≤ c.toNat := letter
          omega
        · exact absurd high (by decide)
      · have others : ∀ sign ∈ signs, sign.toNat < 48 ∨ 57 < sign.toNat := by simp [signs]
        intro isSign
        have apart := others c isSign
        omega
    · exact ⟨printed, fun begins => noName (.inl begins), noSign⟩
  · intro unread
    obtain ⟨printed, noName, noSign⟩ := unread
    by_cases digit : '0' ≤ c ∧ c ≤ '9'
    · exact .inl digit
    · exact .inr ⟨printed, not_or.mpr ⟨noName, digit⟩, noSign⟩

theorem next_refused {base : Nat} {blanks : List Char} {c : Char}
    (blank : ∀ d ∈ blanks, Text.isBlank d = true) (beginsNone : BeginsNone c)
    (rest : List Char) :
    (Cursor.next ⟨base, blanks ++ c :: rest⟩).1 =
      .error ⟨base + Text.byteLength blanks, String.ofList (c :: rest)⟩ := by
  obtain ⟨printed, unread⟩ := beginsNone_iff.mp beginsNone
  rw [Cursor.next, skipBlanks_append blank printed]
  simp [lexeme_eq_none_iff.mpr unread]

theorem next_cases (base : Nat) (text : List Char) :
    (∀ c ∈ text, Text.isBlank c = true) ∨ (∃ token rest, Leads base text token rest) ∨
      ∃ front c rest, (∀ d ∈ front, Text.isBlank d = true) ∧ text = front ++ c :: rest ∧
        BeginsNone c ∧ (Cursor.next ⟨base, text⟩).1 =
          .error ⟨base + Text.byteLength front, String.ofList (c :: rest)⟩ := by
  rcases Text.blank_cases text with all | ⟨front, c, rest, rfl, blank, printed⟩
  · exact .inl all
  · refine .inr ?_
    cases found : lexeme? (c :: rest) with
    | some entry =>
        obtain ⟨kind, lexeme⟩ := entry
        obtain ⟨more, whole⟩ := lexeme_prefix found
        rw [← whole, ← String.toList_ofList (l := lexeme)] at found
        obtain ⟨admitted, ends⟩ := lexeme_append_iff.mp found
        refine .inl ⟨⟨kind, String.ofList lexeme, base + Text.byteLength front⟩, more, ?_⟩
        exact ⟨admitted, ends, front, blank, by rw [String.toList_ofList, whole], rfl⟩
    | none =>
        have beginsNone := beginsNone_iff.mpr ⟨printed, lexeme_eq_none_iff.mp found⟩
        exact .inr ⟨front, c, rest, blank, rfl, beginsNone, next_refused blank beginsNone rest⟩

/-! ### All steps -/

theorem remaining_blanks {base : Nat} {blanks : List Char}
    (blank : ∀ c ∈ blanks, Text.isBlank c = true) (text : List Char) :
    Cursor.remaining ⟨base, blanks ++ text⟩ =
      Cursor.remaining ⟨base + Text.byteLength blanks, text⟩ := by
  have skipped : Cursor.skipBlanks ⟨base, blanks ++ text⟩ =
      Cursor.skipBlanks ⟨base + Text.byteLength blanks, text⟩ := by
    simp only [Cursor.skipBlanks, Text.leadingBlanks, Text.trimStart]
    rw [List.takeWhile_append_of_pos blank, List.dropWhile_append_of_pos blank,
      Text.byteLength_append, Nat.add_assoc]
  rw [Cursor.remaining_eq, Cursor.remaining_eq ⟨base + Text.byteLength blanks, text⟩, Cursor.next,
    Cursor.next, skipped]

theorem Cover.remaining {base : Nat} {text : List Char} {tokens : List Token}
    (cover : Cover base text tokens) :
    (Cursor.remaining ⟨base, text⟩).1 =
      .ok (tokens ++ [atEnd (base + Text.byteLength text)]) := by
  induction tokens generalizing base text with
  | nil => exact Cursor.remaining_end (next_blank (cover_nil_iff.mp cover))
  | cons token tokens ih =>
      obtain ⟨rest, leads, later⟩ := cover.leads
      rw [Cursor.remaining_next leads.next, ih later]
      obtain ⟨_, _, front, _, rfl, place⟩ := leads
      rw [Text.byteLength_append, Text.byteLength_append, Text.byteLength_toList, place]
      simp [Except.map, Nat.add_assoc]

/-- Reading the text stops before the character `c`, where no token begins. -/
structure Stops (base : Nat) (text front : List Char) (c : Char) (rest : List Char) : Prop where
  whole : text = front ++ c :: rest
  beginsNone : BeginsNone c
  before : ∃ tokens, Cover base front tokens
  failed : (Cursor.remaining ⟨base, text⟩).1 =
    .error ⟨base + Text.byteLength front, String.ofList (c :: rest)⟩

theorem Leads.stops {base : Nat} {text front rest remainder : List Char} {token : Token} {c : Char}
    (leads : Leads base text token rest)
    (later : Stops (token.offset + token.text.utf8ByteSize) rest front c remainder) :
    ∃ longer, Stops base text longer c remainder := by
  have failed := Cursor.remaining_next leads.next
  rw [later.failed] at failed
  obtain ⟨tokens, cover⟩ := later.before
  obtain ⟨admitted, ends, gap, blank, whole, place⟩ := leads
  refine ⟨gap ++ (token.text.toList ++ front), ?_, later.beginsNone, ⟨token :: tokens, ?_⟩, ?_⟩
  · rw [whole, later.whole]
    simp
  · refine Leads.cover ⟨admitted, ?_, gap, blank, rfl, place⟩ cover
    intro d next
    apply ends d
    obtain ⟨others, shape⟩ := List.head?_eq_some_iff.mp next
    rw [later.whole, shape]
    rfl
  · rw [failed, Text.byteLength_append, Text.byteLength_append, Text.byteLength_toList, place]
    simp [Except.map, Nat.add_assoc]

theorem remaining_cases (base : Nat) (text : List Char) :
    (∃ tokens, Cover base text tokens) ∨ ∃ front c rest, Stops base text front c rest := by
  -- Each token that is taken leaves a shorter text, so the induction is on the length.
  induction size : text.length using Nat.strongRecOn generalizing base text with
  | ind size ih =>
      rcases next_cases base text with blank | ⟨token, rest, leads⟩ |
        ⟨front, c, rest, blank, whole, beginsNone, failed⟩
      · exact .inl ⟨[], cover_nil_iff.mpr blank⟩
      · have shorter := leads.shorter
        rcases ih rest.length (by omega) (token.offset + token.text.utf8ByteSize) rest rfl with
          ⟨tokens, later⟩ | ⟨behind, c, remainder, stops⟩
        · exact .inl ⟨token :: tokens, leads.cover later⟩
        · obtain ⟨longer, stopped⟩ := leads.stops stops
          exact .inr ⟨longer, c, remainder, stopped⟩
      · refine .inr ⟨front, c, rest, whole, beginsNone, ⟨[], cover_nil_iff.mpr blank⟩, ?_⟩
        exact Cursor.remaining_failed failed

theorem Cover.unique {base : Nat} {text : List Char} {tokens tokens' : List Token}
    (cover : Cover base text tokens) (cover' : Cover base text tokens') : tokens = tokens' := by
  have same := cover.remaining.symm.trans cover'.remaining
  exact List.append_cancel_right (Except.ok.inj same)

theorem remaining_iff_cover {base : Nat} {text : List Char} {tokens : List Token} :
    (Cursor.remaining ⟨base, text⟩).1 = .ok (tokens ++ [atEnd (base + Text.byteLength text)]) ↔
      Cover base text tokens := by
  constructor
  · intro read
    rcases remaining_cases base text with ⟨tokens', cover⟩ | ⟨front, c, rest, stops⟩
    · rw [cover.remaining] at read
      rw [← List.append_cancel_right (Except.ok.inj read)]
      exact cover
    · rw [stops.failed] at read
      cases read
  · exact Cover.remaining

theorem ofSource_iff_cover {source : String} {tokens : List Token} :
    ofSource source = .ok (tokens ++ [atEnd source.utf8ByteSize]) ↔
      Cover 0 source.toList tokens := by
  rw [← remaining_iff_cover, Nat.zero_add, Text.byteLength_toList]
  rfl

theorem ofSource_ok {source : String} {tokens : List Token} (read : ofSource source = .ok tokens) :
    ∃ content, tokens = content ++ [atEnd source.utf8ByteSize] ∧
      Cover 0 source.toList content := by
  rcases remaining_cases 0 source.toList with ⟨content, cover⟩ | ⟨front, c, rest, stops⟩
  · have whole := read.symm.trans (ofSource_iff_cover.mpr cover)
    exact ⟨content, Except.ok.inj whole, cover⟩
  · have failed := read.symm.trans stops.failed
    cases failed

/-- Reading a source answers with exactly the tokens that cover it, which are determined by it, and
with one end of input behind them.  A source without such tokens is refused before a digit or
another character that begins no token, and what stands before that character is read. -/
theorem ofSource_reads_cover (source : String) :
    (∀ tokens, ofSource source = .ok (tokens ++ [atEnd source.utf8ByteSize]) ↔
        Cover 0 source.toList tokens) ∧
      (∀ tokens tokens', Cover 0 source.toList tokens → Cover 0 source.toList tokens' →
        tokens = tokens') ∧
      ((¬ ∃ tokens, Cover 0 source.toList tokens) → ∃ front c rest,
        source.toList = front ++ c :: rest ∧ BeginsNone c ∧
          ofSource source = .error ⟨Text.byteLength front, String.ofList (c :: rest)⟩ ∧
            ∃ tokens, ofSource (String.ofList front) = .ok tokens) := by
  refine ⟨fun tokens => ofSource_iff_cover, fun tokens tokens' => Cover.unique, ?_⟩
  intro uncovered
  rcases remaining_cases 0 source.toList with covered | ⟨front, c, rest, stops⟩
  · exact absurd covered uncovered
  · obtain ⟨tokens, cover⟩ := stops.before
    have failed := stops.failed
    rw [Nat.zero_add] at failed
    rw [← String.toList_ofList (l := front)] at cover
    exact ⟨front, c, rest, stops.whole, stops.beginsNone, failed, _, ofSource_iff_cover.mpr cover⟩

example : ofSource "Android" =
    .ok [⟨.and, "And", 0⟩, ⟨.identifier, "roid", 3⟩, Token.atEnd 7] :=
  Cursor.remaining_of_within 3 rfl

end Token
end Permission
