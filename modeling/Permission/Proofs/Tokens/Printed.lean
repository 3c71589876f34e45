import Permission.Proofs.Tokens.Reading

/-!
# Texts that read as given tokens

A printed text is read token by token, wherever it stands, as long as a separator or nothing
follows it.  Printed texts are put together from single tokens, and only their offsets depend on
the place where they stand.
-/

set_option autoImplicit false

namespace Permission
namespace Token

def unplaced (token : Token) : Token :=
  { token with offset := 0 }

def separators : List Char :=
  [' ', '(', ')', ',']

def Separated (text : List Char) : Prop :=
  ∀ c ∈ text.head?, c ∈ separators

/-- A text is read as the given tokens, up to their offsets, if what follows is separated. -/
def Prints (text : List Char) (tokens : List Token) : Prop :=
  ∀ base rest, Separated rest → ∃ placed,
    (Cursor.remaining ⟨base, text ++ rest⟩).1 =
        (Cursor.remaining ⟨base + Text.byteLength text, rest⟩).1.map (placed ++ ·) ∧
      placed.map unplaced = tokens

theorem Separated.ends {kind : Kind} {text : String} {rest : List Char}
    (separated : Separated rest) : ∀ c ∈ rest.head?, ¬ kind.GoesOn text c := by
  intro c next goesOn
  have separator := separated c next
  have checked : separators.all fun c => !continuesIdentifier c := by decide
  have noName : ∀ c ∈ separators, continuesIdentifier c = false := by simpa using checked
  have noSign : ∀ c ∈ separators, c ≠ '&' ∧ c ≠ '|' := by simp [separators]
  cases kind with
  | identifier =>
      have continued := continuesIdentifier_iff.mpr goesOn
      rw [noName c separator] at continued
      cases continued
  | and => exact (noSign c separator).1 goesOn.2
  | or => exact (noSign c separator).2 goesOn.2
  | _ => exact goesOn

theorem separated_cons {c : Char} (separator : c ∈ separators) (text : List Char) :
    Separated (c :: text) := by
  intro d next
  cases next
  exact separator

/-! ### Putting texts together -/

theorem Prints.nil : Prints [] [] := by
  intro base rest _
  refine ⟨[], ?_, rfl⟩
  rw [List.nil_append, Text.byteLength_nil, Nat.add_zero]
  cases (Cursor.remaining ⟨base, rest⟩).1 <;> rfl

/-- A token goes in front of a printed text that it does not go on with. -/
theorem Prints.token {kind : Kind} {spelling : String} {text : List Char} {tokens : List Token}
    (admitted : kind.Admits spelling)
    (ends : ∀ rest, Separated rest → ∀ c ∈ (text ++ rest).head?, ¬ kind.GoesOn spelling c)
    (later : Prints text tokens) :
    Prints (spelling.toList ++ text) (⟨kind, spelling, 0⟩ :: tokens) := by
  intro base rest separated
  -- What ends the token is seen in the text behind it, or in what follows if that text is empty.
  have leads : Leads base (spelling.toList ++ text ++ rest) ⟨kind, spelling, base⟩ (text ++ rest) :=
    ⟨admitted, ends rest separated, [], nofun, by simp, rfl⟩
  obtain ⟨placed, read, same⟩ := later (base + spelling.utf8ByteSize) rest separated
  refine ⟨⟨kind, spelling, base⟩ :: placed, ?_, by rw [List.map_cons, same]; rfl⟩
  rw [Cursor.remaining_next leads.next, read, Text.byteLength_append, Text.byteLength_toList,
    Nat.add_assoc]
  cases (Cursor.remaining ⟨base + (spelling.utf8ByteSize + Text.byteLength text), rest⟩).1 <;> rfl

theorem Prints.single {kind : Kind} {spelling : String} (admitted : kind.Admits spelling) :
    Prints spelling.toList [⟨kind, spelling, 0⟩] := by
  have alone : Prints (spelling.toList ++ []) [⟨kind, spelling, 0⟩] :=
    Prints.token admitted (fun _ separated => separated.ends) Prints.nil
  rw [List.append_nil] at alone
  exact alone

theorem Prints.blank {text : List Char} {tokens : List Token} (later : Prints text tokens) :
    Prints (' ' :: text) tokens := by
  intro base rest separated
  obtain ⟨placed, read, same⟩ := later (base + ' '.utf8Size) rest separated
  have blank : ∀ c ∈ [' '], Text.isBlank c = true := by simp [Text.isBlank, Text.blankRanges]
  refine ⟨placed, ?_, same⟩
  rw [List.cons_append, ← List.singleton_append, remaining_blanks blank,
    Text.byteLength_cons ' ' text, ← Nat.add_assoc]
  exact read

/-- A separator keeps what is printed before it apart from what follows. -/
theorem Prints.append {first second : List Char} {c : Char} {tokens tokens' : List Token}
    (before : Prints first tokens) (separator : c ∈ separators)
    (after : Prints (c :: second) tokens') :
    Prints (first ++ c :: second) (tokens ++ tokens') := by
  intro base rest separated
  obtain ⟨placed, read, same⟩ := before base (c :: second ++ rest) (separated_cons separator _)
  obtain ⟨placed', read', same'⟩ := after (base + Text.byteLength first) rest separated
  refine ⟨placed ++ placed', ?_, by rw [List.map_append, same, same']⟩
  rw [List.append_assoc, read, read', Text.byteLength_append, Nat.add_assoc]
  cases (Cursor.remaining ⟨base + (Text.byteLength first + Text.byteLength (c :: second)), rest⟩).1
  · rfl
  · simp [Except.map]

theorem Prints.ofSource {text : String} {tokens : List Token} (prints : Prints text.toList tokens) :
    ∃ placed, ofSource text = .ok (placed ++ [atEnd text.utf8ByteSize]) ∧
      placed.map unplaced = tokens := by
  have atLast : Separated [] := by
    intro c impossible
    cases impossible
  obtain ⟨placed, read, same⟩ := prints 0 [] atLast
  have ended : (Cursor.remaining ⟨text.utf8ByteSize, []⟩).1 = .ok [atEnd text.utf8ByteSize] :=
    Cursor.remaining_end (next_blank (List.forall_mem_nil _))
  rw [List.append_nil, Nat.zero_add, Text.byteLength_toList, ended] at read
  exact ⟨placed, read, same⟩

end Token
end Permission
