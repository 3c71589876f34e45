import Permission.Proofs.Tokens
import Permission.Proofs.Tokens.Lexeme

/-!
# The tokens of a source

The tokens of a source are the only ones that lie in it at their offsets, one after the other and
with nothing but blanks around them, such that each has a text of its kind and none goes on with
the character behind it.  A source without such tokens is refused at a character that begins no
token, and what stands before that character is a source of its own.
-/

set_option autoImplicit false

namespace Permission
namespace Token

/-- A token stands at its offset in a text whose first byte has the offset `base`, and `rest`
follows it. -/
def StandsIn (base : Nat) (text : List Char) (token : Token) (rest : List Char) : Prop :=
  ∃ front, text = front ++ (token.text.toList ++ rest) ∧
    token.offset = base + Text.byteLength front

/-- The tokens that make up a text whose first byte has the offset `base`. -/
structure Cover (base : Nat) (text : List Char) (tokens : List Token) : Prop where
  nonempty : ∀ token ∈ tokens, token.text ≠ ""
  placed : ∀ token ∈ tokens, ∃ rest, StandsIn base text token rest
  ordered : tokens.Pairwise fun earlier later =>
    earlier.offset + earlier.text.utf8ByteSize ≤ later.offset
  blank : ∀ front c rest, text = front ++ c :: rest → Text.isBlank c = true ∨
    ∃ token ∈ tokens, token.offset ≤ base + Text.byteLength front ∧
      base + Text.byteLength front < token.offset + token.text.utf8ByteSize
  admitted : ∀ token ∈ tokens, token.kind.Admits token.text
  ends : ∀ token ∈ tokens, ∀ rest, StandsIn base text token rest →
    ∀ c ∈ rest.head?, ¬ token.kind.GoesOn token.text c

/-- A text begins with a token, blanks before it apart, and `rest` follows it. -/
structure Leads (base : Nat) (text : List Char) (token : Token) (rest : List Char) : Prop where
  admitted : token.kind.Admits token.text
  ends : ∀ c ∈ rest.head?, ¬ token.kind.GoesOn token.text c
  placed : ∃ front, (∀ c ∈ front, Text.isBlank c = true) ∧
    text = front ++ (token.text.toList ++ rest) ∧ token.offset = base + Text.byteLength front

/-! ### Places -/

theorem StandsIn.base_le {base : Nat} {text rest : List Char} {token : Token}
    (stands : StandsIn base text token rest) : base ≤ token.offset := by
  obtain ⟨front, _, place⟩ := stands
  omega

theorem standsIn_append_iff {base : Nat} {gap text rest : List Char} {token : Token}
    (behind : base + Text.byteLength gap ≤ token.offset) :
    StandsIn base (gap ++ text) token rest ↔
      StandsIn (base + Text.byteLength gap) text token rest := by
  constructor
  · intro ⟨front, whole, place⟩
    have within : gap <+: front := by
      apply Text.prefix_of_byteLength_le (List.prefix_append gap text)
      · rw [whole]
        exact List.prefix_append _ _
      · omega
    obtain ⟨more, rfl⟩ := within
    rw [List.append_assoc] at whole
    rw [Text.byteLength_append] at place
    exact ⟨more, List.append_cancel_left whole, by omega⟩
  · intro ⟨front, whole, place⟩
    refine ⟨gap ++ front, ?_, ?_⟩
    · rw [whole, List.append_assoc]
    · rw [Text.byteLength_append]
      omega

theorem StandsIn.rest_eq {base : Nat} {text rest rest' : List Char} {token : Token}
    (stands : StandsIn base text token rest) (stands' : StandsIn base text token rest') :
    rest = rest' := by
  obtain ⟨front, whole, place⟩ := stands
  obtain ⟨front', whole', place'⟩ := stands'
  have within : front <+: front' := by
    apply Text.prefix_of_byteLength_le ⟨_, whole.symm⟩ ⟨_, whole'.symm⟩
    omega
  obtain ⟨more, rfl⟩ := within
  have nothing : more = [] := by
    rw [Text.byteLength_append] at place'
    apply Decidable.byContradiction
    intro nonempty
    have extra := Text.byteLength_pos nonempty
    omega
  rw [nothing, List.append_nil] at whole'
  exact List.append_cancel_left (List.append_cancel_left (whole.symm.trans whole'))

theorem Cover.inside {base : Nat} {text : List Char} {tokens : List Token}
    (cover : Cover base text tokens) : ∀ token ∈ tokens, token.kind ≠ .endOfInput := by
  intro token member
  exact (cover.admitted token member).inside

/-! ### The first token of a cover -/

theorem isBlank_of_printed {c : Char} (low : 33 ≤ c.toNat) (high : c.toNat ≤ 126) :
    Text.isBlank c = false := by
  simp only [Text.isBlank, Text.blankRanges, List.any_cons, List.any_nil, Bool.or_eq_false_iff,
    Bool.and_eq_false_iff, decide_eq_false_iff_not, and_true]
  omega

theorem InName.code {c : Char} (named : InName c) : 48 ≤ c.toNat ∧ c.toNat ≤ 122 := by
  rcases named with (⟨above, below⟩ | ⟨above, below⟩ | rfl) | ⟨above, below⟩
  · exact ⟨Nat.le_trans (by decide) above, below⟩
  · exact ⟨Nat.le_trans (by decide) above, Nat.le_trans below (by decide)⟩
  · decide
  · exact ⟨above, Nat.le_trans below (by decide)⟩

theorem isBlank_of_inName {c : Char} (named : InName c) : Text.isBlank c = false := by
  obtain ⟨low, high⟩ := named.code
  exact isBlank_of_printed (Nat.le_trans (by decide) low) (Nat.le_trans high (by decide))

theorem isBlank_of_beginsName {c : Char} (begins : BeginsName c) : Text.isBlank c = false :=
  isBlank_of_inName (.inl begins)

theorem Kind.Admits.begins {kind : Kind} {text : String} (admitted : kind.Admits text) :
    ∃ first others, text.toList = first :: others ∧ Text.isBlank first = false := by
  by_cases isName : kind = .identifier
  · subst isName
    obtain ⟨⟨first, others, shape, begins, _⟩, _⟩ := admitted
    exact ⟨first, others, shape, isBlank_of_beginsName begins⟩
  · have spelled : ∀ entry ∈ Kind.spellings,
        entry.1.toList.head?.any fun first => !Text.isBlank first := by decide
    have printed := spelled _ (mem_spellings_iff.mpr ⟨admitted, isName⟩)
    cases shape : text.toList with
    | nil =>
        rw [shape] at printed
        cases printed
    | cons first others =>
        rw [shape] at printed
        exact ⟨first, others, rfl, by simpa using printed⟩

theorem Kind.Admits.characters {kind : Kind} {text : String} (admitted : kind.Admits text) :
    ∀ c ∈ text.toList, InName c ∨ c ∈ signs := by
  intro c member
  by_cases isName : kind = .identifier
  · subst isName
    obtain ⟨⟨first, others, shape, begins, inside⟩, _⟩ := admitted
    rw [shape] at member
    rcases List.mem_cons.mp member with rfl | later
    · exact .inl (.inl begins)
    · exact .inl (inside c later)
  · have checked : Kind.spellings.all fun entry =>
        entry.1.toList.all fun c => continuesIdentifier c || signs.contains c := by decide
    have spelled := List.all_eq_true.mp checked _ (mem_spellings_iff.mpr ⟨admitted, isName⟩)
    rw [← continuesIdentifier_iff]
    simpa using List.all_eq_true.mp spelled c member

theorem cover_nil_iff {base : Nat} {text : List Char} :
    Cover base text [] ↔ ∀ c ∈ text, Text.isBlank c = true := by
  constructor
  · intro cover c member
    obtain ⟨front, rest, whole⟩ := List.append_of_mem member
    rcases cover.blank front c rest whole with blank | ⟨token, absent, _⟩
    · exact blank
    · cases absent
  · intro blank
    refine ⟨nofun, nofun, .nil, ?_, nofun, nofun⟩
    intro front c rest whole
    exact .inl (blank c (by rw [whole]; simp))

theorem Leads.cover {base : Nat} {text rest : List Char} {token : Token} {tokens : List Token}
    (leads : Leads base text token rest)
    (later : Cover (token.offset + token.text.utf8ByteSize) rest tokens) :
    Cover base text (token :: tokens) := by
  obtain ⟨admitted, ends, front, blank, whole, place⟩ := leads
  obtain ⟨first, others, shape, _⟩ := admitted.begins
  rw [← Text.byteLength_toList, place, Nat.add_assoc, ← Text.byteLength_append] at later
  rw [← List.append_assoc] at whole
  have here : StandsIn base text token rest := ⟨front, by rw [whole, List.append_assoc], place⟩
  have there {other : Token} (member : other ∈ tokens) :
      base + Text.byteLength (front ++ token.text.toList) ≤ other.offset := by
    obtain ⟨_, stands⟩ := later.placed other member
    exact stands.base_le
  constructor
  case nonempty =>
    intro other member
    rcases List.mem_cons.mp member with rfl | member
    · intro empty
      rw [empty] at shape
      cases shape
    · exact later.nonempty other member
  case placed =>
    intro other member
    rcases List.mem_cons.mp member with rfl | member
    · exact ⟨rest, here⟩
    · obtain ⟨rest', stands⟩ := later.placed other member
      refine ⟨rest', ?_⟩
      rw [whole]
      exact (standsIn_append_iff (there member)).mpr stands
  case ordered =>
    refine .cons ?_ later.ordered
    intro other member
    have behind := there member
    rw [Text.byteLength_append, Text.byteLength_toList] at behind
    omega
  case blank =>
    intro front' c rest' whole'
    rw [whole, List.append_assoc] at whole'
    -- A character stands before the token, in it, or in the rest.
    rcases Text.place_cases whole' with ⟨isBlank, _⟩ | ⟨behind, rfl, split⟩
    · exact .inl (blank c isBlank)
    rcases Text.place_cases split with ⟨_, inside⟩ | ⟨more, rfl, remains⟩
    · refine .inr ⟨token, List.mem_cons_self, ?_⟩
      rw [Text.byteLength_toList] at inside
      rw [Text.byteLength_append]
      omega
    · rcases later.blank more c rest' remains with isBlank | ⟨other, member, place'⟩
      · exact .inl isBlank
      · refine .inr ⟨other, List.mem_cons_of_mem _ member, ?_⟩
        rw [← List.append_assoc, Text.byteLength_append (front ++ token.text.toList),
          ← Nat.add_assoc]
        exact place'
  case admitted =>
    intro other member
    rcases List.mem_cons.mp member with rfl | member
    · exact admitted
    · exact later.admitted other member
  case ends =>
    intro other member rest' stands
    rcases List.mem_cons.mp member with rfl | member
    · rw [stands.rest_eq here]
      exact ends
    · rw [whole, standsIn_append_iff (there member)] at stands
      exact later.ends other member rest' stands

theorem Cover.leads {base : Nat} {text : List Char} {token : Token} {tokens : List Token}
    (cover : Cover base text (token :: tokens)) :
    ∃ rest, Leads base text token rest ∧
      Cover (token.offset + token.text.utf8ByteSize) rest tokens := by
  have isFirst : token ∈ token :: tokens := List.mem_cons_self
  obtain ⟨rest, stands⟩ := cover.placed token isFirst
  obtain ⟨front, whole, place⟩ := stands
  have order := List.pairwise_cons.mp cover.ordered
  have last : token.offset + token.text.utf8ByteSize =
      base + Text.byteLength (front ++ token.text.toList) := by
    rw [Text.byteLength_append, Text.byteLength_toList]
    omega
  have there {other : Token} (member : other ∈ tokens) :
      base + Text.byteLength (front ++ token.text.toList) ≤ other.offset := by
    rw [← last]
    exact order.1 other member
  refine ⟨rest, ⟨cover.admitted token isFirst, cover.ends token isFirst rest ⟨front, whole, place⟩,
    front, ?_, whole, place⟩, ?_⟩
  -- No token holds a character in front: all others begin behind the first one.
  · intro c member
    obtain ⟨before, behind, shape⟩ := List.append_of_mem member
    have positive := c.utf8Size_pos
    have shorter : Text.byteLength before < Text.byteLength front := by
      rw [shape, Text.byteLength_append, Text.byteLength_cons]
      omega
    rcases cover.blank before c (behind ++ (token.text.toList ++ rest)) (by rw [whole, shape]; simp)
      with isBlank | ⟨other, member, low, high⟩
    · exact isBlank
    · rcases List.mem_cons.mp member with rfl | member
      · omega
      · have behind := order.1 other member
        omega
  · rw [← List.append_assoc] at whole
    rw [last]
    constructor
    case nonempty => exact fun other member => cover.nonempty other (List.mem_cons_of_mem _ member)
    case placed =>
      intro other member
      obtain ⟨rest', stands⟩ := cover.placed other (List.mem_cons_of_mem _ member)
      rw [whole, standsIn_append_iff (there member)] at stands
      exact ⟨rest', stands⟩
    case ordered => exact order.2
    case blank =>
      intro front' c rest' whole'
      have within := cover.blank (front ++ token.text.toList ++ front') c rest'
        (by rw [whole, whole', List.append_assoc, List.append_assoc, List.append_assoc])
      rw [Text.byteLength_append (front ++ token.text.toList), ← Nat.add_assoc] at within
      rcases within with isBlank | ⟨other, member, low, high⟩
      · exact .inl isBlank
      · rcases List.mem_cons.mp member with rfl | member
        · omega
        · exact .inr ⟨other, member, low, high⟩
    case admitted => exact fun other member => cover.admitted other (List.mem_cons_of_mem _ member)
    case ends =>
      intro other member rest' stands
      rw [← standsIn_append_iff (there member), ← whole] at stands
      exact cover.ends other (List.mem_cons_of_mem _ member) rest' stands

/-- A covered text consists of blanks, characters of names and signs. -/
theorem Cover.characters {base : Nat} {text : List Char} {tokens : List Token}
    (cover : Cover base text tokens) :
    ∀ c ∈ text, Text.isBlank c = true ∨ InName c ∨ c ∈ signs := by
  induction tokens generalizing base text with
  | nil =>
      intro c member
      exact .inl (cover_nil_iff.mp cover c member)
  | cons token tokens ih =>
      obtain ⟨rest, ⟨admitted, _, front, blank, rfl, _⟩, later⟩ := cover.leads
      intro c member
      rcases List.mem_append.mp member with before | behind
      · exact .inl (blank c before)
      · rcases List.mem_append.mp behind with inside | after
        · exact .inr (admitted.characters c inside)
        · exact ih later c after

end Token
end Permission
