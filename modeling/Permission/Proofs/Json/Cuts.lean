import Permission.Proofs.Json.Values

/-!
# Texts that are cut short

Where a whole text gives a value without numbers, a front of the text gives the same value, or it
is truncated: it is never found malformed, and it never gives another value.  A number is different,
for it may end anywhere.
-/

set_option autoImplicit false

namespace Permission
namespace Json

/-- What is taken from a text that goes on with `back`, and what is taken from it without `back`: if
the former is fine, then the latter is the same, or the text is truncated. -/
def Persists {α : Type} (back : List Char) (fine : α → Prop)
    (whole cut : Except StorageError (α × List Char)) : Prop :=
  ∀ taken rest, whole = .ok (taken, rest) → fine taken →
    (∃ left, rest = left ++ back ∧ cut = .ok (taken, left)) ∨ cut = .error .truncated

/-- The reader is no less sure of what it takes if the text is cut. -/
def Steady {α : Type} (fine : α → Prop) (reader : Reader α) : Prop :=
  ∀ front back, Persists back fine (reader (front ++ back)) (reader front)

section

variable {α β : Type} {back : List Char} {fine : α → Prop} {fine' : β → Prop}

theorem Persists.ok (taken : α) (left : List Char) :
    Persists back fine (.ok (taken, left ++ back)) (.ok (taken, left)) := by
  intro taken' rest same _
  cases same
  exact .inl ⟨left, rfl, rfl⟩

theorem Persists.truncated (whole : Except StorageError (α × List Char)) :
    Persists back fine whole (.error .truncated) :=
  fun _ _ _ _ => .inr rfl

theorem Persists.fault (fault : StorageError) (cut : Except StorageError (α × List Char)) :
    Persists back fine (.error fault) cut :=
  nofun

theorem Persists.bind {whole cut : Except StorageError (α × List Char)}
    {next next' : α × List Char → Except StorageError (β × List Char)}
    (first : Persists back fine whole cut)
    (later : ∀ taken left, Persists back fine' (next (taken, left ++ back)) (next' (taken, left)))
    (inside : ∀ taken left result rest, next (taken, left) = .ok (result, rest) → fine' result →
      fine taken) : Persists back fine' (whole >>= next) (cut >>= next') := by
  intro result rest read holds
  obtain ⟨⟨taken, left⟩, found, read⟩ := ok_of_bind read
  rcases first taken left found (inside taken left result rest read holds) with
    ⟨left, rfl, same⟩ | truncated
  · rw [same]
    exact later taken left result rest read holds
  · rw [truncated]
    exact .inr rfl

theorem Persists.consTaken {fine' : List α → Prop}
    {whole cut : Except StorageError (α × List Char)} {more more' : α → Reader (List α)}
    (first : Persists back fine whole cut)
    (later : ∀ entry left, Persists back fine' (more entry (left ++ back)) (more' entry left))
    (parts : ∀ entry others, fine' (entry :: others) → fine entry ∧ fine' others) :
    Persists back fine' (consTaken whole more) (consTaken cut more') := by
  refine first.bind (fun entry left => ?_) ?_
  · refine (later entry left).bind (fun others left => .ok (entry :: others) left) ?_
    intro others left result rest same holds
    cases same
    exact (parts entry others holds).2
  · intro entry left result rest found holds
    obtain ⟨⟨others, left⟩, _, same⟩ := ok_of_bind found
    cases same
    exact (parts entry others holds).1

end

theorem skipSpace_append_cases (front back : List Char) :
    skipSpace front = [] ∨
      ∃ c more, skipSpace front = c :: more ∧ skipSpace (front ++ back) = c :: (more ++ back) := by
  induction front with
  | nil => exact .inl rfl
  | cons c front ih =>
      cases space : isSpace c with
      | true =>
          rw [List.cons_append, skipSpace, skipSpace, List.dropWhile_cons_of_pos space,
            List.dropWhile_cons_of_pos space]
          exact ih
      | false =>
          rw [List.cons_append, skipSpace_cons space, skipSpace_cons space]
          exact .inr ⟨c, front, rfl, rfl⟩

/-! ### Strings -/

theorem word_cut (wanted more : List Char) (cut : more ≠ []) :
    ∀ front, wanted = front ++ more → word wanted front = .error .truncated := by
  intro front whole
  subst whole
  induction front with
  | nil =>
      obtain ⟨c, later, rfl⟩ := List.exists_cons_of_ne_nil cut
      rfl
  | cons c front ih => rw [List.cons_append, word, if_pos rfl, ih]

theorem word_persists {α : Type} {fine : α → Prop} {wanted front back : List Char}
    {next : List Char → Except StorageError (α × List Char)}
    (later : ∀ left, Persists back fine (next (left ++ back)) (next left)) :
    Persists back fine (word wanted (front ++ back) >>= next) (word wanted front >>= next) := by
  intro taken rest read holds
  obtain ⟨left, found, read⟩ := ok_of_bind read
  rcases List.append_eq_append_iff.mp (word_ok_iff.mp found) with
    ⟨more, longer, behind⟩ | ⟨more, longer, behind⟩
  · cases more with
    | nil =>
        rw [List.append_nil] at longer
        rw [List.nil_append] at behind
        have same : word wanted front = .ok [] := word_ok_iff.mpr (by rw [longer, List.append_nil])
        rw [same]
        subst behind
        exact later [] taken rest read holds
    | cons c more =>
        rw [word_cut wanted (c :: more) (List.cons_ne_nil c more) front longer]
        exact .inr rfl
  · rw [word_ok_iff.mpr longer]
    subst behind
    exact later more taken rest read holds

theorem utf8Size_of_hexValue {c : Char} {value : Nat} (known : hexValue? c = some value) :
    c.utf8Size = 1 := by
  have ascii {d : Char} (below : c ≤ d) (small : d.val ≤ 127) : c.utf8Size = 1 :=
    Char.utf8Size_eq_one_iff.mpr (UInt32.le_trans below small)
  unfold hexValue? at known
  split at known
  · rename_i range
    exact ascii range.2 (by decide)
  · split at known
    · rename_i range
      exact ascii range.2 (by decide)
    · split at known
      · rename_i range
        exact ascii range.2 (by decide)
      · cases known

theorem WrittenUnit.byteLength {unit : Nat} {digits : List Char}
    (written : WrittenUnit unit digits) : ∀ c ∈ digits, c.utf8Size = 1 := by
  cases written with
  | digits highest high low lowest =>
      simp [utf8Size_of_hexValue highest, utf8Size_of_hexValue high, utf8Size_of_hexValue low,
        utf8Size_of_hexValue lowest]

theorem byteLength_eq_length {text : List Char} (narrow : ∀ c ∈ text, c.utf8Size = 1) :
    Text.byteLength text = text.length := by
  induction text with
  | nil => rfl
  | cons c text ih =>
      obtain ⟨here, later⟩ := List.forall_mem_cons.mp narrow
      rw [Text.byteLength_cons, here, ih later, List.length_cons, Nat.add_comm]

theorem utf16Unit_short {text : List Char} (short : text.length < 4)
    (narrow : ∀ c ∈ text, c.utf8Size = 1) : utf16Unit text = .error .truncated := by
  unfold utf16Unit
  split
  · simp only [List.length_cons] at short
    omega
  · rw [if_pos (by rw [byteLength_eq_length narrow]; exact short)]

theorem utf16Unit_steady : Steady (fun _ => True) utf16Unit := by
  intro front back unit rest read _
  obtain ⟨digits, whole, written⟩ := utf16Unit_ok_iff.mp read
  have narrow := written.byteLength
  have count : digits.length = 4 := by cases written; rfl
  rcases List.append_eq_append_iff.mp whole with ⟨more, longer, behind⟩ | ⟨more, longer, behind⟩
  · rcases Nat.lt_or_ge front.length 4 with short | all
    · refine .inr (utf16Unit_short short fun c member => narrow c ?_)
      rw [longer]
      exact List.mem_append_left more member
    · have ended : more = [] := by
        rw [longer, List.length_append] at count
        exact List.eq_nil_of_length_eq_zero (by omega)
      rw [ended, List.nil_append] at behind
      rw [ended, List.append_nil] at longer
      exact .inl ⟨[], behind.symm, utf16Unit_ok_iff.mpr ⟨digits, by simp [longer], written⟩⟩
  · exact .inl ⟨more, behind, utf16Unit_ok_iff.mpr ⟨digits, longer, written⟩⟩

theorem unicodeEscape_steady : Steady (fun _ => True) unicodeEscape := by
  intro front back
  apply (utf16Unit_steady front back).bind _ fun _ _ _ _ _ _ => trivial
  intro unit left
  dsimp only
  split
  · exact .fault _ _
  · split
    · apply word_persists
      intro left
      apply (utf16Unit_steady left back).bind _ fun _ _ _ _ _ _ => trivial
      intro second left
      dsimp only
      split
      · exact .ok _ left
      · exact .fault _ _
    · exact .ok _ left

theorem escaped_steady : Steady (fun _ => True) escaped := by
  intro front back
  cases front with
  | nil => exact .truncated _
  | cons letter front =>
      by_cases unicode : letter = 'u'
      · rw [unicode]
        exact unicodeEscape_steady front back
      · rw [List.cons_append, escaped, escaped]
        · cases letterEscape? letter with
          | none => exact .fault _ _
          | some c => exact .ok c front
        · exact unicode
        · exact unicode

theorem character_steady : Steady (fun _ => True) character := by
  intro front back
  cases front with
  | nil => exact .truncated _
  | cons c front =>
      by_cases quote : c = '"'
      · rw [quote]
        exact .ok none front
      by_cases backslash : c = '\\'
      · rw [backslash]
        exact (escaped_steady front back).bind (fun c left => .ok (some c) left)
          fun _ _ _ _ _ _ => trivial
      · rw [List.cons_append, character, character]
        · split
          · exact .fault _ _
          · exact .ok (some c) front
        all_goals assumption

theorem characters_fault {text : List Char} {fault : StorageError}
    (failed : character text = .error fault) : characters text = .error fault := by
  rw [characters]
  split
  · rename_i other
    rw [failed] at other
    cases other
    rfl
  · rename_i ended
    rw [failed] at ended
    cases ended
  · rename_i here
    rw [failed] at here
    cases here

theorem characters_steady : Steady (fun _ => True) characters := by
  intro front back taken rest read _
  generalize whole : front ++ back = text at read
  fun_induction characters text generalizing front taken with
  | case1 text fault failed => cases read
  | case2 text left ended =>
      subst whole
      cases read
      rcases character_steady front back none rest ended trivial with
        ⟨left, rfl, same⟩ | truncated
      · exact .inl ⟨left, rfl, characters_ok_iff.mpr ⟨['"'], character_end_iff.mp same, .nil⟩⟩
      · exact .inr (characters_fault truncated)
  | case3 text c left here ih =>
      subst whole
      obtain ⟨⟨others, left'⟩, found, same⟩ := ok_of_bind read
      cases same
      rcases character_steady front back (some c) left here trivial with
        ⟨left, rfl, same⟩ | truncated
      · rw [characters_step same]
        rcases ih left others rfl found with ⟨left', rfl, same⟩ | truncated
        · rw [same]
          exact .inl ⟨left', rfl, rfl⟩
        · rw [truncated]
          exact .inr rfl
      · exact .inr (characters_fault truncated)

/-! ### Values -/

theorem scalar_steady : Steady Textual scalar := by
  intro front back
  cases front with
  | nil => exact .truncated _
  | cons c front =>
      intro taken rest read textual
      rw [List.cons_append] at read
      unfold scalar at read
      split at read
      · cases read
      · rename_i shape
        cases shape
        exact (characters_steady front back).bind (fun text left => .ok (string _) left)
          (fun _ _ _ _ _ _ => trivial) taken rest read textual
      · rename_i shape
        cases shape
        exact word_persists (fun left => .ok null left) taken rest read textual
      · rename_i shape
        cases shape
        exact word_persists (fun left => .ok (bool true) left) taken rest read textual
      · rename_i shape
        cases shape
        exact word_persists (fun left => .ok (bool false) left) taken rest read textual
      · split at read
        · obtain ⟨_, _, number, _⟩ := numeral_exact.sound read
          rw [number] at textual
          exact textual.elim
        · cases read

theorem laterElements_steady {reader : Reader Json} (steady : Steady Textual reader)
    (fuel fuel' : Nat) (front back : List Char) :
    Persists back Textuals (laterElements reader fuel (front ++ back))
      (laterElements reader fuel' front) := by
  -- Less fuel is no worse than less text, for both end as truncated.
  induction fuel' generalizing fuel front with
  | zero => exact .truncated _
  | succ fuel' ih =>
      cases fuel with
      | zero => exact .fault _ _
      | succ fuel =>
          intro taken rest read textual
          rw [laterElements] at read ⊢
          rcases skipSpace_append_cases front back with ended | ⟨c, more, begins, begins'⟩
          · rw [ended]
            exact .inr rfl
          · rw [begins'] at read
            rw [begins]
            split at read
            · rename_i shape
              cases shape
            · rename_i shape
              cases shape
              exact Persists.ok [] more taken rest read textual
            · rename_i shape
              cases shape
              exact (steady more back).consTaken (fun _ => ih fuel) (fun _ _ parts => parts)
                taken rest read textual
            · cases read

theorem elements_steady {first later : Reader Json} (steady : Steady Textual first)
    (steady' : Steady Textual later) : Steady Textuals (elements first later) := by
  intro front back
  rcases skipSpace_append_cases front back with ended | ⟨c, more, begins, begins'⟩
  · rw [elements, elements, ended]
    exact .truncated _
  · by_cases ends : c = ']'
    · subst ends
      rw [elements, elements, begins, begins']
      exact .ok [] more
    · rw [elements_begin begins ends, elements_begin begins' ends]
      exact (steady (c :: more) back).consTaken
        (fun _ left => laterElements_steady steady' _ _ left back) (fun _ _ parts => parts)

section

variable {rule : MemberRule} (steady : ∀ key, Steady Textual (rule.value key))

include steady

theorem member_steady (earlier : List String) :
    Steady (fun entry => Textual entry.2) (member rule earlier) := by
  intro front back
  rcases skipSpace_append_cases front back with ended | ⟨c, more, begins, begins'⟩
  · rw [member, member, ended]
    exact .truncated _
  · rw [member, member, begins, begins']
    by_cases quote : c = '"'
    · subst quote
      refine (characters_steady more back).bind (fun characters left => ?_)
        fun _ _ _ _ _ _ => trivial
      dsimp only
      split
      · rcases skipSpace_append_cases left back with ended | ⟨c, more, begins, begins'⟩
        · rw [ended]
          exact .truncated _
        · rw [begins, begins']
          by_cases colon : c = ':'
          · subst colon
            refine (steady _ more back).bind (fun json left => .ok _ left) ?_
            intro json left result rest same holds
            cases same
            exact holds
          · intro taken rest read _
            split at read
            · cases read
            · rename_i shape
              cases shape
              exact absurd rfl colon
            · cases read
      · exact .fault _ _
    · intro taken rest read _
      split at read
      · cases read
      · rename_i shape
        cases shape
        exact absurd rfl quote
      · cases read

theorem laterMembers_steady (fuel fuel' : Nat) (earlier : List String) (front back : List Char) :
    Persists back TextualMembers (laterMembers rule fuel earlier (front ++ back))
      (laterMembers rule fuel' earlier front) := by
  induction fuel' generalizing fuel earlier front with
  | zero => exact .truncated _
  | succ fuel' ih =>
      cases fuel with
      | zero => exact .fault _ _
      | succ fuel =>
          intro taken rest read textual
          rw [laterMembers] at read ⊢
          rcases skipSpace_append_cases front back with ended | ⟨c, more, begins, begins'⟩
          · rw [ended]
            exact .inr rfl
          · rw [begins'] at read
            rw [begins]
            split at read
            · rename_i shape
              cases shape
            · rename_i shape
              cases shape
              exact Persists.ok [] more taken rest read textual
            · rename_i shape
              cases shape
              exact (member_steady steady earlier more back).consTaken
                (fun entry => ih fuel (entry.1 :: earlier)) (fun _ _ parts => parts)
                taken rest read textual
            · cases read

theorem members_steady : Steady TextualMembers (members rule) := by
  intro front back
  rcases skipSpace_append_cases front back with ended | ⟨c, more, begins, begins'⟩
  · rw [members, members, ended]
    exact .truncated _
  · by_cases ends : c = '\x7d'
    · subst ends
      rw [members, members, begins, begins']
      exact .ok [] more
    · rw [members_begin rule begins ends, members_begin rule begins' ends]
      exact (member_steady steady [] (c :: more) back).consTaken
        (fun _ left => laterMembers_steady steady _ _ _ left back) (fun _ _ parts => parts)

end

theorem byBracket_steady {elements : Reader (List Json)} {members : Reader (List (String × Json))}
    (arrays : Steady Textuals elements) (objects : Steady TextualMembers members) :
    Steady Textual (byBracket elements members) := by
  intro front back
  rcases skipSpace_append_cases front back with ended | ⟨c, more, begins, begins'⟩
  · rw [byBracket, byBracket, ended]
    exact .truncated _
  · by_cases isArray : c = '['
    · subst isArray
      rw [byBracket, byBracket, begins, begins']
      refine (arrays more back).bind (fun entries left => .ok (array entries) left) ?_
      intro entries left result rest same holds
      cases same
      exact holds
    by_cases isObject : c = '\x7b'
    · subst isObject
      rw [byBracket, byBracket, begins, begins']
      refine (objects more back).bind (fun entries left => .ok (object entries) left) ?_
      intro entries left result rest same holds
      cases same
      exact holds
    · rw [byBracket_begin begins isArray isObject, byBracket_begin begins' isArray isObject]
      exact scalar_steady (c :: more) back

theorem value_steady (depth : Nat) : Steady Textual (value depth) := by
  induction depth with
  | zero =>
      rw [value_zero]
      exact byBracket_steady (fun _ _ => .fault _ _) (fun _ _ => .fault _ _)
  | succ depth ih =>
      rw [value_succ]
      exact byBracket_steady (elements_steady ih ih) (members_steady fun _ => ih)

end Json
end Permission
