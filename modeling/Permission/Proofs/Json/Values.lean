import Permission.Proofs.Json.Scalars

/-!
# Values are taken as they are written

The readers of arrays and objects take exactly what the grammar writes, if the readers of their
entries do.  From this the reader of values takes exactly the values whose brackets nest no deeper
than it is given, by induction on that depth.
-/

set_option autoImplicit false

namespace Permission
namespace Json

/-! ### Spaces -/

theorem skipSpace_split (text : List Char) :
    ∃ spaces, Spaces spaces ∧ text = spaces ++ skipSpace text :=
  ⟨text.takeWhile isSpace, List.all_eq_true.mp List.all_takeWhile,
    List.takeWhile_append_dropWhile.symm⟩

theorem skipSpace_append {spaces : List Char} (blank : Spaces spaces) (text : List Char) :
    skipSpace (spaces ++ text) = skipSpace text :=
  List.dropWhile_append_of_pos blank

theorem skipSpace_stop {spaces rest : List Char} {c : Char} (blank : Spaces spaces)
    (stops : isSpace c = false) : skipSpace (spaces ++ c :: rest) = c :: rest :=
  Text.dropWhile_stop blank stops

theorem Spaces.nil : Spaces [] :=
  List.forall_mem_nil _

theorem Spaces.append {first second : List Char} (before : Spaces first) (after : Spaces second) :
    Spaces (first ++ second) :=
  List.forall_mem_append.mpr ⟨before, after⟩

theorem Spaces.stops {spaces text : List Char} (blank : Spaces spaces)
    (behind : Stops isNumberPart text) : Stops isNumberPart (spaces ++ text) := by
  cases spaces with
  | nil => exact behind
  | cons c spaces =>
      have space := blank c List.mem_cons_self
      simp only [isSpace, Bool.or_eq_true, beq_iff_eq] at space
      rw [List.cons_append, stops_cons]
      rcases space with ((rfl | rfl) | rfl) | rfl <;> decide

theorem LaterEntries.stops {α : Type} {closing : Char} {entry : α → List Char → Prop}
    {others : List α} {text : List Char} (ends : isNumberPart closing = false)
    (written : LaterEntries closing entry others text) (rest : List Char) :
    Stops isNumberPart (text ++ rest) := by
  cases written with
  | nil blank =>
      rw [List.append_assoc]
      exact blank.stops (stops_cons.mpr ends)
  | cons blank =>
      rw [List.append_assoc]
      exact blank.stops (stops_cons.mpr (by decide))

theorem LaterEntries.length_lt {α : Type} {closing : Char} {entry : α → List Char → Prop}
    {others : List α} {text : List Char} (written : LaterEntries closing entry others text) :
    others.length < text.length := by
  induction written with
  | nil => simp
  | cons _ _ _ ih =>
      simp only [List.length_cons, List.length_append]
      omega

theorem WrittenScalar.begins {json : Json} {text : List Char} (written : WrittenScalar json text) :
    ∃ c later, text = c :: later ∧ isSpace c = false ∧ c ≠ ']' ∧ c ≠ '[' ∧ c ≠ '\x7b' := by
  cases written with
  | null => exact ⟨'n', _, rfl, by decide⟩
  | bool value => cases value <;> exact ⟨_, _, rfl, by decide⟩
  | number literal =>
      obtain ⟨c, later, rfl, first⟩ := literal.begins
      refine ⟨c, later, rfl, ?_⟩
      rcases first with rfl | digit
      · decide
      · have other (d : Char) (noDigit : d.isDigit = false) : c ≠ d := by
          rintro rfl
          rw [noDigit] at digit
          cases digit
        simp [isSpace, other]
  | string => exact ⟨'"', _, rfl, by decide⟩

theorem Written.begins {json : Json} {text : List Char} (written : Written json text) :
    ∃ c later, text = c :: later ∧ isSpace c = false ∧ c ≠ ']' := by
  cases written with
  | scalar plain =>
      obtain ⟨c, later, same, printed, noEnd, _⟩ := plain.begins
      exact ⟨c, later, same, printed, noEnd⟩
  | array => exact ⟨'[', _, rfl, by decide, by decide⟩
  | object => exact ⟨'\x7b', _, rfl, by decide, by decide⟩

theorem Spaced.spaces {json : Json} {spaces text : List Char} (blank : Spaces spaces)
    (written : Spaced json text) : Spaced json (spaces ++ text) := by
  cases written with
  | value blank' written =>
      rw [← List.append_assoc]
      exact .value (blank.append blank') written

/-! ### Entries -/

/-- The reader takes exactly the values that are fine, as they are written behind spaces. -/
def Accepts (fine : Json → Prop) (reader : Reader Json) : Prop :=
  Exact isNumberPart reader fun json text => fine json ∧ Spaced json text

theorem laterElements_exact {fine : Json → Prop} {reader : Reader Json}
    (accepts : Accepts fine reader) (fuel : Nat) :
    Exact isNumberPart (laterElements reader fuel) fun taken text =>
      taken.length < fuel ∧ (∀ json ∈ taken, fine json) ∧ LaterEntries ']' Spaced taken text := by
  constructor
  · induction fuel with
    | zero =>
        intro text taken rest read
        cases read
    | succ fuel ih =>
        intro text taken rest read
        obtain ⟨spaces, blank, whole⟩ := skipSpace_split text
        rw [laterElements] at read
        split at read
        · cases read
        · rename_i shape
          cases read
          rw [shape] at whole
          exact ⟨spaces ++ [']'], by simp [whole], Nat.succ_pos fuel, List.forall_mem_nil _,
            .nil blank⟩
        · rename_i shape
          rw [shape] at whole
          obtain ⟨⟨element, left⟩, found, read⟩ := ok_of_bind read
          obtain ⟨⟨others, left'⟩, found', read⟩ := ok_of_bind read
          cases read
          obtain ⟨front, rfl, first, here⟩ := accepts.sound found
          obtain ⟨front', rfl, enough, each, behind⟩ := ih found'
          refine ⟨spaces ++ ',' :: (front ++ front'), by simp [whole],
            Nat.succ_lt_succ enough, List.forall_mem_cons.mpr ⟨first, each⟩,
            .cons blank here behind⟩
        · cases read
  · rintro taken text rest ⟨enough, each, written⟩ _
    induction written generalizing fuel with
    | nil blank =>
        cases fuel with
        | zero => cases enough
        | succ fuel =>
            rw [List.append_assoc, laterElements, List.singleton_append,
              skipSpace_stop blank (by decide)]
            rfl
    | @cons first others spaces text later blank here behind ih =>
        cases fuel with
        | zero => cases enough
        | succ fuel =>
            obtain ⟨fineFirst, fineOthers⟩ := List.forall_mem_cons.mp each
            have taken := accepts.complete ⟨fineFirst, here⟩ (behind.stops (by decide) rest)
            have others := ih fuel (Nat.lt_of_succ_lt_succ enough) fineOthers
            rw [List.append_assoc, laterElements, List.cons_append,
              skipSpace_stop blank (by decide), List.append_assoc]
            simp [bind, Except.bind, pure, Except.pure, taken, others]

theorem elements_begin {first later : Reader Json} {text rest : List Char} {c : Char}
    (begins : skipSpace text = c :: rest) (noEnd : c ≠ ']') :
    elements first later text =
      consTaken (first (c :: rest)) fun _ left => laterElements later (left.length + 1) left := by
  rw [elements, begins]
  split
  · rename_i empty
    cases empty
  · rename_i ended
    cases ended
    exact absurd rfl noEnd
  · rfl

theorem elements_exact {fine fine' : Json → Prop} {first later : Reader Json}
    (accepts : Accepts fine first) (accepts' : Accepts fine' later) :
    Exact isNumberPart (elements first later) fun taken text =>
      (∀ json ∈ taken.head?, fine json) ∧ (∀ json ∈ taken.tail, fine' json) ∧
        Entries ']' Spaced taken text := by
  constructor
  · intro text taken rest read
    obtain ⟨spaces, blank, whole⟩ := skipSpace_split text
    rw [elements] at read
    split at read
    · cases read
    · rename_i shape
      cases read
      rw [shape] at whole
      exact ⟨spaces ++ [']'], by simp [whole], by simp, List.forall_mem_nil _, .nil blank⟩
    · obtain ⟨⟨element, left⟩, found, read⟩ := ok_of_bind read
      obtain ⟨⟨others, left'⟩, found', read⟩ := ok_of_bind read
      cases read
      obtain ⟨front, same, fineFirst, here⟩ := accepts.sound found
      obtain ⟨front', rfl, _, each, behind⟩ := (laterElements_exact accepts' _).sound found'
      refine ⟨spaces ++ front ++ front', ?_, by simpa using fineFirst, each,
        .cons (here.spaces blank) behind⟩
      rw [whole, same]
      simp
  · rintro taken text rest ⟨fineFirst, each, written⟩ ended
    cases written with
    | nil blank =>
        rw [List.append_assoc, elements, List.singleton_append, skipSpace_stop blank (by decide)]
        rfl
    | @cons element others text later here behind =>
        cases here with
        | @value _ spaces text blank written =>
            have stops := behind.stops (by decide) rest
            have alone : Spaced element ([] ++ text) := .value Spaces.nil written
            have taken := accepts.complete ⟨fineFirst element rfl, alone⟩ stops
            have enough : others.length < (later ++ rest).length + 1 := by
              have counted := behind.length_lt
              rw [List.length_append]
              omega
            have others := (laterElements_exact accepts' _).complete ⟨enough, each, behind⟩ ended
            obtain ⟨c, more, rfl, printed, noEnd⟩ := written.begins
            have begins : skipSpace (spaces ++ c :: more ++ later ++ rest) =
                c :: (more ++ (later ++ rest)) := by
              rw [List.append_assoc, List.append_assoc, List.cons_append]
              exact skipSpace_stop blank printed
            rw [elements_begin begins noEnd]
            change consTaken (first ([] ++ c :: more ++ (later ++ rest))) _ = _
            simp only [taken, consTaken, Except.bind, others]

theorem members_begin (rule : MemberRule) {text rest : List Char} {c : Char}
    (begins : skipSpace text = c :: rest) (noEnd : c ≠ '\x7d') :
    members rule text = consTaken (member rule [] (c :: rest)) fun entry left =>
      laterMembers rule (left.length + 1) [entry.1] left := by
  rw [members, begins]
  split
  · rename_i empty
    cases empty
  · rename_i ended
    cases ended
    exact absurd rfl noEnd
  · rfl

/-- No key is refused behind the keys before it. -/
def Admitted (rule : MemberRule) (earlier : List String) : List (String × Json) → Prop
  | [] => True
  | (key, _) :: others =>
    rule.admits earlier key = true ∧ Admitted rule (key :: earlier) others

theorem WrittenMember.spaces {entry : String × Json} {spaces text : List Char}
    (blank : Spaces spaces) (written : WrittenMember entry text) :
    WrittenMember entry (spaces ++ text) := by
  cases written with
  | entry blank' key blank'' value =>
      rw [← List.append_assoc]
      exact .entry (blank.append blank') key blank'' value

section

variable {rule : MemberRule} {fine : String → Json → Prop}
  (accepts : ∀ key, Accepts (fine key) (rule.value key))

include accepts

theorem member_exact (earlier : List String) :
    Exact isNumberPart (member rule earlier) fun taken text =>
      rule.admits earlier taken.1 = true ∧ fine taken.1 taken.2 ∧ WrittenMember taken text := by
  constructor
  · intro text taken rest read
    obtain ⟨spaces, blank, whole⟩ := skipSpace_split text
    rw [member] at read
    split at read
    · cases read
    · rename_i shape
      rw [shape] at whole
      obtain ⟨⟨characters, left⟩, found, read⟩ := ok_of_bind read
      obtain ⟨name, behind, key⟩ := characters_ok_iff.mp found
      dsimp only at read
      split at read
      · rename_i admitted
        obtain ⟨spaces', blank', between⟩ := skipSpace_split left
        split at read
        · cases read
        · rename_i shape
          rw [shape] at between
          obtain ⟨⟨json, left'⟩, found, read⟩ := ok_of_bind read
          cases read
          obtain ⟨front, last, holds, value⟩ := (accepts _).sound found
          refine ⟨spaces ++ '"' :: (name ++ (spaces' ++ ':' :: front)), ?_, admitted, holds,
            .entry blank key blank' value⟩
          rw [whole, behind, between, last]
          simp
        · cases read
      · cases read
    · cases read
  · rintro taken text rest ⟨admitted, holds, written⟩ stops
    cases written with
    | entry blank key blank' value =>
        have taken := (accepts _).complete ⟨holds, value⟩ stops
        simp only [List.append_assoc, List.cons_append]
        rw [member, skipSpace_stop blank (by decide)]
        simp [bind, Except.bind, pure, Except.pure, characters_written key, admitted,
          skipSpace_stop blank' (show isSpace ':' = false by decide), taken]

theorem laterMembers_exact (fuel : Nat) (earlier : List String) :
    Exact isNumberPart (laterMembers rule fuel earlier) fun taken text =>
      taken.length < fuel ∧ Admitted rule earlier taken ∧
        (∀ entry ∈ taken, fine entry.1 entry.2) ∧ LaterEntries '\x7d' WrittenMember taken text := by
  constructor
  · induction fuel generalizing earlier with
    | zero =>
        intro text taken rest read
        cases read
    | succ fuel ih =>
        intro text taken rest read
        obtain ⟨spaces, blank, whole⟩ := skipSpace_split text
        rw [laterMembers] at read
        split at read
        · cases read
        · rename_i shape
          cases read
          rw [shape] at whole
          exact ⟨spaces ++ ['\x7d'], by simp [whole], Nat.succ_pos fuel, trivial,
            List.forall_mem_nil _, .nil blank⟩
        · rename_i shape
          rw [shape] at whole
          obtain ⟨⟨entry, left⟩, found, read⟩ := ok_of_bind read
          obtain ⟨⟨others, left'⟩, found', read⟩ := ok_of_bind read
          cases read
          obtain ⟨front, rfl, admitted, first, here⟩ := (member_exact accepts earlier).sound found
          obtain ⟨front', rfl, enough, admitted', each, behind⟩ := ih _ found'
          refine ⟨spaces ++ ',' :: (front ++ front'), by simp [whole],
            Nat.succ_lt_succ enough, ⟨admitted, admitted'⟩, List.forall_mem_cons.mpr ⟨first, each⟩,
            .cons blank here behind⟩
        · cases read
  · rintro taken text rest ⟨enough, admitted, each, written⟩ _
    induction written generalizing fuel earlier with
    | nil blank =>
        cases fuel with
        | zero => cases enough
        | succ fuel =>
            rw [List.append_assoc, laterMembers, List.singleton_append,
              skipSpace_stop blank (by decide)]
            rfl
    | @cons first others spaces text later blank here behind ih =>
        cases fuel with
        | zero => cases enough
        | succ fuel =>
            obtain ⟨fineFirst, fineOthers⟩ := List.forall_mem_cons.mp each
            have taken := (member_exact accepts earlier).complete ⟨admitted.1, fineFirst, here⟩
              (behind.stops (by decide) rest)
            have others := ih fuel _ (Nat.lt_of_succ_lt_succ enough) admitted.2 fineOthers
            rw [List.append_assoc, laterMembers, List.cons_append,
              skipSpace_stop blank (by decide), List.append_assoc]
            simp [bind, Except.bind, pure, Except.pure, taken, others]

theorem members_exact : Exact isNumberPart (members rule) fun taken text =>
    Admitted rule [] taken ∧ (∀ entry ∈ taken, fine entry.1 entry.2) ∧
      Entries '\x7d' WrittenMember taken text := by
  constructor
  · intro text taken rest read
    obtain ⟨spaces, blank, whole⟩ := skipSpace_split text
    rw [members] at read
    split at read
    · cases read
    · rename_i shape
      cases read
      rw [shape] at whole
      exact ⟨spaces ++ ['\x7d'], by simp [whole], trivial, List.forall_mem_nil _, .nil blank⟩
    · obtain ⟨⟨entry, left⟩, found, read⟩ := ok_of_bind read
      obtain ⟨⟨others, left'⟩, found', read⟩ := ok_of_bind read
      cases read
      obtain ⟨front, same, admitted, first, here⟩ := (member_exact accepts []).sound found
      obtain ⟨front', rfl, _, admitted', each, behind⟩ :=
        (laterMembers_exact accepts _ _).sound found'
      refine ⟨spaces ++ front ++ front', ?_, ⟨admitted, admitted'⟩,
        List.forall_mem_cons.mpr ⟨first, each⟩, .cons (here.spaces blank) behind⟩
      rw [whole, same]
      simp
  · rintro taken text rest ⟨admitted, each, written⟩ ended
    cases written with
    | nil blank =>
        rw [List.append_assoc, members, List.singleton_append, skipSpace_stop blank (by decide)]
        rfl
    | @cons entry others text later here behind =>
        obtain ⟨fineFirst, fineOthers⟩ := List.forall_mem_cons.mp each
        have enough : others.length < (later ++ rest).length + 1 := by
          have counted := behind.length_lt
          rw [List.length_append]
          omega
        have others := (laterMembers_exact accepts _ _).complete
          ⟨enough, admitted.2, fineOthers, behind⟩ ended
        cases here with
        | @entry characters spaces name spaces' inner json blank key blank' value =>
            have alone : WrittenMember (String.ofList characters, json)
                ([] ++ '"' :: (name ++ (spaces' ++ ':' :: inner))) :=
              .entry Spaces.nil key blank' value
            have taken := (member_exact accepts []).complete ⟨admitted.1, fineFirst, alone⟩
              (behind.stops (by decide) rest)
            have begins : skipSpace (spaces ++ '"' :: (name ++ (spaces' ++ ':' :: inner)) ++
                later ++ rest) = '"' :: (name ++ (spaces' ++ ':' :: inner) ++ (later ++ rest)) := by
              rw [List.append_assoc, List.append_assoc, List.cons_append]
              exact skipSpace_stop blank (by decide)
            rw [members_begin rule begins (by decide)]
            simp only [List.nil_append, List.cons_append] at taken
            simp only [taken, consTaken, Except.bind, others]

end

/-! ### Values -/

theorem nestings_le_iff {elements : List Json} {depth : Nat} :
    nestings elements ≤ depth ↔ ∀ json ∈ elements, json.nesting ≤ depth := by
  induction elements with
  | nil => simp [nestings]
  | cons first others ih => rw [nestings_cons_le, List.forall_mem_cons, ih]

theorem memberNestings_le_iff {members : List (String × Json)} {depth : Nat} :
    memberNestings members ≤ depth ↔ ∀ entry ∈ members, entry.2.nesting ≤ depth := by
  induction members with
  | nil => simp [memberNestings]
  | cons first others ih => rw [memberNestings_cons_le, List.forall_mem_cons, ih]

theorem admitted_uniform (reader : Reader Json) (members : List (String × Json))
    (earlier : List String) : Admitted (.uniform reader) earlier members := by
  induction members generalizing earlier with
  | nil => trivial
  | cons first others ih => exact ⟨rfl, ih _⟩

theorem WrittenScalar.nesting {json : Json} {text : List Char}
    (written : WrittenScalar json text) : json.nesting = 0 := by
  cases written <;> rfl

/-- The entries of the value fulfil the given conditions. -/
def Holds (fine : List Json → Prop) (fine' : List (String × Json) → Prop) : Json → Prop
  | .array elements => fine elements
  | .object members => fine' members
  | _ => True

theorem WrittenScalar.holds {json : Json} {text : List Char} (written : WrittenScalar json text)
    (fine : List Json → Prop) (fine' : List (String × Json) → Prop) : json.Holds fine fine' := by
  cases written <;> trivial

theorem byBracket_exact {elements : Reader (List Json)} {members : Reader (List (String × Json))}
    {fine : List Json → Prop} {fine' : List (String × Json) → Prop}
    (arrays : Exact isNumberPart elements fun taken text =>
      fine taken ∧ Entries ']' Spaced taken text)
    (objects : Exact isNumberPart members fun taken text =>
      fine' taken ∧ Entries '\x7d' WrittenMember taken text) :
    Accepts (Holds fine fine') (byBracket elements members) := by
  constructor
  · intro text taken rest read
    obtain ⟨spaces, blank, whole⟩ := skipSpace_split text
    unfold byBracket at read
    split at read
    · rename_i shape
      obtain ⟨entries, found, rfl⟩ := wrapTaken_ok read
      obtain ⟨front, rfl, holds, inside⟩ := arrays.sound found
      rw [shape] at whole
      exact ⟨spaces ++ '[' :: front, by rw [whole, List.append_assoc]; rfl, holds,
        .value blank (.array inside)⟩
    · rename_i shape
      obtain ⟨entries, found, rfl⟩ := wrapTaken_ok read
      obtain ⟨front, rfl, holds, inside⟩ := objects.sound found
      rw [shape] at whole
      exact ⟨spaces ++ '\x7b' :: front, by rw [whole, List.append_assoc]; rfl, holds,
        .value blank (.object inside)⟩
    · obtain ⟨front, same, plain⟩ := scalar_exact.sound read
      exact ⟨spaces ++ front, by rw [whole, same, List.append_assoc], plain.holds fine fine',
        .value blank (.scalar plain)⟩
  · rintro taken text rest ⟨holds, written⟩ stops
    cases written with
    | @value _ spaces text blank written =>
        rw [List.append_assoc]
        cases written with
        | array inside =>
            rw [List.cons_append, byBracket, skipSpace_stop blank (by decide)]
            exact congrArg (wrapTaken array) (arrays.complete ⟨holds, inside⟩ stops)
        | object inside =>
            rw [List.cons_append, byBracket, skipSpace_stop blank (by decide)]
            exact congrArg (wrapTaken object) (objects.complete ⟨holds, inside⟩ stops)
        | scalar plain =>
            have taken := scalar_exact.complete plain stops
            obtain ⟨c, later, rfl, printed, _, noArray, noObject⟩ := plain.begins
            rw [List.cons_append] at taken ⊢
            have begins : skipSpace (spaces ++ c :: (later ++ rest)) = c :: (later ++ rest) :=
              skipSpace_stop blank printed
            rw [byBracket_begin begins noArray noObject, taken]

theorem refused_exact {α : Type} (fault : StorageError) (written : α → List Char → Prop) :
    Exact isNumberPart (fun _ => .error fault) fun taken text => False ∧ written taken text :=
  ⟨nofun, fun none => none.1.elim⟩

theorem holds_nesting {json : Json} {depth : Nat} :
    json.Holds (nestings · ≤ depth) (memberNestings · ≤ depth) ↔ json.nesting ≤ depth + 1 := by
  cases json with
  | array elements => exact nesting_array_le.symm
  | object members => exact nesting_object_le.symm
  | _ => simp [Holds, nesting]

theorem value_exact (depth : Nat) : Accepts (fun json => json.nesting ≤ depth) (value depth) := by
  induction depth with
  | zero =>
      have scalars := byBracket_exact (refused_exact .malformed _) (refused_exact .malformed _)
      rw [value_zero]
      refine scalars.of_iff fun json text => and_congr_left fun _ => ?_
      cases json <;> simp [Holds, nesting]
  | succ depth ih =>
      have uniform (key : String) : Accepts (fun json => json.nesting ≤ depth)
          ((MemberRule.uniform (value depth)).value key) := ih
      have arrays : Exact isNumberPart (elements (value depth) (value depth)) fun taken text =>
          nestings taken ≤ depth ∧ Entries ']' Spaced taken text := by
        refine (elements_exact ih ih).of_iff fun taken text => ?_
        rw [← and_assoc, nestings_le_iff]
        refine and_congr_left fun _ => ?_
        cases taken <;> simp
      have objects : Exact isNumberPart (members (.uniform (value depth))) fun taken text =>
          memberNestings taken ≤ depth ∧ Entries '\x7d' WrittenMember taken text := by
        refine (members_exact uniform).of_iff fun taken text => ?_
        rw [memberNestings_le_iff]
        exact ⟨fun whole => whole.2, fun whole => ⟨admitted_uniform _ taken [], whole⟩⟩
      rw [value_succ]
      exact (byBracket_exact arrays objects).of_iff fun json text =>
        and_congr_left fun _ => holds_nesting

end Json
end Permission
