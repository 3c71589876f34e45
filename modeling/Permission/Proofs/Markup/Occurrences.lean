import Permission.Proofs.Markup.Directive

/-!
# Occurrences of a directive

An occurrence is a part of a text: a directive with the blank before it, or one at the very start.
A scan from left to right takes at each time the first occurrence behind the one before.  Main
statement: `Markup.ofText_leftmost`, splitting a text at the values of a directive is that scan.
-/

set_option autoImplicit false

namespace Permission
namespace Markup

structure Occurrence where
  start : Nat
  lead : List Char
  opening : List Char
  value : List Char

namespace Occurrence

def openingStart (occurrence : Occurrence) : Nat :=
  occurrence.start + occurrence.lead.length

def valueStart (occurrence : Occurrence) : Nat :=
  occurrence.openingStart + occurrence.opening.length

def stop (occurrence : Occurrence) : Nat :=
  occurrence.valueStart + occurrence.value.length + 1

end Occurrence

/-- The text has the occurrence at its start: nothing or one blank, the opening of a directive, a
value without double quotes, and a double quote. -/
structure Occurs (name text : List Char) (occurrence : Occurrence) : Prop where
  lead : (occurrence.lead = [] ∧ occurrence.start = 0) ∨
    ∃ c, Text.isBlank c = true ∧ occurrence.lead = [c]
  opening : Opening name occurrence.opening
  value : '"' ∉ occurrence.value
  stands : ∃ before after : List Char, before.length = occurrence.start ∧
    text = before ++ (occurrence.lead ++ (occurrence.opening ++ (occurrence.value ++ '"' :: after)))

/-- The occurrences in a text from a position on, each the first one behind the one before. -/
def Leftmost (name text : List Char) (position : Nat) : List Occurrence → Prop
  | [] => ∀ other, Occurs name text other → other.start < position
  | first :: later =>
    Occurs name text first ∧ position ≤ first.start ∧
      (∀ other, Occurs name text other → position ≤ other.start → first.start ≤ other.start) ∧
      Leftmost name text first.stop later

/-! ### One scan only -/

theorem Opening.begins {name opening : List Char} (opens : Opening name opening) :
    ∃ rest, opening = 'v' :: rest := by
  obtain ⟨before, after, _, _, rfl⟩ := opens
  exact ⟨_, rfl⟩

theorem Occurs.directive {name text : List Char} {occurrence : Occurrence}
    (occurs : Occurs name text occurrence) (after : List Char) :
    directive? name (occurrence.opening ++ (occurrence.value ++ '"' :: after)) =
      some { opening := occurrence.opening, value := occurrence.value, closed := '"' :: after } :=
  directive?_eq_some_iff.mpr
    ⟨⟨occurs.opening, occurs.value, after, rfl⟩, (List.append_assoc _ _ _).symm⟩

theorem Occurs.ext {name text : List Char} {left right : Occurrence}
    (occursLeft : Occurs name text left) (occursRight : Occurs name text right)
    (same : left.start = right.start) : left = right := by
  obtain ⟨before, after, length, whole⟩ := occursLeft.stands
  obtain ⟨before', after', length', whole'⟩ := occursRight.stands
  have parts := List.append_inj (whole.symm.trans whole')
    (length.trans (same.trans length'.symm))
  obtain ⟨restLeft, beginsLeft⟩ := occursLeft.opening.begins
  obtain ⟨restRight, beginsRight⟩ := occursRight.opening.begins
  have leads : left.lead = right.lead := by
    have rest := parts.2
    rw [beginsLeft, beginsRight] at rest
    rcases occursLeft.lead with ⟨none, _⟩ | ⟨c, blank, one⟩ <;>
      rcases occursRight.lead with ⟨none', _⟩ | ⟨c', blank', one'⟩
    · rw [none, none']
    · rw [none, one'] at rest
      rw [← (List.cons.inj rest).1] at blank'
      exact absurd blank' (by decide)
    · rw [one, none'] at rest
      rw [(List.cons.inj rest).1] at blank
      exact absurd blank (by decide)
    · rw [one, one'] at rest ⊢
      rw [(List.cons.inj rest).1]
  rw [leads] at parts
  have directives := occursLeft.directive after
  rw [List.append_cancel_left parts.2, occursRight.directive after'] at directives
  cases left
  cases right
  cases directives
  simp_all

theorem Leftmost.unique {name text : List Char} {position : Nat} {left right : List Occurrence}
    (scanLeft : Leftmost name text position left)
    (scanRight : Leftmost name text position right) : left = right := by
  induction left generalizing position right with
  | nil =>
      cases right with
      | nil => rfl
      | cons first later =>
          obtain ⟨occurs, reached, _⟩ := scanRight
          exact absurd reached (Nat.not_le_of_lt (scanLeft first occurs))
  | cons first later ih =>
      obtain ⟨occurs, reached, least, rest⟩ := scanLeft
      cases right with
      | nil => exact absurd reached (Nat.not_le_of_lt (scanRight first occurs))
      | cons first' later' =>
          obtain ⟨occurs', reached', least', rest'⟩ := scanRight
          have same : first = first' := occurs.ext occurs'
            (Nat.le_antisymm (least first' occurs' reached') (least' first occurs reached))
          subst same
          rw [ih rest rest']

/-! ### Splitting is a scan -/

/-- Where a scan stands between two parts of a text: no occurrence from the position on has its
opening in the first part, and one may open the second part only at a boundary. -/
structure Scanning (name whole before : List Char) (boundary : Bool) (position : Nat) : Prop where
  ahead : ∀ other, Occurs name whole other → position ≤ other.start →
    before.length < other.openingStart ∨ (before.length = other.openingStart ∧ boundary = true)
  lead : boundary = true → (before = [] ∧ position = 0) ∨
    ∃ front c, before = front ++ [c] ∧ Text.isBlank c = true ∧ position ≤ front.length
  reached : position ≤ before.length

theorem Scanning.start (name whole : List Char) : Scanning name whole [] true 0 where
  ahead := by
    intro other _ _
    rcases Nat.eq_zero_or_pos other.openingStart with zero | positive
    · exact .inr ⟨zero.symm, rfl⟩
    · exact .inl positive
  lead := fun _ => .inl ⟨rfl, rfl⟩
  reached := Nat.le_refl 0

theorem Scanning.skip {name whole before rest : List Char} {boundary : Bool} {position : Nat}
    {c : Char} (scanning : Scanning name whole before boundary position)
    (split : whole = before ++ c :: rest) (absent : beginning? name boundary (c :: rest) = none) :
    Scanning name whole (before ++ [c]) (Text.isBlank c) position where
  ahead := by
    intro other occurs behind
    obtain ⟨front, after, length, whole'⟩ := occurs.stands
    rw [List.length_append, List.length_singleton]
    rcases scanning.ahead other occurs behind with later | ⟨here, atBoundary⟩
    · rcases Nat.lt_or_eq_of_le later with farther | next
      · exact .inl farther
      · refine .inr ⟨next, ?_⟩
        rcases occurs.lead with ⟨none, zero⟩ | ⟨d, blank, one⟩
        · rw [Occurrence.openingStart, none, zero] at next
          cases next
        · rw [Occurrence.openingStart, one, List.length_singleton] at next
          rw [one] at whole'
          have parts := List.append_inj (split.symm.trans whole') (by omega)
          rw [(List.cons.inj parts.2).1]
          exact blank
    · -- An opening here would have been found.
      rw [← List.append_assoc] at whole'
      have parts := List.append_inj (split.symm.trans whole') (by
        rw [List.length_append, length, here]
        rfl)
      rw [atBoundary, beginning?, if_pos rfl, parts.2, occurs.directive] at absent
      cases absent
  lead := fun blank => .inr ⟨before, c, rfl, blank, scanning.reached⟩
  reached := by
    rw [List.length_append]
    exact Nat.le_add_right_of_le scanning.reached

theorem Scanning.behind (name whole before : List Char) (c : Char) :
    Scanning name whole (before ++ [c]) false (before ++ [c]).length where
  ahead := by
    intro other occurs reached
    rw [List.length_append, List.length_singleton] at reached ⊢
    left
    rcases occurs.lead with ⟨_, zero⟩ | ⟨d, _, one⟩
    · omega
    · rw [Occurrence.openingStart, one, List.length_singleton]
      omega
  lead := nofun
  reached := Nat.le_refl _

theorem Scanning.occurs {name whole before rest : List Char} {position : Nat}
    {found : Directive} (scanning : Scanning name whole before true position)
    (sound : found.Sound name) (closed : found.closed = '"' :: rest)
    (split : whole = before ++ (found.opening ++ found.value ++ found.closed)) :
    ∃ occurrence, Occurs name whole occurrence ∧ position ≤ occurrence.start ∧
      (∀ other, Occurs name whole other → position ≤ other.start →
        occurrence.start ≤ other.start) ∧
      occurrence.openingStart = before.length ∧ occurrence.opening = found.opening ∧
      occurrence.value = found.value := by
  rw [closed, List.append_assoc] at split
  rcases scanning.lead rfl with ⟨rfl, zero⟩ | ⟨front, c, rfl, blank, reached⟩
  · refine ⟨{ start := 0, lead := [], opening := found.opening, value := found.value }, ?_,
      Nat.le_of_eq zero, fun _ _ _ => Nat.zero_le _, rfl, rfl, rfl⟩
    exact ⟨.inl ⟨rfl, rfl⟩, sound.opening, sound.value, [], rest, rfl, split⟩
  · refine ⟨{ start := front.length, lead := [c], opening := found.opening, value := found.value },
      ?_, reached, ?_, (List.length_append).symm, rfl, rfl⟩
    · refine ⟨.inr ⟨c, blank, rfl⟩, sound.opening, sound.value, front, rest, rfl, ?_⟩
      rw [split, List.append_assoc]
    · intro other occurs behind
      have ahead := scanning.ahead other occurs behind
      have short : other.lead.length ≤ 1 := by
        rcases occurs.lead with ⟨none, _⟩ | ⟨_, _, one⟩
        · rw [none]
          exact Nat.zero_le 1
        · rw [one]
          exact Nat.le_refl 1
      rw [List.length_append, List.length_singleton, Occurrence.openingStart] at ahead
      change front.length ≤ other.start
      omega

def placed (position : Nat) : List (List Char × List Char) → List (Nat × List Char)
  | [] => []
  | (value, following) :: later =>
    (position, value) :: placed (position + value.length + following.length) later

theorem Scanning.finds {name whole before text : List Char} {boundary : Bool} {position : Nat}
    (scanning : Scanning name whole before boundary position) (split : whole = before ++ text) :
    ∃ occurrences, Leftmost name whole position occurrences ∧
      occurrences.map (fun occurrence => (occurrence.valueStart, occurrence.value)) =
        placed (before.length + (Markup.split name boundary text).head.length)
          (Markup.split name boundary text).values := by
  induction size : text.length using Nat.strongRecOn
    generalizing before text boundary position with
  | ind bound ih =>
      cases begins : beginning? name boundary text with
      | some found =>
          obtain ⟨rfl, present⟩ := beginning?_eq_some begins
          obtain ⟨sound, whole'⟩ := directive?_eq_some_iff.mp present
          obtain ⟨rest, closed⟩ := sound.closed
          obtain ⟨occurrence, occurs, reached, least, opens, opening, value⟩ :=
            scanning.occurs sound closed (whole' ▸ split)
          let front := before ++ found.opening ++ found.value
          have splitLater : whole = (front ++ ['"']) ++ rest := by
            rw [split, whole', closed]
            simp [front]
          have stop : occurrence.stop = (front ++ ['"']).length := by
            rw [Occurrence.stop, Occurrence.valueStart, opens, opening, value]
            simp only [front, List.length_append, List.length_singleton]
          have shorter : rest.length < bound := by
            rw [← size, whole', closed]
            simp only [List.length_append, List.length_cons]
            omega
          obtain ⟨later, scan, places⟩ :=
            ih rest.length shorter (Scanning.behind name whole front '"') splitLater rfl
          refine ⟨occurrence :: later, ⟨occurs, reached, least, stop ▸ scan⟩, ?_⟩
          rw [split_found begins, closed, split_false_cons, List.map_cons, places, value,
            Occurrence.valueStart, opens, opening]
          change _ :: _ = (_, _) :: placed (before.length + found.opening.length +
            found.value.length + ('"' :: (Markup.split name false rest).head).length) _
          congr 2
          simp only [front, List.length_append, List.length_cons, List.length_nil]
          omega
      | none =>
          cases text with
          | nil =>
              refine ⟨[], ?_, ?_⟩
              · intro other occurs
                obtain ⟨front, after, length, whole'⟩ := occurs.stands
                have lengths := congrArg List.length (split.symm.trans whole')
                simp only [List.length_append, List.length_cons, List.length_nil] at lengths
                apply Nat.lt_of_not_le
                intro behind
                have ahead := scanning.ahead other occurs behind
                rw [Occurrence.openingStart] at ahead
                omega
              · rw [split_nil]
                rfl
          | cons c rest =>
              have splitLater : whole = (before ++ [c]) ++ rest := by
                rw [split, List.append_assoc]
                rfl
              have shorter : rest.length < bound := by
                rw [← size]
                exact Nat.lt_succ_self _
              obtain ⟨occurrences, scan, places⟩ :=
                ih rest.length shorter (scanning.skip split begins) splitLater rfl
              refine ⟨occurrences, scan, ?_⟩
              rw [places, split_cons begins]
              change placed _ _ =
                placed
                  (before.length + (c :: (Markup.split name (Text.isBlank c) rest).head).length) _
              congr 1
              simp only [List.length_append, List.length_cons, List.length_nil]
              omega

/-- Splitting a text at the values of a directive finds the values of the only scan of it. -/
theorem ofText_leftmost (name text : List Char) :
    ∃ occurrences, (∀ other, Leftmost name text 0 other ↔ other = occurrences) ∧
      occurrences.map (fun occurrence => (occurrence.valueStart, occurrence.value)) =
        placed (ofText name text).head.length (ofText name text).values := by
  obtain ⟨occurrences, scan, places⟩ :=
    (Scanning.start name text).finds (List.nil_append text).symm
  refine ⟨occurrences, ?_, ?_⟩
  · intro other
    constructor
    · intro another
      exact another.unique scan
    · rintro rfl
      exact scan
  · rw [places]
    simp only [ofText, List.length_nil, Nat.zero_add]

end Markup
end Permission
