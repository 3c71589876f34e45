import Permission.Markup
import Permission.Proofs.Text

/-!
# Where a directive stands

A directive is found at the front of a text exactly when the text is an opening, a value without
double quotes, and what follows from the closing quote on.  Whether one is found does not depend
on the text after a quote that stands behind the name: so the values of a marked-up text can be
exchanged, and splitting it again gives the same pieces around the new values.  Main statement:
`Markup.split_respell`.
-/

set_option autoImplicit false

namespace Permission
namespace Text

theorem after?_append (beginning text : List Char) :
    after? beginning (beginning ++ text) = some text := by
  induction beginning with
  | nil => rfl
  | cons c beginning ih => rw [List.cons_append, after?, if_pos rfl, ih]

end Text

namespace Markup

/-- The characters of a directive up to the quote that opens its value. -/
def Opening (name opening : List Char) : Prop :=
  ∃ before after, (∀ c ∈ before, Text.isBlank c = true) ∧ (∀ c ∈ after, Text.isBlank c = true) ∧
    opening = 'v' :: '-' :: name ++ before ++ '=' :: after ++ ['"']

structure Directive.Sound (name : List Char) (directive : Directive) : Prop where
  opening : Opening name directive.opening
  value : '"' ∉ directive.value
  closed : ∃ rest, directive.closed = '"' :: rest

theorem quote_stops : (fun c => decide (c ≠ '"')) '"' = false := by decide

theorem not_quote_of_not_mem {value : List Char} (absent : '"' ∉ value) :
    ∀ c ∈ value, (fun c => decide (c ≠ '"')) c = true := by
  intro c member
  exact decide_eq_true fun same => absent (same ▸ member)

theorem directive?_sound {name text : List Char} {found : Directive}
    (present : directive? name text = some found) : found.Sound name := by
  unfold directive? at present
  simp only [bind, Option.bind_eq_some_iff] at present
  obtain ⟨named, _, valued, _, value, _, built⟩ := present
  split at built
  · cases built
  · rename_i remains
    cases built
    refine ⟨⟨_, _, Text.isBlank_of_mem_leadingBlanks, Text.isBlank_of_mem_leadingBlanks, rfl⟩,
      ?_, ?_⟩
    · intro member
      exact absurd (List.all_eq_true.mp List.all_takeWhile _ member) (by decide)
    · cases closed : value.dropWhile (· ≠ '"') with
      | nil =>
          rw [closed] at remains
          exact absurd rfl remains
      | cons c rest =>
          have stops := List.head?_dropWhile_not (· ≠ '"') value
          rw [closed] at stops
          have quote : c = '"' := by simpa using stops
          exact ⟨rest, by rw [quote]⟩

theorem directive?_eq_some_iff {name text : List Char} {found : Directive} :
    directive? name text = some found ↔
      found.Sound name ∧ text = found.opening ++ found.value ++ found.closed := by
  constructor
  · intro present
    exact ⟨directive?_sound present, directive_flatten present⟩
  · rintro ⟨⟨⟨before, after, blankBefore, blankAfter, opening⟩, noQuote, rest, closed⟩, whole⟩
    -- What is left to read after the name, after the sign and after the opening quote.
    let value := found.value ++ '"' :: rest
    let valued := after ++ '"' :: value
    let named := before ++ '=' :: valued
    have whole : text = ('v' :: '-' :: name) ++ named := by
      rw [whole, opening, closed]
      simp [named, valued, value]
    have takesName : Text.after? ('v' :: '-' :: name) text = some named := by
      rw [whole]
      exact Text.after?_append _ _
    have takesSign : Text.after? ['='] (Text.trimStart named) = some valued := by
      rw [Text.trimStart_append blankBefore (by decide)]
      exact Text.after?_append ['='] valued
    have takesQuote : Text.after? ['"'] (Text.trimStart valued) = some value := by
      rw [Text.trimStart_append blankAfter (by decide)]
      exact Text.after?_append ['"'] value
    have taken : value.takeWhile (· ≠ '"') = found.value :=
      Text.takeWhile_stop (not_quote_of_not_mem noQuote) quote_stops
    have left : value.dropWhile (· ≠ '"') = '"' :: rest :=
      Text.dropWhile_stop (not_quote_of_not_mem noQuote) quote_stops
    simp only [directive?, takesName, takesSign, takesQuote, bind, Option.bind, taken, left,
      List.isEmpty_cons, Bool.false_eq_true, if_false, Option.some.injEq]
    rw [Text.leadingBlanks_append blankBefore (by decide),
      Text.leadingBlanks_append blankAfter (by decide), ← opening, ← closed]

theorem directive?_of_opening {name opening tail : List Char} (opens : Opening name opening)
    (closes : '"' ∈ tail) : ∃ found, directive? name (opening ++ tail) = some found := by
  obtain ⟨value, rest, whole, noQuote⟩ := List.eq_append_cons_of_mem closes
  refine ⟨{ opening, value, closed := '"' :: rest }, directive?_eq_some_iff.mpr ⟨?_, ?_⟩⟩
  · exact ⟨opens, noQuote, rest, rfl⟩
  · rw [whole, List.append_assoc]

/-- Behind a quote that does not belong to the name, the text may change: what was no directive
does not become one. -/
theorem directive?_unmade {name front text text' : List Char}
    (long : name.length + 2 ≤ front.length) (closes : '"' ∈ text)
    (absent : directive? name (front ++ '"' :: text) = none) :
    directive? name (front ++ '"' :: text') = none := by
  cases made : directive? name (front ++ '"' :: text') with
  | none => rfl
  | some found =>
      obtain ⟨⟨⟨before, after, blankBefore, blankAfter, opening⟩, _, _⟩, whole⟩ :=
        directive?_eq_some_iff.mp made
      let sign := before ++ '=' :: after
      have noQuote : '"' ∉ sign := by
        intro member
        rcases List.mem_append.mp member with inBefore | inAfter
        · exact absurd (blankBefore _ inBefore) (by decide)
        · rcases List.mem_cons.mp inAfter with same | inAfter
          · exact absurd same (by decide)
          · exact absurd (blankAfter _ inAfter) (by decide)
      have opens (tail : List Char) : ('v' :: '-' :: name) ++ (sign ++ '"' :: tail) =
          found.opening ++ tail := by
        rw [opening]
        simp [sign]
      rw [List.append_assoc, ← opens] at whole
      -- The name ends before the quote, so the quote comes in the sign's place or later.
      have named : ('v' :: '-' :: name) <+: front := by
        have within : front <+: front ++ '"' :: text' := List.prefix_append _ _
        refine List.prefix_of_prefix_length_le ?_ within ?_
        · rw [whole]
          exact List.prefix_append _ _
        · simp only [List.length_cons]
          omega
      obtain ⟨inner, split⟩ := named
      rw [← split, List.append_assoc] at whole absent
      have later : ∃ tail, inner ++ '"' :: text = sign ++ '"' :: tail ∧ '"' ∈ tail := by
        rcases Text.append_cons_eq_append_cons noQuote (List.append_cancel_left whole) with
          ⟨same, _⟩ | ⟨between, same, _⟩
        · exact ⟨text, by rw [same], closes⟩
        · exact ⟨between ++ '"' :: text, by rw [same]; simp, by simp⟩
      obtain ⟨tail, same, closesTail⟩ := later
      rw [same, opens] at absent
      obtain ⟨other, present⟩ := directive?_of_opening
        ⟨before, after, blankBefore, blankAfter, opening⟩ closesTail
      rw [present] at absent
      cases absent

/-! ### The pieces of a text -/

def joined (values : List (List Char × List Char)) : List Char :=
  values.flatMap fun (value, following) => value ++ following

theorem flatten_eq (markup : Markup) : markup.flatten = markup.head ++ joined markup.values := rfl

def beginning? (name : List Char) (boundary : Bool) (text : List Char) : Option Directive :=
  if boundary then directive? name text else none

theorem split_found {name text : List Char} {boundary : Bool} {found : Directive}
    (present : beginning? name boundary text = some found) :
    split name boundary text =
      { head := found.opening
        values := (found.value, (split name false found.closed).head) ::
          (split name false found.closed).values } := by
  rw [split]
  split
  · rename_i directive same
    have equal := same.symm.trans present
    cases equal
    rfl
  · rename_i same
    have equal := same.symm.trans present
    cases equal

theorem split_cons {name rest : List Char} {boundary : Bool} {c : Char}
    (absent : beginning? name boundary (c :: rest) = none) :
    split name boundary (c :: rest) = (split name (Text.isBlank c) rest).prepend [c] := by
  rw [split]
  split
  · rename_i directive same
    have equal := same.symm.trans absent
    cases equal
  · rfl

theorem split_nil (name : List Char) (boundary : Bool) :
    split name boundary [] = { head := [], values := [] } := by
  have absent : beginning? name boundary [] = none := by
    cases boundary <;> rfl
  rw [split]
  split
  · rename_i directive same
    have equal := same.symm.trans absent
    cases equal
  · rfl

theorem split_false_cons (name rest : List Char) (c : Char) :
    split name false (c :: rest) = (split name (Text.isBlank c) rest).prepend [c] :=
  split_cons rfl

theorem beginning?_eq_some {name text : List Char} {boundary : Bool} {found : Directive}
    (present : beginning? name boundary text = some found) :
    boundary = true ∧ directive? name text = some found := by
  cases boundary with
  | false => cases present
  | true => exact ⟨rfl, present⟩

/-- What a split text looks like: before a first value stands a quote behind a name, values hold no
double quotes, and one follows each of them. -/
structure Divided (name : List Char) (markup : Markup) : Prop where
  head : markup.values ≠ [] →
    ∃ front, markup.head = front ++ ['"'] ∧ name.length + 2 ≤ front.length
  value : ∀ entry ∈ markup.values, '"' ∉ entry.1
  following : ∀ entry ∈ markup.values, ∃ rest, entry.2 = '"' :: rest

theorem split_divided (name : List Char) (boundary : Bool) (text : List Char) :
    Divided name (split name boundary text) := by
  fun_induction split name boundary text with
  | case1 boundary text directive found later ih =>
      obtain ⟨⟨⟨before, after, _, _, opening⟩, noQuote, rest, closed⟩, _⟩ :=
        directive?_eq_some_iff.mp (beginning?_eq_some found).2
      have opensLater : ∃ rest, later.head = '"' :: rest := by
        refine ⟨(split name (Text.isBlank '"') rest).head, ?_⟩
        change (split name false directive.closed).head = _
        rw [closed, split_false_cons]
        rfl
      constructor
      · intro _
        refine ⟨'v' :: '-' :: name ++ before ++ '=' :: after, opening, ?_⟩
        simp only [List.length_append, List.length_cons]
        omega
      · intro entry member
        rcases List.mem_cons.mp member with rfl | member
        · exact noQuote
        · exact ih.value entry member
      · intro entry member
        rcases List.mem_cons.mp member with rfl | member
        · exact opensLater
        · exact ih.following entry member
  | case2 =>
      constructor
      · intro filled
        exact absurd rfl filled
      · intro entry member
        cases member
      · intro entry member
        cases member
  | case3 boundary c rest absent ih =>
      refine ⟨?_, ih.value, ih.following⟩
      intro filled
      obtain ⟨front, head, long⟩ := ih.head filled
      refine ⟨c :: front, ?_, Nat.le_succ_of_le long⟩
      change [c] ++ (split name (Text.isBlank c) rest).head = _
      rw [head]
      rfl

/-! ### Exchanged values -/

def respell (spell : List Char → List Char) (markup : Markup) : Markup :=
  { markup with values := markup.values.map fun (value, following) => (spell value, following) }

theorem respell_values (spell : List Char → List Char) (markup : Markup) :
    (markup.respell spell).values =
      markup.values.map fun entry => (spell entry.1, entry.2) := rfl

theorem flatten_prepend (text : List Char) (markup : Markup) :
    (markup.prepend text).flatten = text ++ markup.flatten := by
  simp only [flatten_eq, prepend, List.append_assoc]

theorem respell_prepend (spell : List Char → List Char) (text : List Char) (markup : Markup) :
    (markup.prepend text).respell spell = (markup.respell spell).prepend text := rfl

theorem quote_mem_joined {name : List Char} {markup : Markup}
    (divided : Divided name markup) (filled : markup.values ≠ []) :
    '"' ∈ joined markup.values := by
  obtain ⟨entry, others, values⟩ := List.exists_cons_of_ne_nil filled
  have first : entry ∈ markup.values := by
    rw [values]
    exact List.mem_cons_self
  obtain ⟨rest, following⟩ := divided.following entry first
  refine List.mem_flatMap.mpr ⟨entry, first, ?_⟩
  change '"' ∈ entry.1 ++ entry.2
  rw [following]
  exact List.mem_append_right _ List.mem_cons_self

/-- Where a split text has no directive, it has none with other values either. -/
theorem beginning?_respell {name rest : List Char} {boundary inside : Bool} {c : Char}
    (spell : List Char → List Char)
    (absent : beginning? name boundary (c :: rest) = none) :
    beginning? name boundary (c :: ((split name inside rest).respell spell).flatten) = none := by
  cases boundary with
  | false => rfl
  | true =>
      have whole := flatten_split name inside rest
      have divided := split_divided name inside rest
      cases split : split name inside rest with
      | mk head values =>
          rw [split] at whole divided
          cases values with
          | nil =>
              change directive? name (c :: (head ++ [])) = none
              rw [show head ++ [] = rest from whole]
              exact absent
          | cons first later =>
              have filled : first :: later ≠ [] := List.cons_ne_nil _ _
              obtain ⟨front, shape, long⟩ := divided.head filled
              have closes := quote_mem_joined divided filled
              have head : head = front ++ ['"'] := shape
              rw [← whole, flatten_eq, head, List.append_assoc] at absent
              rw [respell, flatten_eq, head, List.append_assoc]
              have longer : name.length + 2 ≤ (c :: front).length := Nat.le_succ_of_le long
              exact directive?_unmade longer closes absent

/-- A text whose values are exchanged for others without double quotes is split as before. -/
theorem split_respell {spell : List Char → List Char}
    (keeps : ∀ value, '"' ∉ value → '"' ∉ spell value) (name : List Char) (boundary : Bool)
    (text : List Char) :
    split name boundary ((split name boundary text).respell spell).flatten =
      (split name boundary text).respell spell := by
  fun_induction split name boundary text with
  | case1 boundary text directive found later ih =>
      obtain ⟨atBoundary, present⟩ := beginning?_eq_some found
      obtain ⟨⟨opens, noQuote, rest, closed⟩, _⟩ := directive?_eq_some_iff.mp present
      let closedAgain := (later.respell spell).flatten
      let respelled : Directive :=
        { opening := directive.opening, value := spell directive.value, closed := closedAgain }
      have closes : ∃ rest, closedAgain = '"' :: rest := by
        refine ⟨((split name (Text.isBlank '"') rest).respell spell).flatten, ?_⟩
        change ((split name false directive.closed).respell spell).flatten = _
        rw [closed, split_false_cons, respell_prepend, flatten_prepend]
        rfl
      have presentAgain : beginning? name boundary
          (directive.opening ++ spell directive.value ++ closedAgain) = some respelled := by
        rw [atBoundary]
        exact directive?_eq_some_iff.mpr ⟨⟨opens, keeps _ noQuote, closes⟩, rfl⟩
      calc split name boundary (directive.opening ++
            (spell directive.value ++ later.head ++ joined (later.respell spell).values))
          = split name boundary (directive.opening ++ spell directive.value ++ closedAgain) := by
            simp only [closedAgain, flatten_eq, List.append_assoc]
            rfl
        _ = { head := directive.opening
              values := (spell directive.value, (split name false closedAgain).head) ::
                (split name false closedAgain).values } := split_found presentAgain
        _ = _ := by
            rw [ih]
            rfl
  | case2 boundary => exact split_nil name boundary
  | case3 boundary c rest absent ih =>
      rw [respell_prepend, flatten_prepend, List.singleton_append,
        split_cons (beginning?_respell spell absent), ih]

end Markup
end Permission
