import Permission.Proofs.Attempts
import Permission.Proofs.Json.Texts

/-!
# What readers pass on

Outside of strings a reader goes over a text character by character and meets no backslash.  So a
property of texts that holds behind every other character, and behind every string, holds of
whatever a reader leaves; and all texts in the value that it takes are taken from such strings.
-/

set_option autoImplicit false

namespace Permission
namespace Json

/-- From a text with the property, the reader takes something good and leaves a text with the
property. -/
def Yields {α : Type} (property : List Char → Prop) (good : α → Prop) (reader : Reader α) : Prop :=
  ∀ text, property text → ∀ taken rest, reader text = .ok (taken, rest) →
    good taken ∧ property rest

theorem yields_fault {α : Type} {property : List Char → Prop} {good : α → Prop}
    (fault : StorageError) : Yields property good fun _ => .error fault :=
  fun _ _ _ _ refused => nomatch refused

/-- The property stays behind a character other than a backslash, and behind a string, whose text
is good. -/
structure PassedOn (property : List Char → Prop) (good : String → Prop) : Prop where
  next : ∀ {c text}, c ≠ '\\' → property (c :: text) → property text
  string : Yields property (fun taken => good (String.ofList taken)) characters

def AllTexts (good : String → Prop) (json : Json) : Prop :=
  ∀ text ∈ json.texts, good text

theorem allTexts_of_texts {good : String → Prop} {json : Json} (textless : json.texts = []) :
    AllTexts good json := by
  rw [AllTexts, textless]
  exact List.forall_mem_nil _

theorem allTexts_string {good : String → Prop} {text : String} :
    AllTexts good (.string text) ↔ good text :=
  List.forall_mem_singleton

theorem allTexts_array {good : String → Prop} {elements : List Json} :
    AllTexts good (.array elements) ↔ ∀ element ∈ elements, AllTexts good element := by
  rw [AllTexts, texts, elementTexts_eq_flatMap]
  constructor
  · intro each element listed text inside
    exact each text (List.mem_flatMap.mpr ⟨element, listed, inside⟩)
  · intro each text member
    obtain ⟨element, listed, inside⟩ := List.mem_flatMap.mp member
    exact each element listed text inside

theorem allTexts_object {good : String → Prop} {members : List (String × Json)} :
    AllTexts good (.object members) ↔
      ∀ entry ∈ members, good entry.1 ∧ AllTexts good entry.2 := by
  rw [AllTexts, texts, memberTexts_eq_flatMap]
  constructor
  · intro each entry listed
    have here (text : String) (inside : text ∈ entry.1 :: entry.2.texts) : good text :=
      each text (List.mem_flatMap.mpr ⟨entry, listed, inside⟩)
    exact ⟨here entry.1 List.mem_cons_self,
      fun text inside => here text (List.mem_cons_of_mem _ inside)⟩
  · intro each text member
    obtain ⟨entry, listed, inside⟩ := List.mem_flatMap.mp member
    rcases List.mem_cons.mp inside with rfl | within
    · exact (each entry listed).1
    · exact (each entry listed).2 text within

section

variable {property : List Char → Prop} {good : String → Prop} (passed : PassedOn property good)

include passed

/-! ### Characters -/

theorem PassedOn.dropWhile {test : Char → Bool} (plain : test '\\' = false) {text : List Char}
    (holds : property text) : property (text.dropWhile test) := by
  induction text with
  | nil => exact holds
  | cons c text ih =>
      rw [List.dropWhile_cons]
      split
      · rename_i tested
        apply ih
        apply passed.next _ holds
        intro backslash
        rw [backslash, plain] at tested
        cases tested
      · exact holds

theorem PassedOn.skipSpace {text : List Char} (holds : property text) :
    property (skipSpace text) :=
  passed.dropWhile (by decide) holds

theorem PassedOn.word {wanted text rest : List Char} (plain : '\\' ∉ wanted)
    (holds : property text) (taken : word wanted text = .ok rest) : property rest := by
  induction wanted generalizing text with
  | nil =>
      cases taken
      exact holds
  | cons first later ih =>
      cases text with
      | nil => cases taken
      | cons c text =>
          rw [Json.word] at taken
          split at taken
          · rename_i same
            have noBackslash : c ≠ '\\' := by
              intro backslash
              exact plain (by simp [same, backslash])
            exact ih (fun member => plain (List.mem_cons_of_mem _ member))
              (passed.next noBackslash holds) taken
          · cases taken

/-! ### Numbers -/

theorem PassedOn.digits : Yields property (fun _ => True) digits := by
  intro text holds taken rest read
  unfold Json.digits at read
  split at read
  · cases read
  · split at read
    · cases read
      exact ⟨trivial, passed.dropWhile (by decide) holds⟩
    · cases read

theorem PassedOn.integerDigits : Yields property (fun _ => True) integerDigits := by
  intro text holds taken rest read
  obtain ⟨⟨found, left⟩, some, read⟩ := ok_of_bind read
  have stays := passed.digits text holds found left some
  dsimp only at read
  split at read
  · cases read
  · cases read
    exact stays

theorem PassedOn.fractionDigits : Yields property (fun _ => True) fractionDigits := by
  intro text holds taken rest read
  unfold Json.fractionDigits at read
  split at read
  · exact passed.digits _ (passed.next (by decide) holds) taken rest read
  · cases read
    exact ⟨trivial, holds⟩

theorem PassedOn.sign {text : List Char} (holds : property text) : property (sign text).2 := by
  unfold Json.sign
  split
  · exact passed.next (by decide) holds
  · exact passed.next (by decide) holds
  · exact holds

theorem PassedOn.exponent : Yields property (fun _ => True) exponent := by
  intro text holds taken rest read
  unfold Json.exponent at read
  split at read
  · cases read
    exact ⟨trivial, holds⟩
  · rename_i mark text
    split at read
    · rename_i marks
      have noBackslash : mark ≠ '\\' := by
        rcases marks with rfl | rfl <;> decide
      have unsigned := passed.sign (passed.next noBackslash holds)
      obtain ⟨⟨found, left⟩, some, read⟩ := ok_of_bind read
      cases read
      exact ⟨trivial, (passed.digits _ unsigned found rest some).2⟩
    · cases read
      exact ⟨trivial, holds⟩

theorem PassedOn.numeral : Yields property (AllTexts good) numeral := by
  intro text holds taken rest read
  obtain ⟨⟨integer, left⟩, found, read⟩ := ok_of_bind read
  have behind : property left := by
    split at found
    · exact (passed.integerDigits _ (passed.next (by decide) holds) integer left found).2
    · exact (passed.integerDigits _ holds integer left found).2
  obtain ⟨⟨fraction, left'⟩, found, read⟩ := ok_of_bind read
  have behind := (passed.fractionDigits _ behind fraction left' found).2
  obtain ⟨⟨power, left''⟩, found, read⟩ := ok_of_bind read
  have behind := (passed.exponent _ behind power left'' found).2
  dsimp only at read
  split at read
  · cases read
  · cases read
    exact ⟨allTexts_of_texts rfl, behind⟩

/-! ### Values -/

theorem PassedOn.scalar : Yields property (AllTexts good) scalar := by
  intro text holds taken rest read
  unfold Json.scalar at read
  split at read
  · cases read
  · obtain ⟨⟨characters, left⟩, found, read⟩ := ok_of_bind read
    obtain ⟨fine, behind⟩ :=
      passed.string _ (passed.next (by decide) holds) characters left found
    cases read
    exact ⟨allTexts_string.mpr fine, behind⟩
  · obtain ⟨left, found, read⟩ := ok_of_bind read
    cases read
    exact ⟨allTexts_of_texts rfl, passed.word (by decide) (passed.next (by decide) holds) found⟩
  · obtain ⟨left, found, read⟩ := ok_of_bind read
    cases read
    exact ⟨allTexts_of_texts rfl, passed.word (by decide) (passed.next (by decide) holds) found⟩
  · obtain ⟨left, found, read⟩ := ok_of_bind read
    cases read
    exact ⟨allTexts_of_texts rfl, passed.word (by decide) (passed.next (by decide) holds) found⟩
  · split at read
    · exact passed.numeral _ holds taken rest read
    · cases read

theorem PassedOn.laterElements {fine : Json → Prop} {reader : Reader Json}
    (entry : Yields property fine reader) (fuel : Nat) :
    Yields property (fun elements => ∀ element ∈ elements, fine element)
      (laterElements reader fuel) := by
  induction fuel with
  | zero =>
      intro text holds taken rest read
      cases read
  | succ fuel ih =>
      intro text holds taken rest read
      have spaced := passed.skipSpace holds
      rw [Json.laterElements] at read
      split at read
      · cases read
      · rename_i shape
        rw [shape] at spaced
        cases read
        exact ⟨List.forall_mem_nil _, passed.next (by decide) spaced⟩
      · rename_i shape
        rw [shape] at spaced
        obtain ⟨⟨element, left⟩, found, read⟩ := ok_of_bind read
        obtain ⟨first, behind⟩ := entry _ (passed.next (by decide) spaced) element left found
        obtain ⟨⟨others, left'⟩, found, read⟩ := ok_of_bind read
        obtain ⟨later, behind⟩ := ih left behind others left' found
        cases read
        exact ⟨List.forall_mem_cons.mpr ⟨first, later⟩, behind⟩
      · cases read

theorem PassedOn.elements {fine : Json → Prop} {first later : Reader Json}
    (entry : Yields property fine first) (entries : Yields property fine later) :
    Yields property (fun elements => ∀ element ∈ elements, fine element)
      (elements first later) := by
  intro text holds taken rest read
  have spaced := passed.skipSpace holds
  rw [Json.elements] at read
  split at read
  · cases read
  · rename_i shape
    rw [shape] at spaced
    cases read
    exact ⟨List.forall_mem_nil _, passed.next (by decide) spaced⟩
  · obtain ⟨⟨element, left⟩, found, read⟩ := ok_of_bind read
    obtain ⟨first, behind⟩ := entry _ spaced element left found
    obtain ⟨⟨others, left'⟩, found, read⟩ := ok_of_bind read
    obtain ⟨later, behind⟩ := passed.laterElements entries _ left behind others left' found
    cases read
    exact ⟨List.forall_mem_cons.mpr ⟨first, later⟩, behind⟩

theorem PassedOn.member {fine : Json → Prop} {rule : MemberRule}
    (entry : ∀ key, Yields property fine (rule.value key)) (earlier : List String) :
    Yields property (fun entry => good entry.1 ∧ fine entry.2) (member rule earlier) := by
  intro text holds taken rest read
  have spaced := passed.skipSpace holds
  rw [Json.member] at read
  split at read
  · cases read
  · rename_i shape
    rw [shape] at spaced
    obtain ⟨⟨characters, left⟩, found, read⟩ := ok_of_bind read
    obtain ⟨key, behind⟩ := passed.string _ (passed.next (by decide) spaced) characters left found
    have colon := passed.skipSpace behind
    dsimp only at read
    split at read
    · split at read
      · cases read
      · rename_i shape
        rw [shape] at colon
        obtain ⟨⟨value, left'⟩, found, read⟩ := ok_of_bind read
        obtain ⟨inner, behind⟩ := entry _ _ (passed.next (by decide) colon) value left' found
        cases read
        exact ⟨⟨key, inner⟩, behind⟩
      · cases read
    · cases read
  · cases read

theorem PassedOn.laterMembers {fine : Json → Prop} {rule : MemberRule}
    (entry : ∀ key, Yields property fine (rule.value key)) (fuel : Nat) (earlier : List String) :
    Yields property (fun members => ∀ entry ∈ members, good entry.1 ∧ fine entry.2)
      (laterMembers rule fuel earlier) := by
  induction fuel generalizing earlier with
  | zero =>
      intro text holds taken rest read
      cases read
  | succ fuel ih =>
      intro text holds taken rest read
      have spaced := passed.skipSpace holds
      rw [Json.laterMembers] at read
      split at read
      · cases read
      · rename_i shape
        rw [shape] at spaced
        cases read
        exact ⟨List.forall_mem_nil _, passed.next (by decide) spaced⟩
      · rename_i shape
        rw [shape] at spaced
        obtain ⟨⟨first, left⟩, found, read⟩ := ok_of_bind read
        obtain ⟨here, behind⟩ :=
          passed.member entry earlier _ (passed.next (by decide) spaced) first left found
        obtain ⟨⟨others, left'⟩, found, read⟩ := ok_of_bind read
        obtain ⟨later, behind⟩ := ih _ left behind others left' found
        cases read
        exact ⟨List.forall_mem_cons.mpr ⟨here, later⟩, behind⟩
      · cases read

theorem PassedOn.members {fine : Json → Prop} {rule : MemberRule}
    (entry : ∀ key, Yields property fine (rule.value key)) :
    Yields property (fun members => ∀ entry ∈ members, good entry.1 ∧ fine entry.2)
      (members rule) := by
  intro text holds taken rest read
  have spaced := passed.skipSpace holds
  rw [Json.members] at read
  split at read
  · cases read
  · rename_i shape
    rw [shape] at spaced
    cases read
    exact ⟨List.forall_mem_nil _, passed.next (by decide) spaced⟩
  · obtain ⟨⟨first, left⟩, found, read⟩ := ok_of_bind read
    obtain ⟨here, behind⟩ := passed.member entry [] _ spaced first left found
    obtain ⟨⟨others, left'⟩, found, read⟩ := ok_of_bind read
    obtain ⟨later, behind⟩ := passed.laterMembers entry _ _ left behind others left' found
    cases read
    exact ⟨List.forall_mem_cons.mpr ⟨here, later⟩, behind⟩

theorem PassedOn.byBracket {elements : Reader (List Json)}
    {members : Reader (List (String × Json))}
    (arrays : Yields property (fun taken => ∀ element ∈ taken, AllTexts good element) elements)
    (objects : Yields property
      (fun taken => ∀ entry ∈ taken, good entry.1 ∧ AllTexts good entry.2) members) :
    Yields property (AllTexts good) (byBracket elements members) := by
  intro text holds taken rest read
  have spaced := passed.skipSpace holds
  rw [Json.byBracket] at read
  split at read
  · rename_i shape
    rw [shape] at spaced
    obtain ⟨entries, found, rfl⟩ := wrapTaken_ok read
    obtain ⟨each, behind⟩ := arrays _ (passed.next (by decide) spaced) entries rest found
    exact ⟨allTexts_array.mpr each, behind⟩
  · rename_i shape
    rw [shape] at spaced
    obtain ⟨entries, found, rfl⟩ := wrapTaken_ok read
    obtain ⟨each, behind⟩ := objects _ (passed.next (by decide) spaced) entries rest found
    exact ⟨allTexts_object.mpr each, behind⟩
  · exact passed.scalar _ spaced taken rest read

theorem PassedOn.value (depth : Nat) : Yields property (AllTexts good) (value depth) := by
  induction depth with
  | zero => exact passed.byBracket (yields_fault .malformed) (yields_fault .malformed)
  | succ depth ih =>
      exact passed.byBracket (passed.elements ih ih) (passed.members fun _ => ih)

end

end Json
end Permission
