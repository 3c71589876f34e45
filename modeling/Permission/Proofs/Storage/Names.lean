import Permission.Proofs.Json.Reading
import Permission.Proofs.Storage.Presented

/-!
# Where the names of a restored predicate come from

Every name in a predicate that is restored is a string in the stored value, and so it was taken
from a string of the text.
-/

set_option autoImplicit false

namespace Permission
namespace Predicate

open Json (AllTexts PassedOn Yields)

section

variable {good : String → Prop}

/-! ### Names come from texts -/

theorem LaysOut.allTexts {place : Place} {variant : Variant} {fields : List Json} {json : Json}
    (laid : LaysOut place variant fields json) (each : AllTexts good json) :
    ∀ field ∈ fields, AllTexts good field := by
  intro field listed
  rcases laid.field_mem listed with ⟨members, key, rfl, member⟩ | ⟨elements, rfl, member⟩
  · exact (Json.allTexts_object.mp each (key, field) member).2
  · exact Json.allTexts_array.mp each field member

theorem names_good {names : List String} (each : AllTexts good (.array (names.map .string))) :
    ∀ name ∈ names, good name := by
  intro name listed
  exact Json.allTexts_string.mp
    (Json.allTexts_array.mp each (.string name) (List.mem_map_of_mem listed))

/-- The names of the predicate that a value presents are texts in the value. -/
theorem PresentedBy.leaves_good {predicate : Predicate} {place : Place} {json : Json}
    (presented : predicate.PresentedBy place json) (each : AllTexts good json) :
    ∀ name ∈ predicate.leaves, good name := by
  induction predicate generalizing place json with
  | has name =>
      have text := LaysOut.allTexts presented each (.string name) List.mem_cons_self
      exact List.forall_mem_singleton.mpr (Json.allTexts_string.mp text)
  | anyOf names | allOf names =>
      exact names_good (LaysOut.allTexts presented each _ List.mem_cons_self)
  | and lhs rhs left right | or lhs rhs left right =>
      obtain ⟨first, second, laid, here, there⟩ := presented
      have texts := laid.allTexts each
      refine List.forall_mem_append.mpr ⟨left here (texts first ?_), right there (texts second ?_)⟩
      · exact List.mem_cons_self
      · exact List.mem_cons_of_mem first List.mem_cons_self
  | not operand ih =>
      obtain ⟨inner, laid, here⟩ := presented
      exact ih here (laid.allTexts each inner List.mem_cons_self)

/-! ### The outermost value -/

variable {property : List Char → Prop}

theorem outermostTag_yields (passed : PassedOn property good) :
    Yields property (AllTexts good) outermostTag := by
  intro text holds taken rest read
  rw [outermostTag_eq] at read
  obtain ⟨⟨json, left⟩, found, read⟩ := ok_of_bind read
  have scalar := passed.byBracket (Json.yields_fault .mismatched) (Json.yields_fault .mismatched)
    text holds json left found
  dsimp only at read
  split at read
  · split at read
    · cases read
      exact scalar
    · cases read
  · cases read

theorem outermost_yields (passed : PassedOn property good) :
    Yields property (AllTexts good) outermost := by
  have inner := passed.value 126
  have entry (key : String) :
      Yields property (AllTexts good) ((outermostRule (Json.value 126)).value key) := by
    unfold outermostRule
    dsimp only
    split
    · exact outermostTag_yields passed
    · exact inner
  rw [outermost_eq]
  exact passed.byBracket (passed.elements (outermostTag_yields passed) inner)
    (passed.members entry)

/-- The names of a predicate that is restored from a text with the property are good. -/
theorem restoreCharacters_good (passed : PassedOn property good) {text : List Char}
    {predicate : Predicate} (holds : property text)
    (restored : restoreCharacters text = .ok predicate) :
    ∀ name ∈ predicate.leaves, good name := by
  obtain ⟨⟨json, rest⟩, read, restored⟩ := ok_of_bind restored
  have each := (outermost_yields passed text holds json rest read).1
  dsimp only at restored
  split at restored
  · cases restored
  · rename_i presented found
    split at restored
    · cases restored
      exact (ofJson_iff_presented.mp found).leaves_good each
    · cases restored

end

end Predicate
end Permission
