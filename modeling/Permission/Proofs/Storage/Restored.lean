import Permission.Proofs.Storage.Accepted

/-!
# Storing what was restored

The stored object of a predicate nests no deeper than any value that presents the predicate.  So a
predicate that was restored once, from whatever layout, lies within the depth that the reader of
JSON admits, and is restored from its own stored text and from its embedded form.
-/

set_option autoImplicit false

namespace Permission
namespace Predicate

/-! ### The depth of a presentation -/

theorem LaysOut.nesting_lt {place : Place} {variant : Variant} {fields : List Json} {json : Json}
    (laid : LaysOut place variant fields json) :
    ∀ field ∈ fields, field.nesting < json.nesting := by
  intro field listed
  rcases laid.field_mem listed with ⟨members, key, rfl, member⟩ | ⟨elements, rfl, member⟩
  · have bounded := Json.memberNestings_le_iff.mp (Nat.le_refl (Json.memberNestings members))
    exact Nat.lt_succ_of_le (bounded (key, field) member)
  · have bounded := Json.nestings_le_iff.mp (Nat.le_refl (Json.nestings elements))
    exact Nat.lt_succ_of_le (bounded field member)

theorem nesting_names (names : List String) :
    (Json.array (names.map .string)).nesting = 1 := by
  rw [Json.nesting, nestings_strings]

/-- No layout of a predicate nests less deep than its stored object. -/
theorem PresentedBy.nesting_le {predicate : Predicate} {place : Place} {json : Json}
    (presented : predicate.PresentedBy place json) : predicate.nesting ≤ json.nesting := by
  induction predicate generalizing place json with
  | has name =>
      have deeper := LaysOut.nesting_lt presented (.string name) List.mem_cons_self
      exact Nat.succ_le_of_lt deeper
  | anyOf names | allOf names =>
      have deeper := LaysOut.nesting_lt presented _ List.mem_cons_self
      rw [nesting_names] at deeper
      exact deeper
  | and lhs rhs left right | or lhs rhs left right =>
      obtain ⟨first, second, laid, here, there⟩ := presented
      have aboveFirst := laid.nesting_lt first List.mem_cons_self
      have aboveSecond := laid.nesting_lt second (List.mem_cons_of_mem first List.mem_cons_self)
      have below := Nat.max_le.mpr ⟨Nat.lt_of_le_of_lt (left here) aboveFirst,
        Nat.lt_of_le_of_lt (right there) aboveSecond⟩
      rw [nesting]
      omega
  | not operand ih =>
      obtain ⟨inner, laid, here⟩ := presented
      have above := laid.nesting_lt inner List.mem_cons_self
      exact Nat.lt_of_le_of_lt (ih here) above

/-! ### Stored again -/

theorem nesting_le_of_restored {text : List Char} {predicate : Predicate}
    (restored : restoreCharacters text = .ok predicate) : predicate.nesting ≤ 127 := by
  obtain ⟨json, _, _, _, _, _, shallow, presented⟩ := restoreCharacters_ok_iff.mp restored
  exact Nat.le_trans presented.nesting_le shallow

/-- A predicate that was restored or extracted from any text is restored from its stored text and
extracted from its embedded form. -/
theorem restored_again {text : String} {predicate : Predicate}
    (restored : restore text = .ok predicate ∨ extract text = .ok predicate) :
    restore predicate.store = .ok predicate ∧ extract predicate.embed = .ok predicate := by
  have fits : predicate.nesting ≤ Json.nestingLimit := by
    rcases restored with stored | embedded
    · exact nesting_le_of_restored stored
    · exact nesting_le_of_restored embedded
  rw [restore_store, extract_embed, if_pos fits]
  exact ⟨rfl, rfl⟩

/-- An array around an object with a number for its tag, in another order and with a member that is
no field. -/
theorem restored_again_mixedLayouts :
    restore "[\"NOT\",\x7b\"val\":\"a\",\"x\":[[]],\"type\":0\x7d]" = .ok (.not (.has "a")) ∧
      restore (Predicate.not (.has "a")).store = .ok (.not (.has "a")) ∧
      extract (Predicate.not (.has "a")).embed = .ok (.not (.has "a")) := by
  have restored : restore "[\"NOT\",\x7b\"val\":\"a\",\"x\":[[]],\"type\":0\x7d]" =
      .ok (.not (.has "a")) := by decide +kernel
  exact ⟨restored, restored_again (.inl restored)⟩

end Predicate
end Permission
