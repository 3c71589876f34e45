import Permission.Proofs.Json.Cuts
import Permission.Proofs.Storage.Accepted

/-!
# Stored texts show where they end

A stored text holds its predicate with any spaces around it.  A front of it is truncated, wherever
it is cut, and with anything but spaces behind it is malformed.  So neither is ever taken for
another predicate.
-/

set_option autoImplicit false

namespace Permission
namespace Predicate

open Json (ReadsBack Spaces Steady Textual isSpace spelled)

/-- A text that is read as a predicate with spaces around it, and neither cut short nor with
anything else behind it. -/
structure SelfDelimiting (read : String → Except StorageError Predicate) (text : String)
    (predicate : Predicate) : Prop where
  cut : ∀ front back, text = front ++ back → back ≠ "" → read front = .error .truncated
  spaced : ∀ before after : String, Spaces before.toList → Spaces after.toList →
    read (before ++ text ++ after) = .ok predicate
  followed : ∀ after : String, (∃ c ∈ after.toList, isSpace c = false) →
    read (text ++ after) = .error .malformed

/-! ### Values that are cut short -/

theorem outermostTag_steady : Steady Textual outermostTag := by
  have scalars : Steady Textual
      (Json.byBracket (fun _ => .error .mismatched) (fun _ => .error .mismatched)) :=
    Json.byBracket_steady (fun _ _ => .fault _ _) (fun _ _ => .fault _ _)
  intro front back
  rw [outermostTag_eq, outermostTag_eq]
  refine (scalars front back).bind (fun json left => ?_) ?_
  · cases json with
    | string tag =>
        dsimp only
        split
        · exact .ok _ left
        · exact .fault _ _
    | _ => exact .fault _ _
  · intro json left result rest found _
    cases json with
    | string tag => exact trivial
    | _ => cases found

theorem outermost_steady : Steady Textual outermost := by
  have values (key : String) : Steady Textual ((outermostRule (Json.value 126)).value key) := by
    unfold outermostRule
    dsimp only
    split
    · exact outermostTag_steady
    · exact Json.value_steady 126
  rw [outermost_eq]
  exact Json.byBracket_steady (Json.elements_steady outermostTag_steady (Json.value_steady 126))
    (Json.members_steady values)

/-! ### Spelled predicates -/

section

variable {spell : Char → List Char} (reads : ReadsBack spell) {predicate : Predicate}

include reads

theorem restoreCharacters_followed {after : List Char} (other : ∃ c ∈ after, isSpace c = false) :
    restoreCharacters (spelled spell predicate.toJson ++ after) = .error .malformed := by
  obtain ⟨c, member, printed⟩ := other
  rw [restoreCharacters_spelled_append reads, if_neg]
  rintro ⟨_, blank⟩
  rw [skipSpace_isEmpty.mp blank c member] at printed
  cases printed

variable (fits : predicate.nesting ≤ 127)

include fits

theorem restoreCharacters_front {front back : List Char}
    (whole : spelled spell predicate.toJson = front ++ back) (cut : back ≠ []) :
    restoreCharacters front = .error .truncated := by
  have read := outermost_spelled_append reads predicate []
  rw [List.append_nil, if_pos (show predicate.nesting ≤ Json.nestingLimit from fits), whole] at read
  rcases outermost_steady front back _ _ read (textual_toJson predicate) with
    ⟨left, ended, _⟩ | truncated
  · exact absurd (List.append_eq_nil_iff.mp ended.symm).2 cut
  · rw [restoreCharacters, truncated]
    rfl

theorem restoreCharacters_spaced {before after : List Char} (blank : Spaces before)
    (blank' : Spaces after) :
    restoreCharacters (before ++ (spelled spell predicate.toJson ++ after)) = .ok predicate := by
  have skipped (text : List Char) :
      restoreCharacters (before ++ text) = restoreCharacters text := by
    rw [restoreCharacters, restoreCharacters, outermost_eq, Json.byBracket, Json.byBracket,
      Json.skipSpace_append blank]
  rw [skipped, restoreCharacters_spelled_append reads, if_pos ⟨fits, skipSpace_isEmpty.mpr blank'⟩]

/-- Reading a text after a change of its characters keeps its ends in place, if the change keeps
what is a space. -/
theorem selfDelimiting_of_spelled {read : String → Except StorageError Predicate}
    {change : Char → Char} {text : String}
    (reading : ∀ text, read text = restoreCharacters (text.toList.map change))
    (keeps : ∀ c, isSpace (change c) = isSpace c)
    (written : text.toList.map change = spelled spell predicate.toJson) :
    SelfDelimiting read text predicate := by
  have spaces {blanks : List Char} (blank : Spaces blanks) : Spaces (blanks.map change) := by
    intro c member
    obtain ⟨d, listed, rfl⟩ := List.mem_map.mp member
    rw [keeps, blank d listed]
  constructor
  · intro front back whole cut
    rw [whole, String.toList_append, List.map_append] at written
    rw [reading]
    refine restoreCharacters_front reads fits written.symm fun empty => cut ?_
    exact String.toList_eq_nil_iff.mp (List.map_eq_nil_iff.mp empty)
  · intro before after blank blank'
    rw [reading, String.toList_append, String.toList_append, List.map_append, List.map_append,
      written, List.append_assoc]
    exact restoreCharacters_spaced reads fits (spaces blank) (spaces blank')
  · rintro after ⟨c, member, printed⟩
    rw [reading, String.toList_append, List.map_append, written]
    refine restoreCharacters_followed reads ⟨change c, List.mem_map_of_mem member, ?_⟩
    rw [keeps, printed]

end

/-! ### Stored and embedded texts -/

theorem isSpace_unembedCharacter (c : Char) : isSpace (unembedCharacter c) = isSpace c := by
  unfold unembedCharacter
  by_cases quote : c = '\''
  · rw [if_pos quote, quote]
    rfl
  · rw [if_neg quote]

/-- The stored text of a predicate and its embedded form are read as the predicate with any spaces
around them; a proper front of them is truncated, and with any other character behind them they
are malformed. -/
theorem stored_selfDelimiting {predicate : Predicate} (fits : predicate.toJson.nesting ≤ 127) :
    SelfDelimiting restore predicate.store predicate ∧
      SelfDelimiting extract predicate.embed predicate := by
  rw [toJson_nesting] at fits
  constructor
  · have reading (text : String) : restore text = restoreCharacters (text.toList.map id) := by
      rw [List.map_id, restore]
    have written : predicate.store.toList.map id = spelled Json.escape predicate.toJson := by
      rw [List.map_id, store_toList]
    exact selfDelimiting_of_spelled Json.readsBack_escape fits reading (fun _ => rfl) written
  · exact selfDelimiting_of_spelled readsBack_respelled fits (fun _ => rfl)
      isSpace_unembedCharacter (embed_unembedded predicate)

theorem stored_selfDelimiting_quoted :
    (Predicate.not (.anyOf ["it's", "\"b\"\n"])).toJson.nesting ≤ 127 ∧
      SelfDelimiting restore (Predicate.not (.anyOf ["it's", "\"b\"\n"])).store
        (.not (.anyOf ["it's", "\"b\"\n"])) ∧
      SelfDelimiting extract (Predicate.not (.anyOf ["it's", "\"b\"\n"])).embed
        (.not (.anyOf ["it's", "\"b\"\n"])) :=
  ⟨by decide, stored_selfDelimiting (by decide)⟩

end Predicate
end Permission
