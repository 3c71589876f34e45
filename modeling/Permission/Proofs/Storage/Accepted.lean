import Mathlib.Data.List.TakeWhile
import Permission.Proofs.Json.Values
import Permission.Proofs.Storage.Presented

/-!
# Which texts hold a predicate

A text holds a predicate exactly if it is the text of a value, with spaces around it, that presents
the predicate and nests no deeper than the reader of JSON admits.
-/

set_option autoImplicit false

namespace Permission

/-- The texts that a value may be written as, with spaces around it. -/
def Json.WrittenAs (json : Json) (text : String) : Prop :=
  ∃ before value after, text.toList = before ++ (value ++ after) ∧ Json.Spaces before ∧
    json.Written value ∧ Json.Spaces after

namespace Predicate

open Json (Accepts Admitted Exact Holds Spaced Spaces isNumberPart)

/-! ### The outermost value -/

def IsTag (json : Json) : Prop :=
  ∃ variant : Variant, json = .string variant.tag

/-- The tag of an array or an object is one of the tags, and no other member has its key. -/
def TagChecked : Json → Prop :=
  Holds (fun elements => ∀ tag ∈ elements.head?, IsTag tag) fun members =>
    Admitted (outermostRule (Json.value 126)) [] members ∧
      ∀ entry ∈ members, entry.1 = tagKey → IsTag entry.2

theorem IsTag.nesting {json : Json} (tag : IsTag json) : json.nesting = 0 := by
  obtain ⟨variant, rfl⟩ := tag
  rfl

theorem isSome_ofTag {text : String} :
    (Variant.ofTag? text).isSome = true ↔ ∃ variant : Variant, text = variant.tag := by
  rw [Option.isSome_iff_exists]
  constructor
  · rintro ⟨variant, found⟩
    have same := List.find?_some found
    exact ⟨variant, (eq_of_beq same).symm⟩
  · rintro ⟨variant, rfl⟩
    exact ⟨variant, ofTag_tag variant⟩

theorem outermostTag_exact : Accepts IsTag outermostTag := by
  have scalars := Json.byBracket_exact (Json.refused_exact .mismatched _)
    (Json.refused_exact .mismatched _)
  constructor
  · intro text taken rest read
    rw [outermostTag_eq] at read
    obtain ⟨⟨json, left⟩, found, read⟩ := ok_of_bind read
    obtain ⟨front, whole, _, written⟩ := scalars.sound found
    dsimp only at read
    split at read
    · rename_i tag
      split at read
      · rename_i known
        cases read
        obtain ⟨variant, rfl⟩ := isSome_ofTag.mp known
        exact ⟨front, whole, ⟨variant, rfl⟩, written⟩
      · cases read
    · cases read
  · rintro taken text rest ⟨⟨variant, rfl⟩, written⟩ stops
    have known : (Variant.ofTag? variant.tag).isSome = true := isSome_ofTag.mpr ⟨variant, rfl⟩
    have scalar : Holds (fun _ => False) (fun _ => False) (.string variant.tag) := trivial
    rw [outermostTag_eq, scalars.complete ⟨scalar, written⟩ stops]
    exact if_pos known

theorem outermostRule_accepts (key : String) :
    Accepts (fun json => if key = tagKey then IsTag json else json.nesting ≤ 126)
      ((outermostRule (Json.value 126)).value key) := by
  unfold outermostRule
  by_cases tag : key = tagKey
  · simp only [if_pos tag]
    exact outermostTag_exact
  · simp only [if_neg tag]
    exact Json.value_exact 126

theorem outermostElements_exact :
    Exact isNumberPart (Json.elements outermostTag (Json.value 126)) fun taken text =>
      ((∀ tag ∈ taken.head?, IsTag tag) ∧ Json.nestings taken ≤ 126) ∧
        Json.Entries ']' Spaced taken text := by
  refine (Json.elements_exact outermostTag_exact (Json.value_exact 126)).of_iff
    fun taken text => ?_
  rw [← and_assoc]
  refine and_congr_left fun _ => and_congr_right fun tags => ?_
  cases taken with
  | nil => simp [Json.nestings]
  | cons tag others =>
      have flat := (tags tag rfl).nesting
      rw [Json.nestings_cons_le, flat, Json.nestings_le_iff]
      simp

theorem outermostMembers_exact :
    Exact isNumberPart (Json.members (outermostRule (Json.value 126))) fun taken text =>
      ((Admitted (outermostRule (Json.value 126)) [] taken ∧
        ∀ entry ∈ taken, entry.1 = tagKey → IsTag entry.2) ∧ Json.memberNestings taken ≤ 126) ∧
        Json.Entries '\x7d' Json.WrittenMember taken text := by
  refine (Json.members_exact outermostRule_accepts).of_iff fun taken text => ?_
  rw [← and_assoc]
  refine and_congr_left fun _ => ?_
  rw [and_assoc, Json.memberNestings_le_iff, ← forall₂_and]
  refine and_congr_right fun _ => forall₂_congr fun entry _ => ?_
  by_cases tag : entry.1 = tagKey
  · simp only [tag, if_true, forall_const]
    constructor
    · intro known
      exact ⟨known, by rw [known.nesting]; omega⟩
    · exact And.left
  · simp [tag]

theorem outermost_exact :
    Accepts (fun json => TagChecked json ∧ json.nesting ≤ 127) outermost := by
  rw [outermost_eq]
  refine (Json.byBracket_exact outermostElements_exact outermostMembers_exact).of_iff
    fun json text => and_congr_left fun _ => ?_
  cases json with
  | array elements => exact and_congr_right fun _ => Json.nesting_array_le.symm
  | object members => exact and_congr_right fun _ => Json.nesting_object_le.symm
  | _ => exact ⟨fun _ => ⟨trivial, Nat.zero_le 127⟩, fun _ => trivial⟩

theorem tags_outermost {variant : Variant} {json : Json} :
    Tags .outermost variant json ↔ Tags .inner variant json ∧ IsTag json := by
  constructor
  · rintro ⟨_⟩
    exact ⟨.name .inner variant, variant, rfl⟩
  · rintro ⟨_ | _, tag⟩
    · exact .name .outermost variant
    · obtain ⟨_, same⟩ := tag
      cases same

theorem admitted_of_count {inner : Json.Reader Json} {members : List (String × Json)}
    {earlier : List String} (once : (members.map Prod.fst ++ earlier).count tagKey ≤ 1) :
    Admitted (outermostRule inner) earlier members := by
  induction members generalizing earlier with
  | nil => trivial
  | cons entry others ih =>
      obtain ⟨key, json⟩ := entry
      simp only [List.map_cons, List.cons_append, List.count_cons, List.count_append] at once
      constructor
      · simp only [outermostRule, Bool.not_eq_true', Bool.and_eq_false_iff, beq_eq_false_iff_ne]
        by_cases tag : key = tagKey
        · right
          simp only [tag, beq_self_eq_true, if_true] at once
          have absent : earlier.count tagKey = 0 := by omega
          simpa using List.count_eq_zero.mp absent
        · exact .inl tag
      · apply ih
        simp only [List.count_append, List.count_cons]
        omega

theorem laysOut_outermost {variant : Variant} {fields : List Json} {json : Json} :
    LaysOut .outermost variant fields json ↔
      LaysOut .inner variant fields json ∧ TagChecked json := by
  constructor
  · rintro (⟨tags, sole, each⟩ | ⟨tags, count⟩)
    · rename_i members tag
      obtain ⟨inner, known⟩ := tags_outermost.mp tags
      have once : (members.map Prod.fst ++ []).count tagKey ≤ 1 := by
        rw [List.append_nil, sole.count]
      refine ⟨.object inner sole each, admitted_of_count once, ?_⟩
      intro entry member named
      rw [sole.eq_of_mem member named]
      exact known
    · obtain ⟨inner, known⟩ := tags_outermost.mp tags
      exact ⟨.array inner count, by simpa [TagChecked, Holds] using known⟩
  · rintro ⟨⟨inner, sole, each⟩ | ⟨inner, count⟩, checked⟩
    · have known := checked.2 _ sole.mem rfl
      exact .object (tags_outermost.mpr ⟨inner, known⟩) sole each
    · exact .array (tags_outermost.mpr ⟨inner, checked _ rfl⟩) count

theorem presented_outermost {predicate : Predicate} {json : Json} :
    predicate.PresentedBy .outermost json ↔
      predicate.PresentedBy .inner json ∧ TagChecked json := by
  cases predicate with
  | has name | anyOf names | allOf names => exact laysOut_outermost
  | and lhs rhs | or lhs rhs =>
      simp only [PresentedBy, laysOut_outermost]
      constructor
      · rintro ⟨left, right, ⟨laid, checked⟩, inside⟩
        exact ⟨⟨left, right, laid, inside⟩, checked⟩
      · rintro ⟨⟨left, right, laid, inside⟩, checked⟩
        exact ⟨left, right, ⟨laid, checked⟩, inside⟩
  | not operand =>
      simp only [PresentedBy, laysOut_outermost]
      constructor
      · rintro ⟨inner, ⟨laid, checked⟩, inside⟩
        exact ⟨⟨inner, laid, inside⟩, checked⟩
      · rintro ⟨⟨inner, laid, inside⟩, checked⟩
        exact ⟨inner, ⟨laid, checked⟩, inside⟩

/-! ### Texts -/

theorem skipSpace_isEmpty {text : List Char} :
    (Json.skipSpace text).isEmpty = true ↔ Spaces text := by
  rw [Json.skipSpace, List.isEmpty_iff, List.dropWhile_eq_nil_iff]
  rfl

theorem restoreCharacters_ok_iff {text : List Char} {predicate : Predicate} :
    restoreCharacters text = .ok predicate ↔
      ∃ json front after, text = front ++ after ∧ Spaced json front ∧ Spaces after ∧
        json.nesting ≤ 127 ∧ predicate.PresentedBy .outermost json := by
  constructor
  · intro restored
    obtain ⟨⟨json, after⟩, read, restored⟩ := ok_of_bind restored
    obtain ⟨front, whole, ⟨checked, shallow⟩, written⟩ := outermost_exact.sound read
    dsimp only at restored
    split at restored
    · cases restored
    · rename_i found
      split at restored
      · rename_i blank
        cases restored
        have presented := presented_outermost.mpr ⟨ofJson_iff_presented.mp found, checked⟩
        exact ⟨json, front, after, whole, written, skipSpace_isEmpty.mp blank, shallow, presented⟩
      · cases restored
  · rintro ⟨json, front, after, rfl, written, blank, shallow, presented⟩
    obtain ⟨inner, checked⟩ := presented_outermost.mp presented
    have stops : Json.Stops isNumberPart (after ++ []) := blank.stops nofun
    rw [List.append_nil] at stops
    have read := outermost_exact.complete ⟨⟨checked, shallow⟩, written⟩ stops
    simp only [restoreCharacters, read, bind, Except.bind, ofJson_iff_presented.mpr inner,
      skipSpace_isEmpty.mpr blank, if_true]

/-- A text is restored as a predicate exactly if it is, up to spaces around it, the text of a value
with at most 127 nested brackets that presents the predicate. -/
theorem restore_ok_iff_presented (text : String) (predicate : Predicate) :
    restore text = .ok predicate ↔
      ∃ json : Json, json.WrittenAs text ∧ json.nesting ≤ 127 ∧
        predicate.PresentedBy .outermost json := by
  rw [restore, restoreCharacters_ok_iff]
  constructor
  · rintro ⟨json, _, after, whole, ⟨before, written⟩, blank, rest⟩
    exact ⟨json, ⟨_, _, after, by rw [whole, List.append_assoc], before, written, blank⟩, rest⟩
  · rintro ⟨json, ⟨before, value, after, whole, spaces, written, blank⟩, rest⟩
    exact ⟨json, before ++ value, after, by rw [whole, List.append_assoc],
      .value spaces written, blank, rest⟩

end Predicate
end Permission
