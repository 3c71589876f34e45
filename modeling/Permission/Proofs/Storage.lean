import Permission.Predicate.Stored
import Permission.Proofs.Json.Spelling

/-!
# Stored predicates are restored

The stored text of a predicate and its embedded form hold the predicate exactly as far as the
stored object nests no deeper than the reader of JSON admits; beyond that both are refused.  The
embedded form is the stored text in another spelling: exchanging the quotes back leaves a text
that differs only in how single quotes are written.
-/

set_option autoImplicit false

namespace Permission
namespace Predicate

open Json (spelled spelledLater spelledLaterMembers spelledString ReadsBack Textual Textuals
  TextualMembers Takes RuleTakes)

/-! ### The stored object -/

/-- How deep the brackets of the stored object of a predicate nest. -/
def nesting : Predicate → Nat
  | .has _ => 1
  | .anyOf _ => 2
  | .allOf _ => 2
  | .and lhs rhs => max lhs.nesting rhs.nesting + 1
  | .or lhs rhs => max lhs.nesting rhs.nesting + 1
  | .not operand => operand.nesting + 1

theorem nestings_strings (names : List String) : Json.nestings (names.map .string) = 0 := by
  induction names with
  | nil => rfl
  | cons first others ih =>
      rw [List.map_cons, Json.nestings, ih]
      rfl

theorem toJson_nesting (predicate : Predicate) : predicate.toJson.nesting = predicate.nesting := by
  induction predicate with
  | has name => rfl
  | anyOf names => simp [toJson, Json.nesting, Json.memberNestings, nestings_strings, nesting]
  | allOf names => simp [toJson, Json.nesting, Json.memberNestings, nestings_strings, nesting]
  | and lhs rhs left right =>
      simp [toJson, Json.nesting, Json.memberNestings, nesting, left, right]
  | or lhs rhs left right =>
      simp [toJson, Json.nesting, Json.memberNestings, nesting, left, right]
  | not operand inner => simp [toJson, Json.nesting, Json.memberNestings, nesting, inner]

theorem textuals_strings (names : List String) : Textuals (names.map .string) := by
  induction names with
  | nil => exact trivial
  | cons first others ih => exact ⟨trivial, ih⟩

theorem textual_toJson (predicate : Predicate) : Textual predicate.toJson := by
  induction predicate with
  | has name => exact ⟨trivial, trivial, trivial⟩
  | anyOf names => exact ⟨trivial, textuals_strings names, trivial⟩
  | allOf names => exact ⟨trivial, textuals_strings names, trivial⟩
  | and lhs rhs left right => exact ⟨trivial, left, right, trivial⟩
  | or lhs rhs left right => exact ⟨trivial, left, right, trivial⟩
  | not operand inner => exact ⟨trivial, inner, trivial⟩

/-- The tag of a stored object comes first, and no other member has its key. -/
theorem toJson_members (predicate : Predicate) : ∃ variant entries,
    predicate.toJson = .object ((tagKey, .string (Variant.tag variant)) :: entries) ∧
      ∀ entry ∈ entries, entry.1 ≠ tagKey := by
  cases predicate with
  | has name => exact ⟨.has, _, rfl, by simp [tagKey]⟩
  | anyOf names => exact ⟨.anyOf, _, rfl, by simp [tagKey]⟩
  | allOf names => exact ⟨.allOf, _, rfl, by simp [tagKey]⟩
  | and lhs rhs => exact ⟨.and, _, rfl, by simp [tagKey]⟩
  | or lhs rhs => exact ⟨.or, _, rfl, by simp [tagKey]⟩
  | not operand => exact ⟨.not, _, rfl, by simp [tagKey]⟩

theorem ofTag_tag (variant : Variant) : Variant.ofTag? variant.tag = some variant := by
  cases variant <;> decide

theorem texts_strings (names : List String) (predicate? : Option Predicate) :
    Part.texts? { json := .array (names.map .string), predicate? } = some names := by
  induction names with
  | nil => rfl
  | cons first others ih =>
      simp only [Part.texts?, List.map_cons, List.mapM_cons] at ih ⊢
      rw [ih]
      rfl

theorem ofJson_toJson (predicate : Predicate) : ofJson? predicate.toJson = some predicate := by
  induction predicate with
  | has name => rfl
  | anyOf names =>
      change (Part.texts? _).bind (fun names => some (Predicate.anyOf names)) = _
      rw [texts_strings]
      rfl
  | allOf names =>
      change (Part.texts? _).bind (fun names => some (Predicate.allOf names)) = _
      rw [texts_strings]
      rfl
  | and lhs rhs left right =>
      change (ofJson? lhs.toJson).bind (fun lhs => (ofJson? rhs.toJson).bind fun rhs =>
        some (Predicate.and lhs rhs)) = _
      rw [left, right]
      rfl
  | or lhs rhs left right =>
      change (ofJson? lhs.toJson).bind (fun lhs => (ofJson? rhs.toJson).bind fun rhs =>
        some (Predicate.or lhs rhs)) = _
      rw [left, right]
      rfl
  | not operand inner =>
      change (ofJson? operand.toJson).bind (fun operand => some (Predicate.not operand)) = _
      rw [inner]
      rfl

/-! ### The outermost object -/

theorem outermostTag_eq (text : List Char) : outermostTag text =
    (Json.byBracket (fun _ => .error .mismatched) (fun _ => .error .mismatched) text).bind
      fun read => match read.1 with
        | .string tag => if (Variant.ofTag? tag).isSome then .ok read else .error .mismatched
        | _ => .error .mismatched := by
  unfold outermostTag
  split
  · rename_i shape
    rw [Json.byBracket, shape]
    rfl
  · rename_i shape
    rw [Json.byBracket, shape]
    rfl
  · rename_i noArray noObject
    rw [Json.byBracket_scalar noArray noObject]
    rfl

theorem outermost_eq : outermost =
    Json.byBracket (Json.elements outermostTag (Json.value 126))
      (Json.members (outermostRule (Json.value 126))) := rfl

theorem outermostTag_takes {spell : Char → List Char} (reads : ReadsBack spell)
    (variant : Variant) (depth : Nat) :
    Takes outermostTag spell depth (.string variant.tag) := by
  intro rest
  have scalar := Json.scalar_string reads variant.tag rest
  have known : (Variant.ofTag? variant.tag).isSome = true := by
    rw [ofTag_tag]
    rfl
  rw [if_pos (show (Json.string variant.tag).nesting ≤ depth from Nat.zero_le depth)]
  change (Json.scalar (spelledString spell variant.tag ++ rest)).bind _ = _
  rw [scalar]
  change (if (Variant.ofTag? variant.tag).isSome then _ else _) = _
  rw [if_pos known]
  rfl

theorem outermostRule_takes {spell : Char → List Char} {inner : Json.Reader Json} {depth : Nat}
    {entry : String × Json} (otherKey : entry.1 ≠ tagKey)
    (takes : Takes inner spell depth entry.2) :
    RuleTakes (outermostRule inner) spell depth entry := by
  constructor
  · intro earlier
    simp [outermostRule, otherKey]
  · have reader : (outermostRule inner).value entry.1 = inner := if_neg otherKey
    rw [reader]
    exact takes

theorem outermost_object_spelled_append {spell : Char → List Char} (reads : ReadsBack spell)
    (variant : Variant) {entries : List (String × Json)} (textual : TextualMembers entries)
    (otherKeys : ∀ entry ∈ entries, entry.1 ≠ tagKey) (rest : List Char) :
    outermost (spelled spell (.object ((tagKey, .string variant.tag) :: entries)) ++ rest) =
      if (Json.object ((tagKey, .string variant.tag) :: entries)).nesting ≤ Json.nestingLimit then
        .ok (.object ((tagKey, .string variant.tag) :: entries), rest)
      else .error .malformed := by
  let rule := outermostRule (Json.value 126)
  have takesOthers : ∀ entry ∈ entries, RuleTakes rule spell 126 entry := by
    intro entry member
    exact outermostRule_takes (otherKeys entry member)
      (Json.members_take reads entries textual 126 entry member)
  have admitted : rule.admits [] tagKey = true := by decide
  have takes : Takes (rule.value tagKey) spell 126 (.string variant.tag) :=
    outermostTag_takes reads variant 126
  have taken := Json.members_spelled rule reads admitted takes takesOthers rest
  have text : spelled spell (.object ((tagKey, .string variant.tag) :: entries)) ++ rest =
      '\x7b' :: (spelledString spell tagKey ++ ':' :: spelled spell (.string variant.tag) ++
        spelledLaterMembers spell entries ++ '\x7d' :: rest) := by
    simp [spelled]
  have opened (text : List Char) : outermost ('\x7b' :: text) =
      Json.wrapTaken Json.object (Json.members rule text) := rfl
  rw [text, opened, taken]
  exact Json.wrapTaken_fits Json.object Json.nesting_object_le

theorem outermost_object_spelled {spell : Char → List Char} (reads : ReadsBack spell)
    (variant : Variant) {entries : List (String × Json)} (textual : TextualMembers entries)
    (otherKeys : ∀ entry ∈ entries, entry.1 ≠ tagKey) :
    outermost (spelled spell (.object ((tagKey, .string variant.tag) :: entries))) =
      if (Json.object ((tagKey, .string variant.tag) :: entries)).nesting ≤ Json.nestingLimit then
        .ok (.object ((tagKey, .string variant.tag) :: entries), [])
      else .error .malformed := by
  have alone := outermost_object_spelled_append reads variant textual otherKeys []
  rwa [List.append_nil] at alone

theorem outermost_spelled_append {spell : Char → List Char} (reads : ReadsBack spell)
    (predicate : Predicate) (rest : List Char) :
    outermost (spelled spell predicate.toJson ++ rest) =
      if predicate.nesting ≤ Json.nestingLimit then .ok (predicate.toJson, rest)
      else .error .malformed := by
  obtain ⟨variant, entries, shape, otherKeys⟩ := toJson_members predicate
  have textual := textual_toJson predicate
  rw [← toJson_nesting, shape]
  rw [shape] at textual
  exact outermost_object_spelled_append reads variant textual.2 otherKeys rest

theorem restoreCharacters_spelled_append {spell : Char → List Char} (reads : ReadsBack spell)
    (predicate : Predicate) (rest : List Char) :
    restoreCharacters (spelled spell predicate.toJson ++ rest) =
      if predicate.nesting ≤ Json.nestingLimit ∧ (Json.skipSpace rest).isEmpty = true then
        .ok predicate
      else .error .malformed := by
  rw [restoreCharacters, outermost_spelled_append reads]
  by_cases fits : predicate.nesting ≤ Json.nestingLimit
  · simp only [fits, true_and, if_true, bind, Except.bind, ofJson_toJson]
  · rw [if_neg fits, if_neg fun both => fits both.1]
    rfl

theorem restoreCharacters_spelled {spell : Char → List Char} (reads : ReadsBack spell)
    (predicate : Predicate) :
    restoreCharacters (spelled spell predicate.toJson) =
      if predicate.nesting ≤ Json.nestingLimit then .ok predicate else .error .malformed := by
  have alone := restoreCharacters_spelled_append reads predicate []
  simpa [show Json.skipSpace [] = [] from rfl] using alone

/-! ### The embedded form -/

/-- What a character of the stored text is after the quotes have been exchanged and exchanged
back. -/
def respelled (c : Char) : List Char :=
  (embedCharacter c).map unembedCharacter

theorem respelled_of_ne {c : Char} (plain : c ≠ '\'') : respelled c = [c] := by
  by_cases quote : c = '"'
  · rw [quote]
    rfl
  · rw [respelled, embedCharacter]
    · rw [List.map_singleton, unembedCharacter, if_neg plain]
    · exact quote
    · exact plain

theorem hexDigit_ne_quote {value : Nat} (small : value < 16) : Json.hexDigit value ≠ '\'' := by
  have all : ∀ value < 16, Json.hexDigit value ≠ '\'' := by decide
  exact all value small

theorem flatMap_respelled {text : List Char} (plain : ∀ c ∈ text, c ≠ '\'') :
    text.flatMap respelled = text := by
  induction text with
  | nil => rfl
  | cons c text ih =>
      rw [List.flatMap_cons, respelled_of_ne (plain c List.mem_cons_self),
        ih fun other member => plain other (List.mem_cons_of_mem c member)]
      rfl

theorem escape_ne_quote {c : Char} (plain : c ≠ '\'') : ∀ d ∈ Json.escape c, d ≠ '\'' := by
  have high : c.toNat < 0x20 → Json.hexDigit (c.toNat / 16) ≠ '\'' := fun control =>
    hexDigit_ne_quote (by omega)
  have low : c.toNat < 0x20 → Json.hexDigit (c.toNat % 16) ≠ '\'' := fun control =>
    hexDigit_ne_quote (by omega)
  rcases Json.escape_cases c with ⟨letter, written, _, _, noQuote⟩ | ⟨control, written⟩ |
    ⟨_, _, _, written⟩
  · simp [written, noQuote]
  · simp [written, high control, low control]
  · simp [written, plain]

theorem readsBack_respelled :
    ReadsBack fun c => (Json.escape c).flatMap respelled := by
  intro c rest
  by_cases quote : c = '\''
  · rw [quote]
    exact Json.character_unicode (show '\''.toNat < 256 by decide) rest
  · change Json.character ((Json.escape c).flatMap respelled ++ rest) = _
    rw [flatMap_respelled (escape_ne_quote quote)]
    exact Json.readsBack_escape c rest

/-! ### Round trips -/

theorem store_toList (predicate : Predicate) :
    predicate.store.toList = spelled Json.escape predicate.toJson := by
  rw [store, Json.compact_toList]

theorem embed_unembedded (predicate : Predicate) :
    predicate.embed.toList.map unembedCharacter =
      spelled (fun c => (Json.escape c).flatMap respelled) predicate.toJson := by
  rw [embed, String.toList_ofList, List.map_flatMap, store_toList]
  exact Json.spelled_flatMap (fun c plain => respelled_of_ne plain) (textual_toJson predicate)

theorem restore_store (predicate : Predicate) : restore predicate.store =
    if predicate.nesting ≤ Json.nestingLimit then .ok predicate else .error .malformed := by
  rw [restore, store_toList]
  exact restoreCharacters_spelled Json.readsBack_escape predicate

theorem extract_embed (predicate : Predicate) : extract predicate.embed =
    if predicate.nesting ≤ Json.nestingLimit then .ok predicate else .error .malformed := by
  rw [extract, embed_unembedded]
  exact restoreCharacters_spelled readsBack_respelled predicate

/-- The stored text and the embedded form hold their predicate, whatever its names are, exactly if
it nests no deeper than the reader admits; beyond that neither is taken for JSON. -/
theorem restored_within_limit (predicate : Predicate) :
    extract predicate.embed =
        (if predicate.nesting ≤ 127 then .ok predicate else .error .malformed) ∧
      restore predicate.store =
        (if predicate.nesting ≤ 127 then .ok predicate else .error .malformed) := by
  constructor
  · exact extract_embed predicate
  · exact restore_store predicate

/-! ### In an attribute

The embedded form begins with a brace and holds no double quote, so that it can stand in a quoted
attribute and is not taken for a literal there. -/

theorem quote_not_mem_embed (predicate : Predicate) : '"' ∉ predicate.embed.toList := by
  rw [embed, String.toList_ofList]
  intro member
  obtain ⟨c, _, inside⟩ := List.mem_flatMap.mp member
  unfold embedCharacter at inside
  split at inside
  · exact absurd inside (by decide)
  · exact absurd inside (by decide)
  · rename_i other _
    exact other (List.mem_singleton.mp inside).symm

theorem embed_begins (predicate : Predicate) :
    ∃ rest, predicate.embed.toList = '\x7b' :: rest := by
  obtain ⟨variant, entries, shape, _⟩ := toJson_members predicate
  rw [embed, String.toList_ofList, store_toList, shape]
  exact ⟨_, rfl⟩

end Predicate
end Permission
