import Mathlib.Data.List.Forall2
import Permission.Proofs.Storage

/-!
# Which values present a predicate

A value presents a predicate as an object or as an array, at each level as it likes, and a value is
read as a predicate exactly if it presents the predicate.  At the outermost level the tag is given
by its name.
-/

set_option autoImplicit false

namespace Permission
namespace Predicate

/-! ### Presentations -/

inductive Place where
  | outermost
  | inner

/-- The value names the variant: by its tag, and inside of another value also by its number. -/
inductive Tags : Place → Variant → Json → Prop where
  | name (place : Place) (variant : Variant) : Tags place variant (.string variant.tag)
  | number (variant : Variant) : Tags .inner variant (.number (toString variant.index))

def SoleMember (members : List (String × Json)) (key : String) (json : Json) : Prop :=
  members.filter (·.1 == key) = [(key, json)]

theorem SoleMember.mem {members : List (String × Json)} {key : String} {json : Json}
    (sole : SoleMember members key json) : (key, json) ∈ members := by
  have listed : (key, json) ∈ members.filter (·.1 == key) := by
    unfold SoleMember at sole
    rw [sole]
    exact List.mem_singleton_self _
  exact (List.mem_filter.mp listed).1

theorem SoleMember.eq_of_mem {members : List (String × Json)} {key : String} {json : Json}
    {entry : String × Json} (sole : SoleMember members key json) (member : entry ∈ members)
    (named : entry.1 = key) : entry = (key, json) := by
  have listed : entry ∈ members.filter (·.1 == key) :=
    List.mem_filter.mpr ⟨member, by simp [named]⟩
  unfold SoleMember at sole
  rwa [sole, List.mem_singleton] at listed

theorem SoleMember.count {members : List (String × Json)} {key : String} {json : Json}
    (sole : SoleMember members key json) : (members.map Prod.fst).count key = 1 := by
  have counted : (members.map Prod.fst).count key = (members.filter (·.1 == key)).length := by
    rw [List.count, List.countP_map, List.countP_eq_length_filter]
    rfl
  unfold SoleMember at sole
  rw [counted, sole]
  rfl

/-- A value with the given fields of a variant.  In an object each field and the tag stand once
under their keys, in any order and with any members under other keys; in an array the tag stands in
front of the fields in their order. -/
inductive LaysOut (place : Place) (variant : Variant) (fields : List Json) : Json → Prop where
  | object {members : List (String × Json)} {tag : Json} (tags : Tags place variant tag)
      (sole : SoleMember members tagKey tag)
      (each : List.Forall₂ (SoleMember members) variant.fields fields) :
      LaysOut place variant fields (.object members)
  | array {tag : Json} (tags : Tags place variant tag)
      (count : fields.length = variant.fields.length) :
      LaysOut place variant fields (.array (tag :: fields))

theorem LaysOut.field_mem {place : Place} {variant : Variant} {fields : List Json} {json : Json}
    (laid : LaysOut place variant fields json) {field : Json} (listed : field ∈ fields) :
    (∃ members key, json = .object members ∧ (key, field) ∈ members) ∨
      ∃ elements, json = .array elements ∧ field ∈ elements := by
  cases laid with
  | @object members _ _ _ soles =>
      refine .inl ⟨members, ?_⟩
      generalize variant.fields = keys at soles
      induction soles with
      | nil => cases listed
      | cons sole _ ih =>
          rcases List.mem_cons.mp listed with rfl | later
          · exact ⟨_, rfl, sole.mem⟩
          · exact ih later
  | @array tag => exact .inr ⟨tag :: fields, rfl, List.mem_cons_of_mem tag listed⟩

/-- A value that stands at the given place presents the predicate. -/
def PresentedBy : Predicate → Place → Json → Prop
  | .has name, place, json => LaysOut place .has [.string name] json
  | .anyOf names, place, json => LaysOut place .anyOf [.array (names.map .string)] json
  | .allOf names, place, json => LaysOut place .allOf [.array (names.map .string)] json
  | .and lhs rhs, place, json =>
    ∃ left right, LaysOut place .and [left, right] json ∧
      lhs.PresentedBy .inner left ∧ rhs.PresentedBy .inner right
  | .or lhs rhs, place, json =>
    ∃ left right, LaysOut place .or [left, right] json ∧
      lhs.PresentedBy .inner left ∧ rhs.PresentedBy .inner right
  | .not operand, place, json =>
    ∃ inner, LaysOut place .not [inner] json ∧ operand.PresentedBy .inner inner

/-! ### Parts -/

def partOf (json : Json) : Part :=
  { json, predicate? := ofJson? json }

theorem memberParts_eq_map (members : List (String × Json)) :
    memberParts members = members.map fun entry => (entry.1, partOf entry.2) := by
  induction members with
  | nil => rfl
  | cons entry others ih =>
      rw [memberParts, ih]
      rfl

theorem elementParts_eq_map (elements : List Json) :
    elementParts elements = elements.map partOf := by
  induction elements with
  | nil => rfl
  | cons first others ih =>
      rw [elementParts, ih]
      rfl

theorem unique_memberParts {key : String} {members : List (String × Json)} {part : Part} :
    unique? key (memberParts members) = some part ↔
      ∃ json, SoleMember members key json ∧ part = partOf json := by
  have listed : (memberParts members).filter (·.1 == key) =
      (members.filter (·.1 == key)).map fun entry => (entry.1, partOf entry.2) := by
    rw [memberParts_eq_map, List.filter_map]
    rfl
  unfold unique? SoleMember
  rw [listed]
  constructor
  · intro found
    split at found
    · rename_i shape
      cases found
      obtain ⟨entry, sole, same⟩ := List.map_eq_singleton_iff.mp shape
      have named := List.mem_filter.mp (sole ▸ List.mem_singleton_self entry)
      cases same
      refine ⟨entry.2, ?_, rfl⟩
      rw [sole, ← eq_of_beq named.2]
    · cases found
  · rintro ⟨json, sole, rfl⟩
    rw [sole]
    rfl

theorem mapM_unique_memberParts {keys : List String} {members : List (String × Json)}
    {parts : List Part} :
    keys.mapM (unique? · (memberParts members)) = some parts ↔
      ∃ fields, List.Forall₂ (SoleMember members) keys fields ∧ parts = fields.map partOf := by
  induction keys generalizing parts with
  | nil => simp [eq_comm]
  | cons key keys ih =>
      simp only [List.mapM_cons, bind, Option.bind_eq_some_iff, unique_memberParts, ih]
      constructor
      · rintro ⟨_, ⟨json, sole, rfl⟩, _, ⟨fields, each, rfl⟩, same⟩
        cases same
        exact ⟨json :: fields, .cons sole each, rfl⟩
      · rintro ⟨_, each, rfl⟩
        cases each with
        | cons sole each => exact ⟨_, ⟨_, sole, rfl⟩, _, ⟨_, each, rfl⟩, rfl⟩

def ofFields? : Variant → List Part → Option Predicate
  | .has, [part] => do return .has (← part.text?)
  | .anyOf, [part] => do return .anyOf (← part.texts?)
  | .allOf, [part] => do return .allOf (← part.texts?)
  | .and, [left, right] => do return .and (← left.predicate?) (← right.predicate?)
  | .or, [left, right] => do return .or (← left.predicate?) (← right.predicate?)
  | .not, [part] => do return .not (← part.predicate?)
  | _, _ => none

theorem assemble_eq (variant : Variant) (parts : List (String × Part)) :
    assemble? variant parts =
      (variant.fields.mapM (unique? · parts)).bind (ofFields? variant) := by
  cases variant with
  | has | anyOf | allOf | not =>
      simp only [assemble?, Variant.fields, List.mapM_cons, List.mapM_nil]
      cases unique? _ parts <;> rfl
  | and | or =>
      simp only [assemble?, Variant.fields, List.mapM_cons, List.mapM_nil]
      cases unique? "lhs" parts with
      | none => rfl
      | some left =>
          cases unique? "rhs" parts with
          | none => cases left.predicate? <;> simp
          | some right => rfl

theorem assemble_zip {variant : Variant} {parts : List Part}
    (count : parts.length = variant.fields.length) :
    assemble? variant (variant.fields.zip parts) = ofFields? variant parts := by
  rw [assemble_eq]
  cases variant with
  | has | anyOf | allOf | not =>
      obtain ⟨part, rfl⟩ := List.length_eq_one_iff.mp count
      rfl
  | and | or =>
      obtain ⟨left, right, rfl⟩ := List.length_eq_two.mp count
      rfl

theorem variant_ofJson {json : Json} {variant : Variant} :
    Variant.ofJson? json = some variant ↔ Tags .inner variant json := by
  constructor
  · intro found
    cases json with
    | string text =>
        have same := List.find?_some found
        rw [← eq_of_beq same]
        exact .name .inner variant
    | number literal =>
        have same := List.find?_some found
        rw [← eq_of_beq same]
        exact .number variant
    | _ => cases found
  · rintro (_ | _)
    · exact ofTag_tag variant
    · cases variant <;> decide

theorem ofJson_eq_some {json : Json} {predicate : Predicate} :
    ofJson? json = some predicate ↔ ∃ variant fields, LaysOut .inner variant fields json ∧
      ofFields? variant (fields.map partOf) = some predicate := by
  cases json with
  | object members =>
      simp only [ofJson?, ofMembers?, bind, Option.bind_eq_some_iff, unique_memberParts,
        variant_ofJson, assemble_eq, mapM_unique_memberParts]
      constructor
      · rintro ⟨_, ⟨tag, sole, rfl⟩, variant, tags, _, ⟨fields, each, rfl⟩, filled⟩
        exact ⟨variant, fields, .object tags sole each, filled⟩
      · rintro ⟨variant, fields, _ | _, filled⟩
        rename_i tag tags sole each
        exact ⟨_, ⟨tag, sole, rfl⟩, variant, tags, _, ⟨fields, each, rfl⟩, filled⟩
  | array elements =>
      cases elements with
      | nil =>
          constructor
          · nofun
          · rintro ⟨variant, fields, _ | _, filled⟩
      | cons tag elements =>
          have count (variant : Variant) :
              ((elements.map partOf).length = variant.fields.length ↔
                elements.length = variant.fields.length) := by rw [List.length_map]
          simp only [ofJson?, elementParts, ofElements?, bind, Option.bind_eq_some_iff,
            variant_ofJson, elementParts_eq_map, Option.ite_none_right_eq_some]
          constructor
          · rintro ⟨variant, tags, counted, assembled⟩
            rw [assemble_zip counted] at assembled
            exact ⟨variant, elements, .array tags ((count variant).mp counted), assembled⟩
          · rintro ⟨variant, fields, _ | ⟨tags, counted⟩, filled⟩
            have counted := (count variant).mpr counted
            exact ⟨variant, tags, counted, (assemble_zip counted).trans filled⟩
  | _ =>
      constructor
      · nofun
      · rintro ⟨variant, fields, _ | _, filled⟩

theorem text_partOf {json : Json} {text : String} :
    (partOf json).text? = some text ↔ json = .string text := by
  cases json <;> simp [Part.text?, partOf]

theorem mapM_texts {elements : List Json} {names : List String}
    (found : (elements.mapM fun
      | .string text => some text
      | _ => none) = some names) : elements = names.map .string := by
  induction elements generalizing names with
  | nil =>
      cases found
      rfl
  | cons first others ih =>
      rw [List.mapM_cons] at found
      obtain ⟨text, here, found⟩ := Option.bind_eq_some_iff.mp found
      obtain ⟨later, behind, same⟩ := Option.bind_eq_some_iff.mp found
      cases same
      rw [List.map_cons, ← ih behind]
      cases first <;> cases here
      rfl

theorem texts_partOf {json : Json} {names : List String} :
    (partOf json).texts? = some names ↔ json = .array (names.map .string) := by
  constructor
  · intro found
    cases json with
    | array elements => exact congrArg Json.array (mapM_texts found)
    | _ => cases found
  · rintro rfl
    exact texts_strings names _

inductive Fills : Variant → List Json → Predicate → Prop where
  | has (name : String) : Fills .has [.string name] (.has name)
  | anyOf (names : List String) : Fills .anyOf [.array (names.map .string)] (.anyOf names)
  | allOf (names : List String) : Fills .allOf [.array (names.map .string)] (.allOf names)
  | and {left right : Json} {lhs rhs : Predicate} (first : ofJson? left = some lhs)
      (second : ofJson? right = some rhs) : Fills .and [left, right] (.and lhs rhs)
  | or {left right : Json} {lhs rhs : Predicate} (first : ofJson? left = some lhs)
      (second : ofJson? right = some rhs) : Fills .or [left, right] (.or lhs rhs)
  | not {inner : Json} {operand : Predicate} (presented : ofJson? inner = some operand) :
      Fills .not [inner] (.not operand)

theorem map_eq_pair {α β : Type} {change : α → β} {list : List α} {first second : β}
    (same : list.map change = [first, second]) :
    ∃ left right, list = [left, right] ∧ change left = first ∧ change right = second := by
  obtain ⟨left, others, rfl, here, behind⟩ := List.map_eq_cons_iff.mp same
  obtain ⟨right, rfl, there⟩ := List.map_eq_singleton_iff.mp behind
  exact ⟨left, right, rfl, here, there⟩

theorem ofFields_iff {variant : Variant} {fields : List Json} {predicate : Predicate} :
    ofFields? variant (fields.map partOf) = some predicate ↔ Fills variant fields predicate := by
  constructor
  · intro filled
    generalize listed : fields.map partOf = parts at filled
    unfold ofFields? at filled
    split at filled
    · obtain ⟨json, rfl, rfl⟩ := List.map_eq_singleton_iff.mp listed
      obtain ⟨name, taken, same⟩ := Option.bind_eq_some_iff.mp filled
      cases same
      rw [text_partOf.mp taken]
      exact .has name
    · obtain ⟨json, rfl, rfl⟩ := List.map_eq_singleton_iff.mp listed
      obtain ⟨names, taken, same⟩ := Option.bind_eq_some_iff.mp filled
      cases same
      rw [texts_partOf.mp taken]
      exact .anyOf names
    · obtain ⟨json, rfl, rfl⟩ := List.map_eq_singleton_iff.mp listed
      obtain ⟨names, taken, same⟩ := Option.bind_eq_some_iff.mp filled
      cases same
      rw [texts_partOf.mp taken]
      exact .allOf names
    · obtain ⟨left, right, rfl, rfl, rfl⟩ := map_eq_pair listed
      obtain ⟨lhs, first, filled⟩ := Option.bind_eq_some_iff.mp filled
      obtain ⟨rhs, second, same⟩ := Option.bind_eq_some_iff.mp filled
      cases same
      exact .and first second
    · obtain ⟨left, right, rfl, rfl, rfl⟩ := map_eq_pair listed
      obtain ⟨lhs, first, filled⟩ := Option.bind_eq_some_iff.mp filled
      obtain ⟨rhs, second, same⟩ := Option.bind_eq_some_iff.mp filled
      cases same
      exact .or first second
    · obtain ⟨json, rfl, rfl⟩ := List.map_eq_singleton_iff.mp listed
      obtain ⟨operand, inner, same⟩ := Option.bind_eq_some_iff.mp filled
      cases same
      exact .not inner
    · cases filled
  · rintro (_ | _ | _ | ⟨first, second⟩ | ⟨first, second⟩ | ⟨inner⟩)
    · rfl
    · simp [ofFields?, texts_partOf.mpr rfl]
    · simp [ofFields?, texts_partOf.mpr rfl]
    · simp [ofFields?, partOf, first, second]
    · simp [ofFields?, partOf, first, second]
    · simp [ofFields?, partOf, inner]

theorem ofJson_iff_fills {json : Json} {predicate : Predicate} :
    ofJson? json = some predicate ↔
      ∃ variant fields, LaysOut .inner variant fields json ∧ Fills variant fields predicate := by
  simp only [ofJson_eq_some, ofFields_iff]

theorem ofJson_iff_presented {json : Json} {predicate : Predicate} :
    ofJson? json = some predicate ↔ predicate.PresentedBy .inner json := by
  induction predicate generalizing json with
  | has name | anyOf names | allOf names =>
      rw [ofJson_iff_fills]
      constructor
      · rintro ⟨_, _, laid, _ | _⟩
        exact laid
      · intro laid
        exact ⟨_, _, laid, by constructor⟩
  | and lhs rhs left right =>
      rw [ofJson_iff_fills]
      constructor
      · rintro ⟨_, _, laid, filled⟩
        cases filled with
        | and first second => exact ⟨_, _, laid, left.mp first, right.mp second⟩
      · rintro ⟨_, _, laid, first, second⟩
        exact ⟨_, _, laid, .and (left.mpr first) (right.mpr second)⟩
  | or lhs rhs left right =>
      rw [ofJson_iff_fills]
      constructor
      · rintro ⟨_, _, laid, filled⟩
        cases filled with
        | or first second => exact ⟨_, _, laid, left.mp first, right.mp second⟩
      · rintro ⟨_, _, laid, first, second⟩
        exact ⟨_, _, laid, .or (left.mpr first) (right.mpr second)⟩
  | not operand inner =>
      rw [ofJson_iff_fills]
      constructor
      · rintro ⟨_, _, laid, filled⟩
        cases filled with
        | not presented => exact ⟨_, laid, inner.mp presented⟩
      · rintro ⟨_, laid, presented⟩
        exact ⟨_, _, laid, .not (inner.mpr presented)⟩

end Predicate
end Permission
