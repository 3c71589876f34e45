import Permission.Proofs.Json.Spelling

/-!
# The texts in a value

The texts in a value are its strings and the keys of its members.  What is written for a value
consists of what is written for the characters of these, and of fixed characters around them.
-/

set_option autoImplicit false

namespace Permission
namespace Json

mutual

def texts : Json → List String
  | .string text => [text]
  | .array elements => elementTexts elements
  | .object members => memberTexts members
  | _ => []

def elementTexts : List Json → List String
  | [] => []
  | first :: others => first.texts ++ elementTexts others

def memberTexts : List (String × Json) → List String
  | [] => []
  | (key, value) :: others => key :: (value.texts ++ memberTexts others)

end

theorem elementTexts_eq_flatMap (elements : List Json) :
    elementTexts elements = elements.flatMap texts := by
  induction elements with
  | nil => rfl
  | cons first others ih => rw [elementTexts, ih, List.flatMap_cons]

theorem memberTexts_eq_flatMap (members : List (String × Json)) :
    memberTexts members = members.flatMap fun entry => entry.1 :: entry.2.texts := by
  induction members with
  | nil => rfl
  | cons entry others ih =>
      rw [memberTexts, ih, List.flatMap_cons]
      rfl

/-! ### What is written -/

@[simp]
def framing : List Char :=
  ['"', ',', ':', '[', ']', '\x7b', '\x7d', 'n', 'u', 'l', 't', 'r', 'e', 'f', 'a', 's']

/-- A property of what is written that holds of texts put together from parts with it, and of the
characters around texts. -/
structure Composed (property : List Char → Prop) : Prop where
  nil : property []
  append : ∀ {first second}, property first → property second → property (first ++ second)
  framing : ∀ c ∈ framing, property [c]

section

variable {property : List Char → Prop} (composed : Composed property)

include composed

theorem Composed.cons {c : Char} {text : List Char} (framed : c ∈ Json.framing)
    (later : property text) : property (c :: text) :=
  composed.append (composed.framing c framed) later

theorem Composed.framed : ∀ {text : List Char}, (∀ c ∈ text, c ∈ Json.framing) → property text
  | [], _ => composed.nil
  | c :: _, framed =>
      composed.cons (framed c List.mem_cons_self)
        (Composed.framed fun d member => framed d (List.mem_cons_of_mem c member))

variable {spell : Char → List Char}

theorem Composed.characters {characters : List Char}
    (written : ∀ c ∈ characters, property (spell c)) : property (characters.flatMap spell) := by
  induction characters with
  | nil => exact composed.nil
  | cons c others ih =>
      obtain ⟨here, later⟩ := List.forall_mem_cons.mp written
      rw [List.flatMap_cons]
      exact composed.append here (ih later)

theorem Composed.string {text : String} (written : ∀ c ∈ text.toList, property (spell c)) :
    property (spelledString spell text) :=
  composed.cons (by simp)
    (composed.append (composed.characters written) (composed.framed (by simp)))

theorem Composed.entry {key : String} {value : List Char}
    (written : ∀ c ∈ key.toList, property (spell c)) (inner : property value) :
    property (spelledString spell key ++ ':' :: value) :=
  composed.append (composed.string written) (composed.cons (by simp) inner)

mutual

/-- What is written for a value has a property if what is written for each character of its texts
has it. -/
theorem Composed.spelled : ∀ {json : Json}, Textual json →
    (∀ text ∈ json.texts, ∀ c ∈ text.toList, property (spell c)) → property (spelled spell json)
  | .null, _, _ => show property ['n', 'u', 'l', 'l'] from composed.framed (by simp)
  | .bool true, _, _ => show property ['t', 'r', 'u', 'e'] from composed.framed (by simp)
  | .bool false, _, _ => show property ['f', 'a', 'l', 's', 'e'] from composed.framed (by simp)
  | .number _, textual, _ => textual.elim
  | .string text, _, written => composed.string (written text (List.mem_singleton_self text))
  | .array [], _, _ => show property ['[', ']'] from composed.framed (by simp)
  | .array (first :: others), textual, written => by
      obtain ⟨here, later⟩ := List.forall_mem_append.mp written
      have inner := composed.append (Composed.spelled textual.1 here)
        (Composed.spelledLater textual.2 later)
      exact composed.cons (by simp) (composed.append inner (composed.framed (by simp)))
  | .object [], _, _ => show property ['\x7b', '\x7d'] from composed.framed (by simp)
  | .object ((key, value) :: others), textual, written => by
      obtain ⟨named, below⟩ := List.forall_mem_cons.mp written
      obtain ⟨here, later⟩ := List.forall_mem_append.mp below
      have first := composed.entry named (Composed.spelled textual.1 here)
      have inner := composed.append first (Composed.spelledLaterMembers textual.2 later)
      exact composed.cons (by simp) (composed.append inner (composed.framed (by simp)))

theorem Composed.spelledLater : ∀ {elements : List Json}, Textuals elements →
    (∀ text ∈ elementTexts elements, ∀ c ∈ text.toList, property (spell c)) →
      property (spelledLater spell elements)
  | [], _, _ => composed.nil
  | first :: others, textual, written => by
      obtain ⟨here, later⟩ := List.forall_mem_append.mp written
      exact composed.cons (by simp) (composed.append (Composed.spelled textual.1 here)
        (Composed.spelledLater textual.2 later))

theorem Composed.spelledLaterMembers : ∀ {members : List (String × Json)},
    TextualMembers members →
      (∀ text ∈ memberTexts members, ∀ c ∈ text.toList, property (spell c)) →
        property (spelledLaterMembers spell members)
  | [], _, _ => composed.nil
  | (key, value) :: others, textual, written => by
      obtain ⟨named, below⟩ := List.forall_mem_cons.mp written
      obtain ⟨here, later⟩ := List.forall_mem_append.mp below
      have first := composed.entry named (Composed.spelled textual.1 here)
      exact composed.cons (by simp)
        (composed.append first (Composed.spelledLaterMembers textual.2 later))

end

end

end Json
end Permission
