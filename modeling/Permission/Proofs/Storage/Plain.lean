import Permission.Proofs.Storage.Names

/-!
# Extracting from the stored text

The embedded form exchanges the quotes, and extracting exchanges them back, whatever text it is
given.  The stored text of a predicate has single quotes only in names.  A text without any is left
as it is; a name with one is not read back, for no string of the exchanged text has a single quote.
-/

set_option autoImplicit false

namespace Permission
namespace Predicate

open Json (AllTexts Composed PassedOn)

/-! ### Stored texts -/

/-- The keys and the tags of stored objects. -/
def fixedTexts : List String :=
  tagKey :: Variant.all.flatMap fun variant => variant.tag :: variant.fields

theorem allTexts_stored {good : String → Prop} (fixed : ∀ text ∈ fixedTexts, good text)
    (variant : Variant) {entries : List (String × Json)}
    (each : ∀ entry ∈ entries, entry.1 ∈ variant.fields ∧ AllTexts good entry.2) :
    AllTexts good (.object ((tagKey, .string variant.tag) :: entries)) := by
  have listed : ∀ text ∈ variant.tag :: variant.fields, text ∈ fixedTexts := by
    intro text member
    have known : variant ∈ Variant.all := by cases variant <;> decide
    exact List.mem_cons_of_mem _ (List.mem_flatMap.mpr ⟨variant, known, member⟩)
  have tag := fixed variant.tag (listed _ List.mem_cons_self)
  rw [Json.allTexts_object]
  refine List.forall_mem_cons.mpr ⟨⟨fixed tagKey List.mem_cons_self, ?_⟩, ?_⟩
  · exact Json.allTexts_string.mpr tag
  · intro entry member
    obtain ⟨field, value⟩ := each entry member
    exact ⟨fixed entry.1 (listed entry.1 (List.mem_cons_of_mem _ field)), value⟩

theorem allTexts_names {good : String → Prop} {names : List String}
    (named : ∀ name ∈ names, good name) : AllTexts good (.array (names.map .string)) := by
  rw [Json.allTexts_array]
  intro element member
  obtain ⟨name, listed, rfl⟩ := List.mem_map.mp member
  exact Json.allTexts_string.mpr (named name listed)

theorem allTexts_toJson {good : String → Prop} (fixed : ∀ text ∈ fixedTexts, good text)
    (predicate : Predicate) (named : ∀ name ∈ predicate.leaves, good name) :
    AllTexts good predicate.toJson := by
  induction predicate with
  | has name =>
      have text := Json.allTexts_string.mpr (named name (List.mem_singleton_self name))
      exact allTexts_stored fixed .has (by simp [Variant.fields, text])
  | anyOf names =>
      have texts : AllTexts good (.array (names.map .string)) := allTexts_names named
      exact allTexts_stored fixed .anyOf (by simp [Variant.fields, texts])
  | allOf names =>
      have texts : AllTexts good (.array (names.map .string)) := allTexts_names named
      exact allTexts_stored fixed .allOf (by simp [Variant.fields, texts])
  | and lhs rhs left right =>
      obtain ⟨here, there⟩ := List.forall_mem_append.mp named
      have first := left here
      have second := right there
      exact allTexts_stored fixed .and (by simp [Variant.fields, first, second])
  | or lhs rhs left right =>
      obtain ⟨here, there⟩ := List.forall_mem_append.mp named
      have first := left here
      have second := right there
      exact allTexts_stored fixed .or (by simp [Variant.fields, first, second])
  | not operand ih =>
      exact allTexts_stored fixed .not (by simp [Variant.fields, ih named])

theorem quote_not_mem_store {predicate : Predicate}
    (plain : ∀ name ∈ predicate.leaves, '\'' ∉ name.toList) : '\'' ∉ predicate.store.toList := by
  have composed : Composed fun text => '\'' ∉ text := by
    refine ⟨nofun, ?_, by simp⟩
    intro first second left right member
    rcases List.mem_append.mp member with inside | inside
    · exact left inside
    · exact right inside
  have texts : AllTexts (fun text => '\'' ∉ text.toList) predicate.toJson :=
    allTexts_toJson (by decide) predicate plain
  rw [store_toList]
  apply composed.spelled (textual_toJson predicate)
  intro text member c inside quoted
  have other : c ≠ '\'' := by
    intro same
    rw [same] at inside
    exact texts text member inside
  exact escape_ne_quote other _ quoted rfl

theorem map_unembed_of_plain {text : List Char} (plain : '\'' ∉ text) :
    text.map unembedCharacter = text := by
  have kept : ∀ c ∈ text, unembedCharacter c = id c := by
    intro c member
    have other : c ≠ '\'' := fun quote => plain (quote ▸ member)
    exact if_neg other
  rw [List.map_congr_left kept, List.map_id]

/-! ### Exchanged texts -/

/-- Characters as they are, escaped by a letter, or below U+0020 and escaped by their code point.
There is no single quote among them, escaped or not. -/
inductive Escaped : List Char → Prop where
  | nil : Escaped []
  | plain {c : Char} {later : List Char} (noBackslash : c ≠ '\\') (noQuote : c ≠ '\'') :
      Escaped later → Escaped (c :: later)
  | letter {letter c : Char} {later : List Char} (stands : Json.letterEscape? letter = some c)
      (noUnicode : letter ≠ 'u') : Escaped later → Escaped ('\\' :: letter :: later)
  | control {c : Char} {later : List Char} (low : c.toNat < 0x20) :
      Escaped later → Escaped ('\\' :: 'u' :: '0' :: '0' :: Json.hexDigit (c.toNat / 16) ::
        Json.hexDigit (c.toNat % 16) :: later)

theorem Escaped.append {first second : List Char} (before : Escaped first)
    (after : Escaped second) : Escaped (first ++ second) := by
  induction before with
  | nil => exact after
  | plain noBackslash noQuote _ ih => exact .plain noBackslash noQuote ih
  | letter stands noUnicode _ ih => exact .letter stands noUnicode ih
  | control low _ ih => exact .control low ih

theorem Escaped.next {c : Char} {text : List Char} (noBackslash : c ≠ '\\')
    (escaped : Escaped (c :: text)) : Escaped text := by
  cases escaped with
  | plain _ _ later => exact later
  | letter => exact absurd rfl noBackslash
  | control => exact absurd rfl noBackslash

theorem letterEscape_ne_quote {letter c : Char} (stands : Json.letterEscape? letter = some c) :
    c ≠ '\'' := by
  unfold Json.letterEscape? at stands
  split at stands <;> cases stands <;> decide

theorem Escaped.character {text rest : List Char} {taken : Option Char} (escaped : Escaped text)
    (read : Json.character text = .ok (taken, rest)) :
    taken ≠ some '\'' ∧ Escaped rest := by
  cases escaped with
  | nil => cases read
  | @plain c later noBackslash noQuote escaped =>
      -- A double quote ends the string, also one that was a single quote before the exchange.
      by_cases quote : c = '"'
      · subst quote
        cases read
        exact ⟨nofun, escaped⟩
      · rw [Json.character] at read
        · split at read
          · cases read
          · cases read
            exact ⟨by simpa using noQuote, escaped⟩
        · exact quote
        · exact noBackslash
  | @letter letter c later stands noUnicode escaped =>
      have single : Json.escaped (letter :: later) = .ok (c, later) := by
        rw [Json.escaped, stands]
        exact noUnicode
      obtain ⟨⟨_, _⟩, found, read⟩ := ok_of_bind read
      rw [single] at found
      cases found
      cases read
      exact ⟨by simpa using letterEscape_ne_quote stands, escaped⟩
  | @control c later low escaped =>
      rw [Json.character_unicode (by omega)] at read
      cases read
      refine ⟨?_, escaped⟩
      intro same
      cases same
      exact absurd low (by decide)

theorem Escaped.passedOn : PassedOn Escaped fun text => '\'' ∉ text.toList := by
  refine ⟨Escaped.next, ?_⟩
  intro text
  fun_induction Json.characters text with
  | case1 text fault failed =>
      intro _ taken rest read
      cases read
  | case2 text left ended =>
      intro escaped taken rest read
      cases read
      exact ⟨by simp, (escaped.character ended).2⟩
  | case3 text c left here ih =>
      intro escaped taken rest read
      obtain ⟨plain, behind⟩ := escaped.character here
      obtain ⟨⟨others, left'⟩, found, read⟩ := ok_of_bind read
      obtain ⟨later, stays⟩ := ih behind others left' found
      cases read
      refine ⟨?_, stays⟩
      rw [String.toList_ofList] at later ⊢
      intro member
      rcases List.mem_cons.mp member with same | inside
      · exact plain (congrArg some same.symm)
      · exact later inside

theorem escape_unembedded (c : Char) : Escaped ((Json.escape c).map unembedCharacter) := by
  -- The single quote is the only character that the exchange changes in what is written for it.
  by_cases quote : c = '\''
  · rw [quote]
    exact .plain (c := '"') (by decide) (by decide) .nil
  · have plain : '\'' ∉ Json.escape c := fun member => escape_ne_quote quote _ member rfl
    rw [map_unembed_of_plain plain]
    rcases Json.escape_cases c with ⟨letter, written, stands, noUnicode, _⟩ | ⟨low, written⟩ |
      ⟨_, noBackslash, _, written⟩
    · rw [written]
      exact .letter stands noUnicode .nil
    · rw [written]
      exact .control low .nil
    · rw [written]
      exact .plain noBackslash quote .nil

theorem store_unembedded (predicate : Predicate) :
    Escaped (predicate.store.toList.map unembedCharacter) := by
  have composed : Composed fun text => Escaped (text.map unembedCharacter) := by
    refine ⟨.nil, ?_, ?_⟩
    · intro first second before after
      rw [List.map_append]
      exact before.append after
    · intro c framed
      have other : ∀ c ∈ Json.framing, unembedCharacter c ≠ '\\' ∧ unembedCharacter c ≠ '\'' := by
        simp [unembedCharacter]
      exact .plain (other c framed).1 (other c framed).2 .nil
  rw [store_toList]
  exact composed.spelled (textual_toJson predicate) fun _ _ c _ => escape_unembedded c

/-! ### What is extracted -/

theorem extract_store_plain {predicate extracted : Predicate}
    (done : extract predicate.store = .ok extracted) :
    ∀ name ∈ extracted.leaves, '\'' ∉ name.toList :=
  restoreCharacters_good Escaped.passedOn (store_unembedded predicate) done

theorem extract_store_of_plain {predicate : Predicate}
    (plain : ∀ name ∈ predicate.leaves, '\'' ∉ name.toList) :
    extract predicate.store = restore predicate.store := by
  rw [extract, map_unembed_of_plain (quote_not_mem_store plain), restore]

/-- Extracting from the stored text does what restoring from it does if no name has a single quote,
and gives the predicate back only then. -/
theorem extract_store (predicate : Predicate) :
    ((∀ name ∈ predicate.leaves, '\'' ∉ name.toList) →
        extract predicate.store = restore predicate.store) ∧
      (extract predicate.store = .ok predicate ↔
        restore predicate.store = .ok predicate ∧
          ∀ name ∈ predicate.leaves, '\'' ∉ name.toList) := by
  refine ⟨extract_store_of_plain, ?_, ?_⟩
  · intro done
    have plain := extract_store_plain done
    rw [extract_store_of_plain plain] at done
    exact ⟨done, plain⟩
  · intro ⟨restored, plain⟩
    rw [extract_store_of_plain plain]
    exact restored

/-- A name that ends its string and goes on with a member of its own is extracted as another
name. -/
theorem quotedName_not_extracted :
    restore (Predicate.has "a','x':'b").store = .ok (.has "a','x':'b") ∧
      extract (Predicate.has "a','x':'b").store = .ok (.has "a") := by
  constructor
  · exact restore_store (.has "a','x':'b")
  · let entries := [("val", Json.string "a"), ("x", Json.string "b")]
    have exchanged : (Predicate.has "a','x':'b").store.toList.map unembedCharacter =
        Json.spelled Json.escape (.object ((tagKey, .string Variant.has.tag) :: entries)) := by
      decide
    have textual : Json.TextualMembers entries := ⟨trivial, trivial, trivial⟩
    have otherKeys : ∀ entry ∈ entries, entry.1 ≠ tagKey := by decide
    rw [extract, exchanged, restoreCharacters,
      outermost_object_spelled Json.readsBack_escape .has textual otherKeys]
    rfl

end Predicate
end Permission
