import Permission.Markup.Rewriting
import Permission.Proofs.Attempts
import Permission.Proofs.Markup.Directive

/-!
# What values hold

A value is a literal, a template literal or neither, as its characters say; a literal is replaced
if its expression compiles, and is a fault like every template literal if not.  Main statement:
`Markup.rewriteValues_eq_ok_iff`, which gives the result of rewriting the values of a text as a
whole.
-/

set_option autoImplicit false

namespace Permission
namespace Markup

/-- An expression in single quotes, with blanks around it and no further single quote. -/
structure IsLiteral (value before expression after : List Char) : Prop where
  whole : value = before ++ '\'' :: (expression ++ '\'' :: after)
  blankBefore : ∀ c ∈ before, Text.isBlank c = true
  blankAfter : ∀ c ∈ after, Text.isBlank c = true
  noQuote : '\'' ∉ expression

/-- A backtick after the given blanks. -/
def IsTemplate (value before : List Char) : Prop :=
  (∀ c ∈ before, Text.isBlank c = true) ∧ ∃ rest, value = before ++ '`' :: rest

/-! ### How values are told apart -/

theorem unquoted?_eq_some_iff {text expression : List Char} :
    unquoted? text = some expression ↔
      text = '\'' :: (expression ++ ['\'']) ∧ '\'' ∉ expression := by
  constructor
  · intro found
    unfold unquoted? at found
    split at found
    · rename_i rest
      split at found
      · rename_i closed
        cases found
        obtain ⟨inside, rfl⟩ := List.getLast?_eq_some_iff.mp closed.1
        rw [List.dropLast_concat] at closed ⊢
        exact ⟨rfl, closed.2⟩
      · cases found
    · cases found
  · rintro ⟨rfl, noQuote⟩
    rw [unquoted?, List.dropLast_concat, List.getLast?_concat, if_pos ⟨rfl, noQuote⟩]

theorem trimEnd_head {text : List Char} {c : Char} (stops : Text.isBlank c = false) :
    (Text.trimEnd (c :: text)).head? = some c := by
  obtain ⟨blanks, blank, whole⟩ := Text.trimEnd_split (c :: text)
  cases trimmed : Text.trimEnd (c :: text) with
  | nil =>
      rw [trimmed] at whole
      have member : c ∈ blanks := by
        rw [List.nil_append] at whole
        rw [← whole]
        exact List.mem_cons_self
      rw [blank c member] at stops
      cases stops
  | cons first others =>
      rw [trimmed] at whole
      rw [(List.cons.inj whole).1]
      rfl

/-- A value is its blanks and what they enclose, and only the latter decides what it holds. -/
theorem ofValue_trimmed (value : List Char) :
    ∃ before trimmed after, value = before ++ (trimmed ++ after) ∧
      (∀ c ∈ before, Text.isBlank c = true) ∧ (∀ c ∈ after, Text.isBlank c = true) ∧
      Content.ofValue value =
        if trimmed.head? = some '`' then .template before
        else
          match unquoted? trimmed with
          | some expression => .literal before expression after
          | none => .other := by
  obtain ⟨blanks, blank, inner⟩ := Text.trimEnd_split (Text.trimStart value)
  have rest :
      (Text.trimStart value).drop (Text.trimEnd (Text.trimStart value)).length = blanks := by
    have dropped := congrArg (List.drop (Text.trimEnd (Text.trimStart value)).length) inner
    rwa [List.drop_left] at dropped
  refine ⟨Text.leadingBlanks value, Text.trimEnd (Text.trimStart value), blanks, ?_,
    Text.isBlank_of_mem_leadingBlanks, blank, ?_⟩
  · rw [← inner, Text.leadingBlanks_append_trimStart]
  · rw [← rest]
    rfl

theorem ofValue_template_iff {value before : List Char} :
    Content.ofValue value = .template before ↔ IsTemplate value before := by
  constructor
  · intro found
    obtain ⟨blanks, trimmed, after, whole, blank, _, content⟩ := ofValue_trimmed value
    rw [content] at found
    split at found
    · rename_i backtick
      cases found
      obtain ⟨others, first⟩ := List.head?_eq_some_iff.mp backtick
      exact ⟨blank, others ++ after, by rw [whole, first, List.cons_append]⟩
    · split at found <;> cases found
  · rintro ⟨blank, rest, rfl⟩
    have stops : Text.isBlank '`' = false := by decide
    rw [Content.ofValue, Text.trimStart_append blank stops, Text.leadingBlanks_append blank stops]
    exact if_pos (trimEnd_head stops)

theorem ofValue_literal_iff {value before expression after : List Char} :
    Content.ofValue value = .literal before expression after ↔
      IsLiteral value before expression after := by
  constructor
  · intro found
    obtain ⟨blanks, trimmed, rest, whole, blankBefore, blankAfter, content⟩ :=
      ofValue_trimmed value
    rw [content] at found
    split at found
    · cases found
    · split at found
      · rename_i unquoted
        cases found
        obtain ⟨quoted, noQuote⟩ := unquoted?_eq_some_iff.mp unquoted
        refine ⟨?_, blankBefore, blankAfter, noQuote⟩
        rw [whole, quoted]
        simp
      · cases found
  · rintro ⟨rfl, blankBefore, blankAfter, noQuote⟩
    have stops : Text.isBlank '\'' = false := by decide
    have trimmed : Text.trimEnd ('\'' :: (expression ++ '\'' :: after)) =
        '\'' :: (expression ++ ['\'']) := by
      rw [← List.cons_append, Text.trimEnd_append blankAfter stops, List.cons_append]
    have unquoted : unquoted? ('\'' :: (expression ++ ['\''])) = some expression :=
      unquoted?_eq_some_iff.mpr ⟨rfl, noQuote⟩
    have rest : ('\'' :: (expression ++ '\'' :: after)).drop
        ('\'' :: (expression ++ ['\''])).length = after := by
      have whole : '\'' :: (expression ++ '\'' :: after) =
          '\'' :: (expression ++ ['\'']) ++ after := by simp
      rw [whole, List.drop_left]
    simp only [Content.ofValue, Text.trimStart_append blankBefore stops,
      Text.leadingBlanks_append blankBefore stops, trimmed, unquoted, rest]
    rfl

/-! ### What becomes of a value -/

/-- A literal that compiles becomes the embedded predicate, between the same blanks. -/
def Becomes (value replaced : List Char) : Prop :=
  ∃ before expression after predicate, IsLiteral value before expression after ∧
    compile (String.ofList expression) = .ok predicate ∧
    replaced = before ++ predicate.embed.toList ++ after

def Replaceable (value : List Char) : Prop := ∃ replaced, Becomes value replaced

/-- A value that stops the rewriting or is left in place: a literal that does not compile, or a
template literal. -/
def Faulty (value : List Char) : Prop :=
  (∃ before expression after error, IsLiteral value before expression after ∧
    compile (String.ofList expression) = .error error) ∨ ∃ before, IsTemplate value before

theorem replacement_of_literal {value before expression after : List Char}
    (literal : IsLiteral value before expression after) (offset : Nat) :
    replacement offset value =
      match compile (String.ofList expression) with
      | .ok predicate => .ok (some (before ++ predicate.embed.toList ++ after))
      | .error cause =>
          .error (.expression (String.ofList expression) (offset + Text.byteLength before)
            cause) := by
  cases compiled : compile (String.ofList expression) <;>
    simp only [replacement, ofValue_literal_iff.mpr literal, compiled]

theorem replacement_of_template {value before : List Char} (template : IsTemplate value before)
    (offset : Nat) :
    replacement offset value = .error (.templateLiteral (offset + Text.byteLength before)) := by
  rw [replacement, ofValue_template_iff.mpr template]

theorem replacement_of_other {value : List Char} (other : Content.ofValue value = .other)
    (offset : Nat) : replacement offset value = .ok none := by
  rw [replacement, other]

theorem content_cases (value : List Char) :
    (∃ before expression after, IsLiteral value before expression after) ∨
      (∃ before, IsTemplate value before) ∨ Content.ofValue value = .other := by
  cases content : Content.ofValue value with
  | literal before expression after =>
      exact .inl ⟨before, expression, after, ofValue_literal_iff.mp content⟩
  | template before => exact .inr (.inl ⟨before, ofValue_template_iff.mp content⟩)
  | other => exact .inr (.inr rfl)

theorem replacement_eq_some_iff {offset : Nat} {value replaced : List Char} :
    replacement offset value = .ok (some replaced) ↔ Becomes value replaced := by
  constructor
  · intro found
    rcases content_cases value with ⟨before, expression, after, literal⟩ | ⟨before, template⟩ |
      other
    · rw [replacement_of_literal literal] at found
      cases compiled : compile (String.ofList expression) with
      | error cause =>
          rw [compiled] at found
          cases found
      | ok predicate =>
          rw [compiled] at found
          cases found
          exact ⟨before, expression, after, predicate, literal, compiled, rfl⟩
    · rw [replacement_of_template template] at found
      cases found
    · rw [replacement_of_other other] at found
      cases found
  · rintro ⟨before, expression, after, predicate, literal, compiled, rfl⟩
    rw [replacement_of_literal literal, compiled]

theorem replacement_isError_iff (offset : Nat) {value : List Char} :
    (∃ fault, replacement offset value = .error fault) ↔ Faulty value := by
  constructor
  · rintro ⟨fault, found⟩
    rcases content_cases value with ⟨before, expression, after, literal⟩ | ⟨before, template⟩ |
      other
    · rw [replacement_of_literal literal] at found
      cases compiled : compile (String.ofList expression) with
      | error error => exact .inl ⟨before, expression, after, error, literal, compiled⟩
      | ok predicate =>
          rw [compiled] at found
          cases found
    · exact .inr ⟨before, template⟩
    · rw [replacement_of_other other] at found
      cases found
  · rintro (⟨before, expression, after, error, literal, failed⟩ | ⟨before, template⟩)
    · rw [replacement_of_literal literal, failed]
      exact ⟨_, rfl⟩
    · rw [replacement_of_template template]
      exact ⟨_, rfl⟩

theorem replacement_cases (offset : Nat) (value : List Char) :
    (∃ replaced, Becomes value replaced ∧ ¬ Faulty value ∧
        replacement offset value = .ok (some replaced)) ∨
      (Faulty value ∧ ¬ Replaceable value ∧ ∃ fault, replacement offset value = .error fault) ∨
      (¬ Faulty value ∧ ¬ Replaceable value ∧ replacement offset value = .ok none) := by
  have faulty : Faulty value ↔ ∃ fault, replacement offset value = .error fault :=
    (replacement_isError_iff offset).symm
  have becomes : Replaceable value ↔ ∃ replaced, replacement offset value = .ok (some replaced) :=
    exists_congr fun replaced => replacement_eq_some_iff.symm
  rw [faulty, becomes]
  cases found : replacement offset value with
  | error fault => exact .inr (.inl ⟨⟨fault, rfl⟩, nofun, fault, rfl⟩)
  | ok replaced? =>
      cases replaced? with
      | none => exact .inr (.inr ⟨nofun, nofun, rfl⟩)
      | some replaced =>
          exact .inl ⟨replaced, replacement_eq_some_iff.mp found, nofun, rfl⟩

instance (value : List Char) : Decidable (Faulty value) :=
  match found : replacement 0 value with
  | .error fault => .isTrue ((replacement_isError_iff 0).mp ⟨fault, found⟩)
  | .ok _ => .isFalse fun faulty => by
    obtain ⟨fault, failed⟩ := (replacement_isError_iff 0).mpr faulty
    rw [found] at failed
    cases failed

instance (value : List Char) : Decidable (Replaceable value) :=
  match found : replacement 0 value with
  | .ok (some replaced) => .isTrue ⟨replaced, replacement_eq_some_iff.mp found⟩
  | .ok none => .isFalse fun ⟨replaced, becomes⟩ => by
    rw [replacement_eq_some_iff.mpr becomes] at found
    cases found
  | .error _ => .isFalse fun ⟨replaced, becomes⟩ => by
    rw [replacement_eq_some_iff.mpr becomes] at found
    cases found

def rewrittenValue (value : List Char) : List Char :=
  match replacement 0 value with
  | .ok (some replaced) => replaced
  | _ => value

theorem rewrittenValue_of_becomes {value replaced : List Char} (becomes : Becomes value replaced) :
    rewrittenValue value = replaced := by
  rw [rewrittenValue, replacement_eq_some_iff.mpr becomes]

theorem rewrittenValue_of_not {value : List Char} (kept : ¬ Replaceable value) :
    rewrittenValue value = value := by
  rcases replacement_cases 0 value with ⟨replaced, becomes, _⟩ | ⟨_, _, fault, failed⟩ |
    ⟨_, _, nothing⟩
  · exact absurd ⟨replaced, becomes⟩ kept
  · rw [rewrittenValue, failed]
  · rw [rewrittenValue, nothing]

/-! ### The values of a text -/

def rewrittenValues (values : List (List Char × List Char)) : Rewritten (List Char) where
  code := joined (values.map fun (value, following) => (rewrittenValue value, following))
  rewritten := values.countP fun entry => Replaceable entry.1
  skipped := values.countP fun entry => Faulty entry.1

theorem rewrittenValues_cons (value following : List Char)
    (later : List (List Char × List Char)) :
    rewrittenValues ((value, following) :: later) =
      { code := rewrittenValue value ++ following ++ (rewrittenValues later).code
        rewritten := (rewrittenValues later).rewritten + if Replaceable value then 1 else 0
        skipped := (rewrittenValues later).skipped + if Faulty value then 1 else 0 } := by
  simp only [rewrittenValues, joined, List.map_cons, List.flatMap_cons, List.countP_cons,
    decide_eq_true_eq]

theorem rewriteValues_cons (policy : Policy) (offset : Nat) (value following : List Char)
    (later : List (List Char × List Char)) :
    rewriteValues policy offset ((value, following) :: later) =
      if policy = .abort ∧ Faulty value then
        (replacement offset value).map fun _ => { code := [], rewritten := 0, skipped := 0 }
      else
        (rewriteValues policy
          (offset + Text.byteLength value + Text.byteLength following) later).map fun rest =>
            { code := rewrittenValue value ++ following ++ rest.code
              rewritten := rest.rewritten + if Replaceable value then 1 else 0
              skipped := rest.skipped + if Faulty value then 1 else 0 } := by
  rcases replacement_cases offset value with ⟨replaced, becomes, sound, found⟩ |
    ⟨faulty, kept, fault, failed⟩ | ⟨sound, kept, nothing⟩
  · rw [if_neg (fun both => sound both.2), rewrittenValue_of_becomes becomes, if_neg sound,
      if_pos ⟨replaced, becomes⟩]
    simp only [rewriteValues, found]
    rfl
  · cases policy with
    | abort =>
        rw [if_pos ⟨rfl, faulty⟩, failed]
        simp only [rewriteValues, failed]
        rfl
    | skip =>
        rw [if_neg (fun both => nomatch both.1), rewrittenValue_of_not kept, if_neg kept,
          if_pos faulty]
        simp only [rewriteValues, failed]
        rfl
  · rw [if_neg (fun both => sound both.2), rewrittenValue_of_not kept, if_neg kept, if_neg sound]
    simp only [rewriteValues, nothing]
    rfl

/-- Values are rewritten unless a fault stops it, and then each on its own. -/
theorem rewriteValues_eq_ok_iff {policy : Policy} {offset : Nat}
    {values : List (List Char × List Char)} {result : Rewritten (List Char)} :
    rewriteValues policy offset values = .ok result ↔
      (policy = .abort → ∀ entry ∈ values, ¬ Faulty entry.1) ∧ result = rewrittenValues values := by
  induction values generalizing offset result with
  | nil =>
      constructor
      · rintro ⟨⟩
        exact ⟨fun _ => nofun, rfl⟩
      · rintro ⟨_, rfl⟩
        rfl
  | cons entry later ih =>
      obtain ⟨value, following⟩ := entry
      rw [rewriteValues_cons, rewrittenValues_cons]
      by_cases stops : policy = .abort ∧ Faulty value
      · rw [if_pos stops]
        obtain ⟨fault, failed⟩ := (replacement_isError_iff offset).mpr stops.2
        rw [failed]
        constructor
        · nofun
        · rintro ⟨sound, _⟩
          exact absurd stops.2 (sound stops.1 _ List.mem_cons_self)
      · rw [if_neg stops, map_eq_ok_iff]
        constructor
        · rintro ⟨rest, done, rfl⟩
          obtain ⟨sound, rfl⟩ := ih.mp done
          refine ⟨?_, rfl⟩
          intro aborts entry member
          rcases List.mem_cons.mp member with rfl | member
          · exact fun faulty => stops ⟨aborts, faulty⟩
          · exact sound aborts entry member
        · rintro ⟨sound, rfl⟩
          refine ⟨rewrittenValues later, ih.mpr ⟨?_, rfl⟩, rfl⟩
          intro aborts entry member
          exact sound aborts entry (List.mem_cons_of_mem _ member)

def rewrittenMarkup (markup : Markup) : Rewritten (List Char) :=
  { rewrittenValues markup.values with code := (markup.respell rewrittenValue).flatten }

theorem rewritePart_eq_ok_iff {options : Options} {offset : Nat} {text : List Char}
    {result : Rewritten (List Char)} :
    rewritePart options offset text = .ok result ↔
      (options.policy = .abort →
          ∀ entry ∈ (ofText options.directive.toList text).values, ¬ Faulty entry.1) ∧
        result = rewrittenMarkup (ofText options.directive.toList text) := by
  let markup := ofText options.directive.toList text
  have part : rewritePart options offset text =
      (rewriteValues options.policy (offset + Text.byteLength markup.head) markup.values).map
        fun values => { values with code := markup.head ++ values.code } := rfl
  rw [part, map_eq_ok_iff]
  constructor
  · rintro ⟨values, done, rfl⟩
    obtain ⟨sound, rfl⟩ := rewriteValues_eq_ok_iff.mp done
    exact ⟨sound, rfl⟩
  · rintro ⟨sound, rfl⟩
    exact ⟨_, rewriteValues_eq_ok_iff.mpr ⟨sound, rfl⟩, rfl⟩

theorem rewrite_eq_ok_iff {options : Options} {text : String} {result : Rewritten String} :
    rewrite options text = .ok result ↔
      ∃ part, rewritePart options 0 text.toList = .ok part ∧
        result = { part with code := String.ofList part.code } :=
  map_eq_ok_iff

end Markup
end Permission
