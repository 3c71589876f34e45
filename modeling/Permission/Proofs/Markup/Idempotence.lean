import Mathlib
import Permission.Proofs.Markup.Block
import Permission.Proofs.Markup.Content
import Permission.Proofs.Storage

/-!
# Rewriting what was rewritten

An embedded predicate is neither a literal nor a template literal, and it has no double quote that
would move the pieces of the text.  So a second rewriting finds the same values with nothing left
to replace and the same faults.  Main statement: `Markup.rewrite_again`.
-/

set_option autoImplicit false

namespace Permission
namespace Markup

/-! ### Embedded predicates as values -/

theorem Becomes.begins {value replaced : List Char} (becomes : Becomes value replaced) :
    ∃ before rest, (∀ c ∈ before, Text.isBlank c = true) ∧ replaced = before ++ '\x7b' :: rest := by
  obtain ⟨before, expression, after, predicate, literal, _, rfl⟩ := becomes
  obtain ⟨rest, embedded⟩ := predicate.embed_begins
  refine ⟨before, rest ++ after, literal.blankBefore, ?_⟩
  rw [embedded, List.append_assoc, List.cons_append]

theorem Becomes.first_eq {value replaced before rest : List Char} {c : Char}
    (becomes : Becomes value replaced) (blankBefore : ∀ d ∈ before, Text.isBlank d = true)
    (stops : Text.isBlank c = false) (whole : replaced = before ++ c :: rest) : c = '\x7b' := by
  obtain ⟨blanks, others, blank, begins⟩ := becomes.begins
  have stopsThere : Text.isBlank '\x7b' = false := by decide
  exact (Text.append_stop_inj blankBefore stops blank stopsThere (whole.symm.trans begins)).2.1

theorem Becomes.not_literal {value replaced before expression after : List Char}
    (becomes : Becomes value replaced) : ¬ IsLiteral replaced before expression after := by
  intro literal
  have first := becomes.first_eq literal.blankBefore (by decide) literal.whole
  exact absurd first (by decide)

theorem Becomes.not_template {value replaced before : List Char}
    (becomes : Becomes value replaced) : ¬ IsTemplate replaced before := by
  rintro ⟨blankBefore, rest, whole⟩
  have first := becomes.first_eq blankBefore (by decide) whole
  exact absurd first (by decide)

theorem rewrittenValue_not_replaceable (value : List Char) :
    ¬ Replaceable (rewrittenValue value) := by
  by_cases replaceable : Replaceable value
  · obtain ⟨replaced, becomes⟩ := replaceable
    rw [rewrittenValue_of_becomes becomes]
    rintro ⟨_, before, expression, after, _, literal, _⟩
    exact becomes.not_literal literal
  · rw [rewrittenValue_of_not replaceable]
    exact replaceable

theorem rewrittenValue_faulty_iff (value : List Char) :
    Faulty (rewrittenValue value) ↔ Faulty value := by
  rcases replacement_cases 0 value with ⟨replaced, becomes, sound, _⟩ | ⟨_, kept, _⟩ | ⟨_, kept, _⟩
  · rw [rewrittenValue_of_becomes becomes]
    apply iff_of_false _ sound
    rintro (⟨before, expression, after, _, literal, _⟩ | ⟨before, template⟩)
    · exact becomes.not_literal literal
    · exact becomes.not_template template
  · rw [rewrittenValue_of_not kept]
  · rw [rewrittenValue_of_not kept]

theorem quote_not_mem_rewrittenValue (value : List Char) (noQuote : '"' ∉ value) :
    '"' ∉ rewrittenValue value := by
  by_cases replaceable : Replaceable value
  · obtain ⟨replaced, becomes⟩ := replaceable
    rw [rewrittenValue_of_becomes becomes]
    obtain ⟨before, expression, after, predicate, literal, _, rfl⟩ := becomes
    rw [literal.whole] at noQuote
    have embedded := predicate.quote_not_mem_embed
    simp only [List.mem_append, List.mem_cons, not_or] at noQuote ⊢
    exact ⟨⟨noQuote.1, embedded⟩, noQuote.2.2.2.2⟩
  · rw [rewrittenValue_of_not replaceable]
    exact noQuote

/-! ### A second rewriting -/

theorem rewrittenMarkup_respell (markup : Markup) :
    rewrittenMarkup (markup.respell rewrittenValue) =
      { rewrittenMarkup markup with rewritten := 0 } := by
  have code : (markup.respell rewrittenValue).respell rewrittenValue =
      markup.respell rewrittenValue := by
    simp only [respell, List.map_map]
    congr 1
    apply List.map_congr_left
    intro entry _
    simp only [Function.comp, rewrittenValue_of_not (rewrittenValue_not_replaceable entry.1)]
  have rewritten : (markup.respell rewrittenValue).values.countP
      (fun entry => Replaceable entry.1) = 0 := by
    rw [respell_values, List.countP_map, List.countP_eq_zero]
    intro entry _ replaceable
    exact rewrittenValue_not_replaceable entry.1 (of_decide_eq_true replaceable)
  have skipped : (markup.respell rewrittenValue).values.countP (fun entry => Faulty entry.1) =
      markup.values.countP fun entry => Faulty entry.1 := by
    rw [respell_values, List.countP_map]
    apply List.countP_congr
    intro entry _
    simp only [Function.comp, decide_eq_true_eq, rewrittenValue_faulty_iff]
  simp only [rewrittenMarkup, rewrittenValues, code, rewritten, skipped]

theorem rewritePart_again {options : Options} {offset : Nat} {text : List Char}
    {result : Rewritten (List Char)} (done : rewritePart options offset text = .ok result)
    (offset' : Nat) :
    rewritePart options offset' result.code = .ok { result with rewritten := 0 } := by
  obtain ⟨sound, rfl⟩ := rewritePart_eq_ok_iff.mp done
  let markup := ofText options.directive.toList text
  have pieces : ofText options.directive.toList (rewrittenMarkup markup).code =
      markup.respell rewrittenValue :=
    split_respell quote_not_mem_rewrittenValue options.directive.toList true text
  refine rewritePart_eq_ok_iff.mpr ⟨?_, ?_⟩
  · intro aborts entry member
    rw [pieces] at member
    obtain ⟨before, known, rfl⟩ := List.mem_map.mp member
    rw [rewrittenValue_faulty_iff]
    exact sound aborts before known
  · rw [pieces, rewrittenMarkup_respell]

/-! ### The marks of a block -/

theorem split_nonblank {name front : List Char} (nonblank : ∀ c ∈ front, Text.isBlank c = false)
    (text : List Char) :
    split name false (front ++ text) = (split name false text).prepend front := by
  induction front with
  | nil => rfl
  | cons c front ih =>
      rw [List.cons_append, split_false_cons, nonblank c List.mem_cons_self,
        ih fun d member => nonblank d (List.mem_cons_of_mem c member)]
      rfl

/-- The opening of a template has no blank, so that no directive begins inside of it. -/
theorem ofText_blockOpening (name text : List Char) :
    ofText name (blockOpening.toList ++ text) =
      (split name false text).prepend blockOpening.toList := by
  have opening : blockOpening.toList = '<' :: "template".toList := rfl
  have absent : beginning? name true ('<' :: ("template".toList ++ text)) = none := rfl
  have first : Text.isBlank '<' = false := by decide
  have letters : "template".toList.all (fun c => !Text.isBlank c) = true := by decide
  have nonblank : ∀ c ∈ "template".toList, Text.isBlank c = false := by simpa using letters
  rw [opening, List.cons_append, ofText, split_cons absent, first, split_nonblank nonblank]
  rfl

/-- What ends a text without a double quote ends it with other values as well. -/
theorem joined_respell_suffix {tail front : List Char} {values : List (List Char × List Char)}
    (spell : List Char → List Char) (noQuote : '"' ∉ tail)
    (following : ∀ entry ∈ values, ∃ rest, entry.2 = '"' :: rest)
    (closes : tail <:+ front ++ joined values) :
    tail <:+ front ++ joined (values.map fun entry => (spell entry.1, entry.2)) := by
  induction values generalizing front with
  | nil => exact closes
  | cons entry later ih =>
      obtain ⟨value, quoted⟩ := entry
      obtain ⟨rest, shape⟩ := following (value, quoted) List.mem_cons_self
      change quoted = '"' :: rest at shape
      subst shape
      have split (value : List Char) (others : List (List Char × List Char)) :
          front ++ joined ((value, '"' :: rest) :: others) =
            (front ++ value) ++ '"' :: (rest ++ joined others) := by
        simp [joined]
      rw [split] at closes
      have laterCloses := ih (fun other member => following other (List.mem_cons_of_mem _ member))
        (Text.suffix_of_not_mem noQuote closes)
      rw [List.map_cons, split]
      exact laterCloses.trans ⟨front ++ spell value ++ ['"'], by simp⟩

/-- A rewritten block still begins and ends with the tags of a template. -/
theorem rewrittenMarkup_marks {name block : List Char} (opens : blockOpening.toList <+: block)
    (closes : blockClosing.toList <:+ block) :
    blockOpening.toList <+: (rewrittenMarkup (ofText name block)).code ∧
      blockClosing.toList <:+ (rewrittenMarkup (ofText name block)).code := by
  obtain ⟨inside, rfl⟩ := opens
  let inner := split name false inside
  have code : (rewrittenMarkup (ofText name (blockOpening.toList ++ inside))).code =
      blockOpening.toList ++ inner.head ++ joined (inner.respell rewrittenValue).values := by
    rw [ofText_blockOpening, rewrittenMarkup, respell_prepend, flatten_prepend, flatten_eq,
      List.append_assoc]
    rfl
  rw [code]
  constructor
  · rw [List.append_assoc]
    exact List.prefix_append _ _
  · have divided : Divided name inner := split_divided _ _ _
    have whole : inner.head ++ joined inner.values = inside := flatten_split name false inside
    apply joined_respell_suffix rewrittenValue (by decide) divided.following
    rw [List.append_assoc, whole]
    exact closes

theorem TemplateBlock.rewritten {text before block after : List Char}
    (found : TemplateBlock text before block after) {options : Options} {offset : Nat}
    {part : Rewritten (List Char)} (done : rewritePart options offset block = .ok part) :
    TemplateBlock (before ++ (part.code ++ after)) before part.code after := by
  obtain ⟨_, rfl⟩ := rewritePart_eq_ok_iff.mp done
  obtain ⟨opens, closes⟩ := rewrittenMarkup_marks found.opens found.closes
  exact found.exchanged opens closes

/-! ### The main statement -/

/-- Rewriting a rewritten text or file again leaves it as it is: nothing is left to replace, and
the same directives are left in place. -/
theorem rewrite_again (options : Options) (path source : String) :
    (∀ result, rewrite options source = .ok result →
        rewrite options result.code =
          .ok { code := result.code, rewritten := 0, skipped := result.skipped }) ∧
      ∀ result, rewriteFile options path source = .ok result →
        rewriteFile options path result.code =
          .ok { code := result.code, rewritten := 0, skipped := result.skipped } := by
  constructor
  · intro result done
    obtain ⟨part, donePart, rfl⟩ := rewrite_eq_ok_iff.mp done
    apply rewrite_eq_ok_iff.mpr
    rw [String.toList_ofList, rewritePart_again donePart]
    exact ⟨_, rfl, rfl⟩
  · intro result done
    rcases rewriteFile_cases done with
      ⟨before, block, after, part, component, found, donePart, rfl⟩ | ⟨absent, rfl⟩
    · have foundAgain : TemplateBlock (String.ofList (before ++ part.code ++ after)).toList before
          part.code after := by
        rw [String.toList_ofList, List.append_assoc]
        exact found.rewritten donePart
      rw [rewriteFile_block component foundAgain, rewritePart_again donePart]
      rfl
    · exact rewriteFile_unchanged absent options

theorem rewrite_again_mixed :
    rewrite { directive := "can", policy := .skip } "<p v-can=\" 'a' \" v-can=\"'!'\">" =
        .ok
          { code := "<p v-can=\" \x7b'type':'HAS','val':'a'\x7d \" v-can=\"'!'\">"
            rewritten := 1
            skipped := 1 } ∧
      rewrite { directive := "can", policy := .skip }
          "<p v-can=\" \x7b'type':'HAS','val':'a'\x7d \" v-can=\"'!'\">" =
        .ok
          { code := "<p v-can=\" \x7b'type':'HAS','val':'a'\x7d \" v-can=\"'!'\">"
            rewritten := 0
            skipped := 1 } := by
  have first : rewrite { directive := "can", policy := .skip }
      "<p v-can=\" 'a' \" v-can=\"'!'\">" =
        .ok
          { code := "<p v-can=\" \x7b'type':'HAS','val':'a'\x7d \" v-can=\"'!'\">"
            rewritten := 1
            skipped := 1 } := by cbv
  have second := (rewrite_again _ "" _).1 _ first
  exact ⟨first, second⟩

end Markup
end Permission
