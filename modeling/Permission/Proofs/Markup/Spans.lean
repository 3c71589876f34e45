import Mathlib
import Permission.Proofs.Markup.Block
import Permission.Proofs.Markup.Content
import Permission.Proofs.Markup.Occurrences

/-!
# The spans that rewriting replaces

A rewritten text agrees with its source but for edits, which put embedded predicates in the places
of literals.  The edits are those that the occurrences of the directive require, no more and no
fewer.  Main statement: `Markup.rewrite_replaces_literals`.
-/

set_option autoImplicit false

namespace Permission
namespace Markup

structure Edit where
  start : Nat
  literal : List Char
  replacement : List Char

/-- The second text is the first one, from a position on, with the edits made from left to right;
between them the two agree. -/
inductive Spliced : Nat → List Char → List Char → List Edit → Prop
  | rest (position : Nat) (text : List Char) : Spliced position text text []
  | edit {position : Nat} {source code gap : List Char} {first : Edit} {later : List Edit}
      (start : first.start = position + gap.length)
      (behind : Spliced (first.start + first.literal.length) source code later) :
      Spliced position (gap ++ (first.literal ++ source)) (gap ++ (first.replacement ++ code))
        (first :: later)

theorem Spliced.prepend {position : Nat} {gap source code : List Char} {edits : List Edit}
    (spliced : Spliced (position + gap.length) source code edits) :
    Spliced position (gap ++ source) (gap ++ code) edits := by
  cases spliced with
  | rest => exact .rest position _
  | @edit _ _ _ inner first _ start behind =>
      rw [← List.append_assoc, ← List.append_assoc gap inner]
      refine .edit ?_ behind
      rw [start, List.length_append, Nat.add_assoc]

/-- A literal that compiles requires the edit of its quotes and all between them. -/
def Requires (position : Nat) (value : List Char) (edit : Edit) : Prop :=
  ∃ before expression after predicate, IsLiteral value before expression after ∧
    compile (String.ofList expression) = .ok predicate ∧
    edit =
      { start := position + before.length
        literal := '\'' :: (expression ++ ['\''])
        replacement := predicate.embed.toList }

structure Replaces (name source code : List Char) (rewritten skipped : Nat)
    (occurrences : List Occurrence) (edits : List Edit) : Prop where
  scan : ∀ other, Leftmost name source 0 other ↔ other = occurrences
  spliced : Spliced 0 source code edits
  required : ∀ edit, edit ∈ edits ↔
    ∃ occurrence ∈ occurrences, Requires occurrence.valueStart occurrence.value edit
  rewritten : rewritten = edits.length
  skipped : skipped = occurrences.countP fun occurrence => Faulty occurrence.value

/-! ### The edits of a list of values -/

theorem IsLiteral.unique {value before expression after before' expression' after' : List Char}
    (literal : IsLiteral value before expression after)
    (literal' : IsLiteral value before' expression' after') :
    before = before' ∧ expression = expression' ∧ after = after' := by
  have same := (ofValue_literal_iff.mpr literal).symm.trans (ofValue_literal_iff.mpr literal')
  cases same
  exact ⟨rfl, rfl, rfl⟩

theorem requires_iff {value before expression after : List Char} {predicate : Predicate}
    (literal : IsLiteral value before expression after)
    (compiled : compile (String.ofList expression) = .ok predicate) {position : Nat} {edit : Edit} :
    Requires position value edit ↔
      edit =
        { start := position + before.length
          literal := '\'' :: (expression ++ ['\''])
          replacement := predicate.embed.toList } := by
  constructor
  · rintro ⟨before', expression', after', predicate', literal', compiled', rfl⟩
    obtain ⟨rfl, rfl, rfl⟩ := literal.unique literal'
    rw [compiled] at compiled'
    cases compiled'
    rfl
  · rintro rfl
    exact ⟨before, expression, after, predicate, literal, compiled, rfl⟩

theorem Requires.replaceable {position : Nat} {value : List Char} {edit : Edit}
    (requires : Requires position value edit) : Replaceable value := by
  obtain ⟨before, expression, after, predicate, literal, compiled, _⟩ := requires
  exact ⟨_, before, expression, after, predicate, literal, compiled, rfl⟩

theorem placed_values (position : Nat) (values : List (List Char × List Char)) :
    (placed position values).map Prod.snd = values.map Prod.fst := by
  induction values generalizing position with
  | nil => rfl
  | cons entry later ih => exact congrArg (entry.1 :: ·) (ih _)

theorem values_of_places {occurrences : List Occurrence} {position : Nat}
    {values : List (List Char × List Char)}
    (places : occurrences.map (fun occurrence => (occurrence.valueStart, occurrence.value)) =
      placed position values) :
    occurrences.map Occurrence.value = values.map Prod.fst := by
  rw [← placed_values position, ← places, List.map_map]
  rfl

theorem joined_spliced (position : Nat) (values : List (List Char × List Char)) :
    ∃ edits, Spliced position (joined values) (rewrittenValues values).code edits ∧
      (∀ edit, edit ∈ edits ↔ ∃ entry ∈ placed position values, Requires entry.1 entry.2 edit) ∧
      edits.length = (rewrittenValues values).rewritten := by
  induction values generalizing position with
  | nil =>
      refine ⟨[], .rest position [], ?_, rfl⟩
      intro edit
      simp [placed]
  | cons entry later ih =>
      obtain ⟨value, following⟩ := entry
      obtain ⟨edits, spliced, required, count⟩ :=
        ih (position + value.length + following.length)
      have source : joined ((value, following) :: later) = value ++ (following ++ joined later) :=
        List.append_assoc _ _ _
      simp only [source, rewrittenValues_cons, placed, List.mem_cons, exists_eq_or_imp]
      by_cases replaceable : Replaceable value
      · rw [if_pos replaceable]
        obtain ⟨_, becomes⟩ := replaceable
        rw [rewrittenValue_of_becomes becomes]
        obtain ⟨before, expression, after, predicate, literal, compiled, rfl⟩ := becomes
        let edit : Edit :=
          { start := position + before.length
            literal := '\'' :: (expression ++ ['\''])
            replacement := predicate.embed.toList }
        have behind : Spliced (edit.start + edit.literal.length)
            ((after ++ following) ++ joined later)
            ((after ++ following) ++ (rewrittenValues later).code) edits := by
          apply Spliced.prepend
          have reached : edit.start + edit.literal.length + (after ++ following).length =
              position + value.length + following.length := by
            rw [literal.whole]
            simp only [edit, List.length_append, List.length_cons, List.length_nil]
            omega
          rw [reached]
          exact spliced
        refine ⟨edit :: edits, ?_, ?_, ?_⟩
        · have start : edit.start = position + before.length := rfl
          have whole := Spliced.edit start behind
          simpa [edit, literal.whole] using whole
        · intro other
          rw [List.mem_cons, required, requires_iff literal compiled]
        · rw [List.length_cons, count]
      · rw [rewrittenValue_of_not replaceable, if_neg replaceable]
        refine ⟨edits, ?_, ?_, count⟩
        · rw [List.append_assoc]
          apply Spliced.prepend
          apply Spliced.prepend
          exact spliced
        · intro other
          rw [required]
          constructor
          · exact .inr
          · rintro (requires | behind)
            · exact absurd requires.replaceable replaceable
            · exact behind

theorem rewritePart_replaces {options : Options} {offset : Nat} {text : List Char}
    {result : Rewritten (List Char)} (done : rewritePart options offset text = .ok result) :
    ∃ occurrences edits, Replaces options.directive.toList text result.code result.rewritten
      result.skipped occurrences edits := by
  obtain ⟨_, rfl⟩ := rewritePart_eq_ok_iff.mp done
  let markup := ofText options.directive.toList text
  obtain ⟨occurrences, scan, places⟩ := ofText_leftmost options.directive.toList text
  obtain ⟨edits, spliced, required, count⟩ := joined_spliced markup.head.length markup.values
  have values : occurrences.map Occurrence.value = markup.values.map Prod.fst :=
    values_of_places places
  refine ⟨occurrences, edits, scan, ?_, ?_, count.symm, ?_⟩
  · have source : markup.head ++ joined markup.values = text :=
      flatten_ofText options.directive.toList text
    rw [← Nat.zero_add markup.head.length] at spliced
    have whole := spliced.prepend
    rw [source] at whole
    exact whole
  · intro edit
    rw [required, ← places]
    constructor
    · rintro ⟨entry, member, requires⟩
      obtain ⟨occurrence, known, rfl⟩ := List.mem_map.mp member
      exact ⟨occurrence, known, requires⟩
    · rintro ⟨occurrence, known, requires⟩
      exact ⟨_, List.mem_map.mpr ⟨occurrence, known, rfl⟩, requires⟩
  · have counted := congrArg (List.countP fun value => Faulty value) values
    rw [List.countP_map, List.countP_map] at counted
    exact counted.symm

/-! ### The main statement -/

/-- Rewriting exchanges the literals that compile for their embedded predicates and keeps all else;
it counts them, and the values that are at fault. -/
theorem rewrite_replaces_literals {options : Options} {source : String}
    {result : Rewritten String} (done : rewrite options source = .ok result) :
    ∃ occurrences edits, Replaces options.directive.toList source.toList result.code.toList
      result.rewritten result.skipped occurrences edits := by
  obtain ⟨part, donePart, rfl⟩ := rewrite_eq_ok_iff.mp done
  rw [String.toList_ofList]
  exact rewritePart_replaces donePart

theorem rewrite_replaces_literals_around :
    rewrite { directive := "can", policy := .skip }
        "<p v-can=\"'a'\" v-can=\"'!'\" v-can = \" 'b'\">" =
      .ok
        { code := "<p v-can=\"\x7b'type':'HAS','val':'a'\x7d\" v-can=\"'!'\" " ++
            "v-can = \" \x7b'type':'HAS','val':'b'\x7d\">"
          rewritten := 2
          skipped := 1 } ∧
      ∃ occurrences edits,
        Replaces "can".toList "<p v-can=\"'a'\" v-can=\"'!'\" v-can = \" 'b'\">".toList
          ("<p v-can=\"\x7b'type':'HAS','val':'a'\x7d\" v-can=\"'!'\" " ++
            "v-can = \" \x7b'type':'HAS','val':'b'\x7d\">").toList
          2 1 occurrences edits := by
  have done : rewrite { directive := "can", policy := .skip }
      "<p v-can=\"'a'\" v-can=\"'!'\" v-can = \" 'b'\">" =
        .ok
          { code := "<p v-can=\"\x7b'type':'HAS','val':'a'\x7d\" v-can=\"'!'\" " ++
              "v-can = \" \x7b'type':'HAS','val':'b'\x7d\">"
            rewritten := 2
            skipped := 1 } := by cbv
  have replaces := rewrite_replaces_literals done
  exact ⟨done, replaces⟩

/-- In a file it is the template block that is rewritten, if there is one. -/
theorem rewriteFile_replaces_literals {options : Options} {path source : String}
    {result : Rewritten String} (done : rewriteFile options path source = .ok result) :
    (∃ before block after code occurrences edits,
        isComponent path = true ∧ TemplateBlock source.toList before block after ∧
          Replaces options.directive.toList block code result.rewritten result.skipped
            occurrences edits ∧
          result.code.toList = before ++ (code ++ after)) ∨
      (¬ (isComponent path = true ∧
          ∃ before block after, TemplateBlock source.toList before block after) ∧
        result = { code := source, rewritten := 0, skipped := 0 }) := by
  rcases rewriteFile_cases done with
    ⟨before, block, after, part, component, found, donePart, rfl⟩ | ⟨absent, rfl⟩
  · obtain ⟨occurrences, edits, replaces⟩ := rewritePart_replaces donePart
    refine .inl ⟨before, block, after, part.code, occurrences, edits, component, found,
      replaces, ?_⟩
    rw [String.toList_ofList, List.append_assoc]
  · exact .inr ⟨absent, rfl⟩

end Markup
end Permission
