import Permission.Markup.Component
import Permission.Proofs.Markup.Content

/-!
# Where the template block stands

The block of a component reaches from the first opening of a template to the end of the last
closing tag.  The two marks cannot overlap, so a block is found exactly if such a part of the text
exists.  Main statement: `Markup.templateBlock?_eq_some_iff`.
-/

set_option autoImplicit false

namespace Permission
namespace Markup

/-! ### First and last places -/

theorem before?_eq_some_iff {wanted text before : List Char} :
    before? wanted text = some before ↔
      before ++ wanted <+: text ∧
        ∀ front : List Char, front.length < before.length → ¬ front ++ wanted <+: text := by
  induction text generalizing before with
  | nil =>
      cases wanted with
      | nil =>
          constructor
          · rintro ⟨⟩
            exact ⟨List.nil_prefix, nofun⟩
          · rintro ⟨within, _⟩
            rw [List.append_nil] at within
            rw [List.prefix_nil.mp within]
            rfl
      | cons c wanted =>
          constructor
          · nofun
          · rintro ⟨within, _⟩
            have empty := List.prefix_nil.mp within
            simp at empty
  | cons c rest ih =>
      rw [before?]
      by_cases here : wanted <+: c :: rest
      · rw [if_pos (List.isPrefixOf_iff_prefix.mpr here)]
        constructor
        · rintro ⟨⟩
          exact ⟨here, nofun⟩
        · rintro ⟨_, first⟩
          cases before with
          | nil => rfl
          | cons d before => exact absurd here (first [] (Nat.zero_lt_succ _))
      · rw [if_neg fun found => here (List.isPrefixOf_iff_prefix.mp found)]
        constructor
        · intro found
          obtain ⟨later, foundLater, rfl⟩ := Option.map_eq_some_iff.mp found
          obtain ⟨within, first⟩ := ih.mp foundLater
          refine ⟨List.cons_prefix_cons.mpr ⟨rfl, within⟩, ?_⟩
          intro front shorter found
          cases front with
          | nil => exact here found
          | cons d front =>
              exact first front (Nat.lt_of_succ_lt_succ shorter)
                (List.cons_prefix_cons.mp found).2
        · rintro ⟨within, first⟩
          cases before with
          | nil => exact absurd within here
          | cons d before =>
              obtain ⟨rfl, inside⟩ := List.cons_prefix_cons.mp within
              refine Option.map_eq_some_iff.mpr ⟨before, ih.mpr ⟨inside, ?_⟩, rfl⟩
              intro front shorter found
              exact first (d :: front) (Nat.succ_lt_succ shorter)
                (List.cons_prefix_cons.mpr ⟨rfl, found⟩)

theorem afterLast?_eq_some_iff {wanted text after : List Char} :
    afterLast? wanted text = some after ↔
      wanted ++ after <:+ text ∧
        ∀ back : List Char, back.length < after.length → ¬ wanted ++ back <:+ text := by
  have mirrored (back : List Char) :
      back.reverse ++ wanted.reverse <+: text.reverse ↔ wanted ++ back <:+ text := by
    rw [← List.reverse_append, List.reverse_prefix]
  have found : afterLast? wanted text = some after ↔
      before? wanted.reverse text.reverse = some after.reverse := by
    rw [afterLast?, Option.map_eq_some_iff]
    constructor
    · rintro ⟨before, found, rfl⟩
      rw [found, List.reverse_reverse]
    · intro found
      exact ⟨after.reverse, found, List.reverse_reverse after⟩
  rw [found, before?_eq_some_iff, mirrored]
  apply and_congr_right
  intro _
  constructor
  · intro first back shorter
    rw [← mirrored]
    exact first back.reverse (by simpa using shorter)
  · intro last front shorter
    have absent := last front.reverse (by simpa using shorter)
    rwa [← mirrored, List.reverse_reverse] at absent

/-! ### The block -/

/-- A part of a text from the first opening of a template to the end of the last closing tag. -/
structure TemplateBlock (text before block after : List Char) : Prop where
  whole : text = before ++ (block ++ after)
  opens : blockOpening.toList <+: block
  closes : blockClosing.toList <:+ block
  first : ∀ front : List Char, front.length < before.length →
    ¬ front ++ blockOpening.toList <+: text
  last : ∀ back : List Char, back.length < after.length →
    ¬ blockClosing.toList ++ back <:+ text

/-- Only its first character is one that an opening begins with. -/
theorem blockClosing_proper_suffix {block : List Char} (within : block <:+ blockClosing.toList)
    (shorter : block.length < blockClosing.toList.length) : '<' ∉ block := by
  obtain ⟨front, whole⟩ := within
  cases front with
  | nil =>
      rw [List.nil_append] at whole
      rw [whole] at shorter
      exact absurd shorter (Nat.lt_irrefl _)
  | cons c front =>
      have rest : front ++ block = "/template>".toList := (List.cons.inj whole).2
      intro member
      have inside : '<' ∈ "/template>".toList := by
        rw [← rest]
        exact List.mem_append_right _ member
      exact absurd inside (by decide)

/-- An opening before the end of a closing tag comes before all of it. -/
theorem opening_apart {block after before : List Char} (filled : block ≠ [])
    (opens : blockOpening.toList <+: block ++ after)
    (closes : blockClosing.toList <:+ before ++ block) :
    blockOpening.toList <+: block ∧ blockClosing.toList <:+ block := by
  have long : blockClosing.toList.length ≤ block.length := by
    apply Nat.le_of_not_lt
    intro shorter
    have within : block <:+ blockClosing.toList :=
      List.suffix_of_suffix_length_le (List.suffix_append _ _) closes (Nat.le_of_lt shorter)
    apply blockClosing_proper_suffix within shorter
    obtain ⟨c, rest, shape⟩ := List.exists_cons_of_ne_nil filled
    obtain ⟨back, whole⟩ := opens
    rw [shape] at whole ⊢
    have same : '<' = c := (List.cons.inj whole).1
    rw [same]
    exact List.mem_cons_self
  constructor
  · apply List.prefix_of_prefix_length_le opens (List.prefix_append _ _)
    exact Nat.le_trans (by decide) long
  · exact List.suffix_of_suffix_length_le closes (List.suffix_append _ _) long

theorem templateBlock?_eq_some_iff {text : List Char} {start stop : Nat} :
    templateBlock? text = some (start, stop) ↔
      ∃ before block after, TemplateBlock text before block after ∧ start = before.length ∧
        stop = before.length + block.length := by
  constructor
  · intro found
    simp only [templateBlock?, bind, Option.bind_eq_some_iff] at found
    obtain ⟨before, foundBefore, after, foundAfter, found⟩ := found
    split at found
    · rename_i apart
      cases found
      obtain ⟨opens, first⟩ := before?_eq_some_iff.mp foundBefore
      obtain ⟨closes, last⟩ := afterLast?_eq_some_iff.mp foundAfter
      obtain ⟨back, whole⟩ := closes
      rw [← List.append_assoc] at whole
      have within : before <+: back ++ blockClosing.toList := by
        have inText : before <+: text := (List.prefix_append _ _).trans opens
        apply List.prefix_of_prefix_length_le inText ⟨after, whole⟩
        have length := congrArg List.length whole
        rw [List.length_append] at length
        omega
      obtain ⟨block, split⟩ := within
      rw [← split, List.append_assoc] at whole
      have length := congrArg List.length whole
      simp only [List.length_append] at length
      have filled : block ≠ [] := by
        rintro rfl
        simp only [List.length_nil] at length
        omega
      have opensRest : blockOpening.toList <+: block ++ after :=
        (List.prefix_append_right_inj before).mp (whole ▸ opens)
      have closesFront : blockClosing.toList <:+ before ++ block :=
        split ▸ List.suffix_append _ _
      have marks := opening_apart filled opensRest closesFront
      exact ⟨before, block, after, ⟨whole.symm, marks.1, marks.2, first, last⟩, rfl, by omega⟩
    · cases found
  · rintro ⟨before, block, after, ⟨whole, opens, closes, first, last⟩, rfl, rfl⟩
    have foundBefore : before? blockOpening.toList text = some before := by
      refine before?_eq_some_iff.mpr ⟨?_, first⟩
      rw [whole]
      exact (List.prefix_append_right_inj before).mpr (opens.trans (List.prefix_append _ _))
    have foundAfter : afterLast? blockClosing.toList text = some after := by
      refine afterLast?_eq_some_iff.mpr ⟨?_, last⟩
      obtain ⟨front, block⟩ := closes
      exact ⟨before ++ front, by rw [whole, ← block]; simp⟩
    have stop : text.length - after.length = before.length + block.length := by
      rw [whole]
      simp only [List.length_append]
      omega
    have positive : 0 < block.length :=
      Nat.lt_of_lt_of_le (by decide) opens.length_le
    simp only [templateBlock?, foundBefore, foundAfter, bind, Option.bind, stop]
    rw [if_pos (by omega)]

/-- Exchanging a block for another one with its tags gives a text with the other block. -/
theorem TemplateBlock.exchanged {text before block after : List Char}
    (found : TemplateBlock text before block after) {other : List Char}
    (opens : blockOpening.toList <+: other) (closes : blockClosing.toList <:+ other) :
    TemplateBlock (before ++ (other ++ after)) before other after := by
  have atFront {block : List Char} (opens : blockOpening.toList <+: block) :
      before ++ blockOpening.toList <+: before ++ (block ++ after) :=
    (List.prefix_append_right_inj before).mpr (opens.trans (List.prefix_append _ _))
  have atEnd {block : List Char} (closes : blockClosing.toList <:+ block) :
      blockClosing.toList ++ after <:+ before ++ (block ++ after) := by
    obtain ⟨front, block⟩ := closes
    exact ⟨before ++ front, by rw [← block]; simp⟩
  refine ⟨rfl, opens, closes, ?_, ?_⟩
  · intro front shorter earlier
    apply found.first front shorter
    have within : front ++ blockOpening.toList <+: before ++ blockOpening.toList := by
      apply List.prefix_of_prefix_length_le earlier (atFront opens)
      simp only [List.length_append]
      omega
    rw [found.whole]
    exact within.trans (atFront found.opens)
  · intro back shorter later
    apply found.last back shorter
    have within : blockClosing.toList ++ back <:+ blockClosing.toList ++ after := by
      apply List.suffix_of_suffix_length_le later (atEnd closes)
      simp only [List.length_append]
      omega
    rw [found.whole]
    exact within.trans (atEnd found.closes)

/-! ### Rewriting a file -/

theorem rewriteFile_block {path text : String} {before block after : List Char}
    (component : isComponent path = true) (found : TemplateBlock text.toList before block after)
    (options : Options) :
    rewriteFile options path text =
      (rewritePart options (Text.byteLength before) block).map fun result =>
        { result with code := String.ofList (before ++ result.code ++ after) } := by
  have located : templateBlock? text.toList =
      some (before.length, before.length + block.length) :=
    templateBlock?_eq_some_iff.mpr ⟨before, block, after, found, rfl, rfl⟩
  have front : text.toList.take before.length = before := by
    rw [found.whole, List.take_left]
  have upTo : text.toList.take (before.length + block.length) = before ++ block := by
    rw [found.whole, ← List.append_assoc, ← List.length_append, List.take_left]
  have back : text.toList.drop (before.length + block.length) = after := by
    rw [found.whole, ← List.append_assoc, ← List.length_append, List.drop_left]
  simp only [rewriteFile, component, if_true, located, front, upTo, back, List.drop_left]
  rfl

theorem rewriteFile_unchanged {path text : String}
    (absent : ¬ (isComponent path = true ∧
      ∃ before block after, TemplateBlock text.toList before block after))
    (options : Options) :
    rewriteFile options path text = .ok { code := text, rewritten := 0, skipped := 0 } := by
  have located : (if isComponent path then templateBlock? text.toList else none) = none := by
    cases component : isComponent path with
    | false => rfl
    | true =>
        cases found : templateBlock? text.toList with
        | none => rfl
        | some range =>
            obtain ⟨before, block, after, blocked, _⟩ := templateBlock?_eq_some_iff.mp found
            exact absurd ⟨component, before, block, after, blocked⟩ absent
  simp only [rewriteFile, located]
  rfl

theorem rewriteFile_cases {options : Options} {path text : String} {result : Rewritten String}
    (done : rewriteFile options path text = .ok result) :
    (∃ before block after part,
        isComponent path = true ∧ TemplateBlock text.toList before block after ∧
          rewritePart options (Text.byteLength before) block = .ok part ∧
          result = { part with code := String.ofList (before ++ part.code ++ after) }) ∨
      (¬ (isComponent path = true ∧
          ∃ before block after, TemplateBlock text.toList before block after) ∧
        result = { code := text, rewritten := 0, skipped := 0 }) := by
  by_cases blocked : isComponent path = true ∧
      ∃ before block after, TemplateBlock text.toList before block after
  · obtain ⟨component, before, block, after, found⟩ := blocked
    rw [rewriteFile_block component found, map_eq_ok_iff] at done
    obtain ⟨part, donePart, rewritten⟩ := done
    exact .inl ⟨before, block, after, part, component, found, donePart, rewritten⟩
  · rw [rewriteFile_unchanged blocked] at done
    cases done
    exact .inr ⟨blocked, rfl⟩

end Markup
end Permission
