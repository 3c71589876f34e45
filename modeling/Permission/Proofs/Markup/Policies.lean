import Permission.Proofs.Markup.Spans

/-!
# How the policies agree

Without a fault both policies give the same result.  With one, the rewriting that skips leaves the
faults in place and counts them, and the rewriting that aborts reports the first of them, at its
place in the whole source.  Main statement: `Markup.policies_agree`.
-/

set_option autoImplicit false

namespace Permission
namespace Markup

/-! ### What a fault reports -/

/-- A text goes on, at the offset of a fault, with what the fault reports: a template literal, or an
expression in single quotes that does not compile for the cause given. -/
inductive Reports : Fault → Nat → List Char → Prop
  | templateLiteral (offset : Nat) (behind : List Char) :
      Reports (.templateLiteral offset) offset ('`' :: behind)
  | expression (offset : Nat) {expression behind : List Char} {cause : CompilationError}
      (noQuote : '\'' ∉ expression)
      (failed : compile (String.ofList expression) = .error cause) :
      Reports (.expression (String.ofList expression) offset cause) offset
        ('\'' :: (expression ++ '\'' :: behind))

/-- A fault reports what a value, which begins so many characters into a source, holds behind its
blanks; its offset is in bytes. -/
def ReportedAt (source value : List Char) (start : Nat) (fault : Fault) : Prop :=
  ∃ front blanks inside behind : List Char,
    source = front ++ (value ++ behind) ∧ front.length = start ∧
      value = blanks ++ inside ∧ (∀ c ∈ blanks, Text.isBlank c = true) ∧
        Reports fault (Text.byteLength (front ++ blanks)) inside

/-- A fault is the one of the first occurrence at fault in a block of a source, of the given number
of occurrences at fault in all. -/
def FirstFault (name source before block : List Char) (skipped : Nat) (fault : Fault) : Prop :=
  ∃ earlier first later,
    (∀ other, Leftmost name block 0 other ↔ other = earlier ++ first :: later) ∧
      (∀ occurrence ∈ earlier, ¬ Faulty occurrence.value) ∧ Faulty first.value ∧
      skipped = (earlier ++ first :: later).countP (fun occurrence => Faulty occurrence.value) ∧
      ReportedAt source first.value (before.length + first.valueStart) fault

/-- Of the runs under the two policies on a source, the one that skips gives the result; the other
one gives it as well if nothing was skipped, and otherwise the first fault of the part that is
rewritten. -/
structure PoliciesAgree (name source : List Char) (Part : List Char → List Char → Prop)
    (run : Policy → Except Fault (Rewritten String)) (kept : Rewritten String) : Prop where
  skips : run .skip = .ok kept
  aborts : ∀ result, run .abort = .ok result ↔ kept.skipped = 0 ∧ result = kept
  fails : kept.skipped ≠ 0 → ∃ fault before block, run .abort = .error fault ∧
    Part before block ∧ FirstFault name source before block kept.skipped fault

theorem replacement_reports {offset : Nat} {value : List Char} {fault : Fault}
    (failed : replacement offset value = .error fault) :
    ∃ blanks inside, value = blanks ++ inside ∧ (∀ c ∈ blanks, Text.isBlank c = true) ∧
      Reports fault (offset + Text.byteLength blanks) inside := by
  rcases content_cases value with ⟨before, expression, after, literal⟩ | ⟨before, template⟩ | other
  · rw [replacement_of_literal literal] at failed
    cases compiled : compile (String.ofList expression) with
    | ok predicate =>
        rw [compiled] at failed
        cases failed
    | error cause =>
        rw [compiled] at failed
        cases failed
        exact ⟨before, _, literal.whole, literal.blankBefore, .expression _ literal.noQuote compiled⟩
  · rw [replacement_of_template template] at failed
    cases failed
    obtain ⟨blank, rest, whole⟩ := template
    exact ⟨before, _, whole, blank, .templateLiteral _ rest⟩
  · rw [replacement_of_other other] at failed
    cases failed

/-! ### The first fault of a list of values -/

/-- The rewriting of values fails with the fault of the first one at fault, unless it skips. -/
theorem rewriteValues_eq_error_iff {policy : Policy} {offset : Nat}
    {values : List (List Char × List Char)} {fault : Fault} :
    rewriteValues policy offset values = .error fault ↔
      policy = .abort ∧ ∃ earlier first later, values = earlier ++ first :: later ∧
        (∀ entry ∈ earlier, ¬ Faulty entry.1) ∧
        replacement (offset + Text.byteLength (joined earlier)) first.1 = .error fault := by
  induction values generalizing offset with
  | nil =>
      constructor
      · nofun
      · rintro ⟨_, earlier, first, later, split, _⟩
        simp at split
  | cons entry rest ih =>
      obtain ⟨value, following⟩ := entry
      rw [rewriteValues_cons]
      by_cases stops : policy = .abort ∧ Faulty value
      · rw [if_pos stops, map_eq_error_iff]
        constructor
        · intro failed
          exact ⟨stops.1, [], (value, following), rest, rfl, nofun, failed⟩
        · rintro ⟨_, earlier, first, later, split, sound, failed⟩
          rcases List.cons_eq_append_iff.mp split with ⟨rfl, same⟩ | ⟨earlier, rfl, _⟩
          · cases same
            exact failed
          · exact absurd stops.2 (sound _ List.mem_cons_self)
      · have shift (earlier : List (List Char × List Char)) :
            offset + Text.byteLength (joined ((value, following) :: earlier)) =
              offset + Text.byteLength value + Text.byteLength following +
                Text.byteLength (joined earlier) := by
          simp only [joined, List.flatMap_cons, Text.byteLength_append]
          omega
        rw [if_neg stops, map_eq_error_iff, ih]
        constructor
        · rintro ⟨aborts, earlier, first, later, rfl, sound, failed⟩
          refine ⟨aborts, (value, following) :: earlier, first, later, rfl, ?_, ?_⟩
          · exact List.forall_mem_cons.mpr ⟨fun faulty => stops ⟨aborts, faulty⟩, sound⟩
          · rwa [shift]
        · rintro ⟨aborts, earlier, first, later, split, sound, failed⟩
          rcases List.cons_eq_append_iff.mp split with ⟨rfl, same⟩ | ⟨earlier, rfl, rfl⟩
          · cases same
            exact absurd ⟨aborts, (replacement_isError_iff _).mp ⟨fault, failed⟩⟩ stops
          · rw [shift] at failed
            exact ⟨aborts, earlier, first, later, rfl, (List.forall_mem_cons.mp sound).2, failed⟩

theorem rewritePart_eq_error_iff {options : Options} {offset : Nat} {text : List Char}
    {fault : Fault} :
    rewritePart options offset text = .error fault ↔
      options.policy = .abort ∧ ∃ earlier first later,
        (ofText options.directive.toList text).values = earlier ++ first :: later ∧
          (∀ entry ∈ earlier, ¬ Faulty entry.1) ∧
          replacement
            (offset + Text.byteLength ((ofText options.directive.toList text).head ++
              joined earlier)) first.1 = .error fault := by
  simp only [Text.byteLength_append, ← Nat.add_assoc]
  exact map_eq_error_iff.trans rewriteValues_eq_error_iff

/-! ### A part of a source -/

variable {source before block after : List Char}

/-- A value of a split text is in the text behind the values before it. -/
theorem ofText_value {name text value following : List Char}
    {earlier later : List (List Char × List Char)}
    (values : (ofText name text).values = earlier ++ (value, following) :: later) :
    text = ((ofText name text).head ++ joined earlier) ++
      (value ++ (following ++ joined later)) := by
  have whole := flatten_ofText name text
  rw [flatten_eq, values] at whole
  simpa [joined] using whole.symm

theorem placed_append (position : Nat) (earlier later : List (List Char × List Char)) :
    placed position (earlier ++ later) =
      placed position earlier ++ placed (position + (joined earlier).length) later := by
  induction earlier generalizing position with
  | nil => rfl
  | cons entry earlier ih =>
      rw [List.cons_append, placed, placed, ih, List.cons_append]
      simp only [joined, List.flatMap_cons, List.length_append, Nat.add_assoc]

/-- A run that aborts reports the first occurrence at fault, at its place in the source. -/
theorem rewritePart_firstFault {options : Options} {fault : Fault}
    (whole : source = before ++ (block ++ after))
    (failed : rewritePart options (Text.byteLength before) block = .error fault) :
    FirstFault options.directive.toList source before block
      (rewrittenMarkup (ofText options.directive.toList block)).skipped fault := by
  obtain ⟨_, earlier, ⟨value, following⟩, later, values, sound, failedFirst⟩ :=
    rewritePart_eq_error_iff.mp failed
  obtain ⟨occurrences, scan, places⟩ := ofText_leftmost options.directive.toList block
  have counted := congrArg (List.countP fun value => Faulty value) (values_of_places places)
  rw [List.countP_map, List.countP_map] at counted
  -- The scan falls apart where the values do.
  rw [values, placed_append, placed] at places
  obtain ⟨front, back, rfl, placesFront, placesBack⟩ := List.map_eq_append_iff.mp places
  obtain ⟨first, behind, rfl, place, _⟩ := List.map_eq_cons_iff.mp placesBack
  obtain ⟨start, rfl⟩ := Prod.mk.inj place
  obtain ⟨blanks, inside, shape, blank, reports⟩ := replacement_reports failedFirst
  refine ⟨front, first, behind, scan, ?_, ?_, counted.symm, ?_⟩
  · intro occurrence member
    have listed : occurrence.value ∈ earlier.map Prod.fst := by
      rw [← values_of_places placesFront]
      exact List.mem_map_of_mem member
    obtain ⟨entry, known, same⟩ := List.mem_map.mp listed
    rw [← same]
    exact sound entry known
  · exact (replacement_isError_iff _).mp ⟨fault, failedFirst⟩
  · let head := (ofText options.directive.toList block).head
    refine ⟨before ++ (head ++ joined earlier), blanks, inside, following ++ (joined later ++ after),
      ?_, ?_, shape, blank, ?_⟩
    · calc source
          = before ++ (block ++ after) := whole
        _ = before ++ (((head ++ joined earlier) ++
              (first.value ++ (following ++ joined later))) ++ after) :=
            congrArg (fun block => before ++ (block ++ after)) (ofText_value values)
        _ = _ := by simp only [List.append_assoc]
    · rw [start, List.length_append, List.length_append]
    · rwa [List.append_assoc, Text.byteLength_append, Text.byteLength_append,
        ← Nat.add_assoc]

theorem policiesAgree_of_part {name : String} {Part : List Char → List Char → Prop}
    {run : Policy → Except Fault (Rewritten String)}
    {finish : Rewritten (List Char) → Rewritten String}
    (whole : source = before ++ (block ++ after)) (part : Part before block)
    (counts : ∀ result, (finish result).skipped = result.skipped)
    (runs : ∀ policy, run policy =
      (rewritePart { directive := name, policy } (Text.byteLength before) block).map finish) :
    ∃ kept, PoliciesAgree name.toList source Part run kept := by
  let kept := rewrittenMarkup (ofText name.toList block)
  have skipped : (finish kept).skipped = 0 ↔
      ∀ entry ∈ (ofText name.toList block).values, ¬ Faulty entry.1 := by
    rw [counts]
    simp [kept, rewrittenMarkup, rewrittenValues, List.countP_eq_zero]
  have aborts (result : Rewritten String) :
      run .abort = .ok result ↔ (finish kept).skipped = 0 ∧ result = finish kept := by
    rw [runs, map_eq_ok_iff, skipped]
    constructor
    · rintro ⟨_, done, rfl⟩
      obtain ⟨sound, rfl⟩ := rewritePart_eq_ok_iff.mp done
      exact ⟨sound rfl, rfl⟩
    · rintro ⟨sound, rfl⟩
      exact ⟨kept, rewritePart_eq_ok_iff.mpr ⟨fun _ => sound, rfl⟩, rfl⟩
  refine ⟨finish kept, ?_, aborts, ?_⟩
  · rw [runs, map_eq_ok_iff]
    exact ⟨kept, rewritePart_eq_ok_iff.mpr ⟨Policy.noConfusion, rfl⟩, rfl⟩
  · intro faulty
    cases done : run .abort with
    | ok result => exact absurd ((aborts result).mp done).1 faulty
    | error fault =>
        have failed := done
        rw [runs, map_eq_error_iff] at failed
        refine ⟨fault, before, block, rfl, part, ?_⟩
        rw [counts]
        exact rewritePart_firstFault whole failed

theorem policiesAgree_of_unchanged {name : List Char} {Part : List Char → List Char → Prop}
    {run : Policy → Except Fault (Rewritten String)} {kept : Rewritten String}
    (runs : ∀ policy, run policy = .ok kept) (sound : kept.skipped = 0) :
    PoliciesAgree name source Part run kept where
  skips := runs .skip
  aborts := by
    intro result
    rw [runs]
    constructor
    · intro done
      cases done
      exact ⟨sound, rfl⟩
    · intro same
      rw [same.2]
  fails := fun faulty => absurd sound faulty

/-- Skipping always gives a result.  Aborting gives the same one if nothing was skipped, and fails
with the first fault otherwise; in a file that is the first one of the template block, and the
offset that it reports is still one of the whole file. -/
theorem policies_agree (directive path source : String) :
    (∃ kept, PoliciesAgree directive.toList source.toList
        (fun before block => before = [] ∧ block = source.toList)
        (fun policy => rewrite { directive, policy } source) kept) ∧
      ∃ kept, PoliciesAgree directive.toList source.toList
        (fun before block => isComponent path = true ∧
          ∃ after, TemplateBlock source.toList before block after)
        (fun policy => rewriteFile { directive, policy } path source) kept := by
  constructor
  · exact policiesAgree_of_part (List.append_nil _).symm ⟨rfl, rfl⟩ (fun _ => rfl) fun _ => rfl
  · by_cases blocked : isComponent path = true ∧
        ∃ before block after, TemplateBlock source.toList before block after
    · obtain ⟨component, before, block, after, found⟩ := blocked
      exact policiesAgree_of_part found.whole ⟨component, after, found⟩ (fun _ => rfl)
        fun policy => rewriteFile_block component found _
    · have unchanged (policy : Policy) := rewriteFile_unchanged blocked { directive, policy }
      exact ⟨_, policiesAgree_of_unchanged unchanged rfl⟩

example :
    rewriteFile { directive := "p" } "a.vue" "é<template v-p=\"`\"></template>" =
      .error (.templateLiteral 17) := by cbv

end Markup
end Permission
