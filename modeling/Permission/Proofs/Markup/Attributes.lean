import Permission.Proofs.Display.Sources
import Permission.Proofs.Markup.Spans
import Permission.Proofs.Storage.Plain

/-!
# Rewriting stays inside of attributes

The embedded predicate of a source consists of the characters of its names and of a few signs that
neither end an attribute nor begin a tag, and a source that compiles has no mark of markup either.
So rewriting neither adds, removes nor moves a double quote or an angle bracket.
-/

set_option autoImplicit false

namespace Permission

namespace Token

theorem not_inName {c : Char} (other : continuesIdentifier c = false) : ¬ InName c := by
  rw [← continuesIdentifier_iff, other]
  exact Bool.false_ne_true

theorem Kind.Admits.inName {name : String} (admitted : Kind.identifier.Admits name) :
    ∀ c ∈ name.toList, InName c := by
  obtain ⟨⟨first, others, shape, begins, inside⟩, _⟩ := admitted
  rw [shape]
  exact List.forall_mem_cons.mpr ⟨.inl begins, inside⟩

end Token

theorem characters_of_compile {source : String} {predicate : Predicate}
    (compiled : compile source = .ok predicate) :
    ∀ c ∈ source.toList, Text.isBlank c = true ∨ Token.InName c ∨ c ∈ Token.signs := by
  obtain ⟨expr, read, _⟩ := compile_ok compiled
  obtain ⟨tokens, tokenized, _⟩ := ok_of_bind read
  obtain ⟨content, _, cover⟩ := Token.ofSource_ok (ok_of_mapError tokenized)
  exact cover.characters

/-! ### Embedded predicates of sources -/

namespace Predicate

open Json (Composed)
open Token (InName)

def embedSigns : List Char :=
  ['\x7b', '\x7d', '[', ']', ':', ',', '\'']

/-- The characters of an embedded predicate whose names are identifiers. -/
def InEmbedded (c : Char) : Prop :=
  InName c ∨ c ∈ embedSigns

theorem escape_of_inName {c : Char} (named : InName c) : Json.escape c = [c] := by
  rcases Json.escape_cases c with ⟨letter, _, stands, _⟩ | ⟨control, _⟩ | ⟨_, _, _, written⟩
  · -- No letter stands for a character of a name.
    unfold Json.letterEscape? at stands
    split at stands <;> cases stands <;> exact absurd named (Token.not_inName (by decide))
  · obtain ⟨low, _⟩ := named.code
    omega
  · exact written

theorem embedCharacter_of_inName {c : Char} (named : InName c) : embedCharacter c = [c] := by
  unfold embedCharacter
  split
  · exact absurd named (Token.not_inName (by decide))
  · exact absurd named (Token.not_inName (by decide))
  · rfl

theorem inEmbedded_framing : ∀ c ∈ Json.framing, ∀ d ∈ embedCharacter c, InEmbedded d := by
  have checked : Json.framing.all fun c => (embedCharacter c).all fun d =>
      Token.continuesIdentifier d || embedSigns.contains d := by decide
  intro c framed d member
  have allowed := List.all_eq_true.mp (List.all_eq_true.mp checked c framed) d member
  rw [InEmbedded, ← Token.continuesIdentifier_iff]
  simpa using allowed

theorem fixedTexts_inName : ∀ text ∈ fixedTexts, ∀ c ∈ text.toList, InName c := by
  have checked : fixedTexts.all fun text => text.toList.all Token.continuesIdentifier := by decide
  intro text fixed c member
  rw [← Token.continuesIdentifier_iff]
  exact List.all_eq_true.mp (List.all_eq_true.mp checked text fixed) c member

theorem embed_inEmbedded {predicate : Predicate}
    (named : ∀ name ∈ predicate.leaves, ∀ c ∈ name.toList, InName c) :
    ∀ c ∈ predicate.embed.toList, InEmbedded c := by
  have composed : Composed fun text => ∀ c ∈ text.flatMap embedCharacter, InEmbedded c := by
    refine ⟨nofun, ?_, ?_⟩
    · intro first second left right
      rw [List.flatMap_append]
      exact List.forall_mem_append.mpr ⟨left, right⟩
    · intro c framed
      rw [List.flatMap_singleton]
      exact inEmbedded_framing c framed
  have texts := allTexts_toJson fixedTexts_inName predicate named
  rw [embed, String.toList_ofList, store_toList]
  apply composed.spelled (textual_toJson predicate)
  intro text member c inside
  have inName := texts text member c inside
  rw [escape_of_inName inName, List.flatMap_singleton, embedCharacter_of_inName inName]
  exact List.forall_mem_singleton.mpr (.inl inName)

theorem inEmbedded_of_compile {source : String} {predicate : Predicate}
    (compiled : compile source = .ok predicate) : ∀ c ∈ predicate.embed.toList, InEmbedded c :=
  embed_inEmbedded fun name member => (leaves_of_compile compiled name member).inName

/-- Characters that could end an attribute or a tag, or begin an escape. -/
def breaking : List Char :=
  ['"', '\\', '<', '>', '&', '`']

theorem InEmbedded.keeps_inside {c : Char} (inside : InEmbedded c) :
    Text.isBlank c = false ∧ c ∉ breaking := by
  rcases inside with named | sign
  · refine ⟨Token.isBlank_of_inName named, ?_⟩
    intro listed
    have checked : breaking.all fun c => !Token.continuesIdentifier c := by decide
    have other := List.all_eq_true.mp checked c listed
    exact Token.not_inName (by simpa using other) named
  · have checked : embedSigns.all fun c => !Text.isBlank c && !breaking.contains c := by decide
    simpa using List.all_eq_true.mp checked c sign

end Predicate

/-! ### Marks of markup -/

namespace Markup

def isMark (c : Char) : Bool :=
  c == '"' || c == '<' || c == '>'

def marks (text : List Char) : List Char :=
  text.filter isMark

theorem marks_append (front back : List Char) : marks (front ++ back) = marks front ++ marks back :=
  List.filter_append front back

theorem isMark_iff {c : Char} : isMark c = true ↔ c ∈ ['"', '<', '>'] := by
  simp [isMark, or_assoc]

theorem marks_expression {expression : List Char} {predicate : Predicate}
    (compiled : compile (String.ofList expression) = .ok predicate) : marks expression = [] := by
  have checked : ['"', '<', '>'].all fun c => !Text.isBlank c &&
      !Token.continuesIdentifier c && !Token.signs.contains c := by decide
  rw [marks, List.filter_eq_nil_iff]
  intro c member marked
  have plain := List.all_eq_true.mp checked c (isMark_iff.mp marked)
  simp only [Bool.and_eq_true, Bool.not_eq_true'] at plain
  have written := characters_of_compile compiled c (by rwa [String.toList_ofList])
  rcases written with blank | named | sign
  · rw [blank] at plain
    cases plain.1.1
  · exact Token.not_inName plain.1.2 named
  · have absent := plain.2
    simp [sign] at absent

theorem marks_embed {source : String} {predicate : Predicate}
    (compiled : compile source = .ok predicate) : marks predicate.embed.toList = [] := by
  rw [marks, List.filter_eq_nil_iff]
  intro c member marked
  have kept := (Predicate.inEmbedded_of_compile compiled c member).keeps_inside.2
  have listed := isMark_iff.mp marked
  simp only [List.mem_cons, List.not_mem_nil, or_false] at listed
  rcases listed with rfl | rfl | rfl <;> exact kept (by simp [Predicate.breaking])

theorem Requires.marks_eq {position : Nat} {value : List Char} {edit : Edit}
    (requires : Requires position value edit) : marks edit.replacement = marks edit.literal := by
  obtain ⟨_, expression, _, predicate, _, compiled, rfl⟩ := requires
  have quote : marks ['\''] = [] := by decide
  dsimp only
  rw [marks_embed compiled, ← List.singleton_append, marks_append, marks_append,
    marks_expression compiled, quote]
  rfl

/-- Edits that keep the marks of what they replace keep the marks of the text. -/
theorem Spliced.marks_eq {position : Nat} {source code : List Char} {edits : List Edit}
    (spliced : Spliced position source code edits)
    (same : ∀ edit ∈ edits, marks edit.replacement = marks edit.literal) :
    marks code = marks source := by
  induction spliced with
  | rest => rfl
  | edit start behind ih =>
      obtain ⟨here, later⟩ := List.forall_mem_cons.mp same
      rw [marks_append, marks_append, marks_append, marks_append, here, ih later]

theorem rewritePart_marks {options : Options} {offset : Nat} {text : List Char}
    {result : Rewritten (List Char)} (done : rewritePart options offset text = .ok result) :
    marks result.code = marks text := by
  obtain ⟨occurrences, edits, replaces⟩ := rewritePart_replaces done
  apply replaces.spliced.marks_eq
  intro edit member
  obtain ⟨occurrence, _, requires⟩ := (replaces.required edit).mp member
  exact requires.marks_eq

theorem rewrite_marks {options : Options} {source : String} {result : Rewritten String}
    (done : rewrite options source = .ok result) :
    marks result.code.toList = marks source.toList := by
  obtain ⟨part, donePart, rfl⟩ := rewrite_eq_ok_iff.mp done
  rw [String.toList_ofList]
  exact rewritePart_marks donePart

theorem rewriteFile_marks {options : Options} {path source : String} {result : Rewritten String}
    (done : rewriteFile options path source = .ok result) :
    marks result.code.toList = marks source.toList := by
  rcases rewriteFile_cases done with
    ⟨before, block, after, part, _, found, donePart, rfl⟩ | ⟨_, rfl⟩
  · rw [String.toList_ofList, found.whole, List.append_assoc, marks_append, marks_append,
      marks_append, marks_append, rewritePart_marks donePart]
  · rfl

/-- The embedded predicate of a source has characters of names and the signs of the embedded form
only, so nothing that breaks out of an attribute; and rewriting keeps the double quotes and the
angle brackets of a text or a file as they are. -/
theorem rewriting_stays_inside :
    (∀ source predicate, compile source = .ok predicate → ∀ c ∈ predicate.embed.toList,
        (Token.InName c ∨ c ∈ ['\x7b', '\x7d', '[', ']', ':', ',', '\'']) ∧
          Text.isBlank c = false ∧ c ∉ ['"', '\\', '<', '>', '&', '`']) ∧
      (∀ options source result, rewrite options source = .ok result →
        result.code.toList.filter (fun c => c == '"' || c == '<' || c == '>') =
          source.toList.filter (fun c => c == '"' || c == '<' || c == '>')) ∧
      ∀ options path source result, rewriteFile options path source = .ok result →
        result.code.toList.filter (fun c => c == '"' || c == '<' || c == '>') =
          source.toList.filter (fun c => c == '"' || c == '<' || c == '>') := by
  refine ⟨?_, ?_, ?_⟩
  · intro source predicate compiled c member
    have inside := Predicate.inEmbedded_of_compile compiled c member
    exact ⟨inside, inside.keeps_inside⟩
  · intro options source result done
    exact rewrite_marks done
  · intro options path source result done
    exact rewriteFile_marks done

theorem rewriting_stays_inside_mixedSpellings :
    compile "!(a||b)&has(Not c)" =
        .ok (.and (.not (.or (.has "a") (.has "b"))) (.not (.has "c"))) ∧
      (∀ c ∈ (Predicate.and (.not (.or (.has "a") (.has "b"))) (.not (.has "c"))).embed.toList,
        Predicate.InEmbedded c ∧ Text.isBlank c = false ∧ c ∉ Predicate.breaking) ∧
      rewrite { directive := "p" } "<p v-p=\"'a'\">" =
        .ok
          { code := "<p v-p=\"\x7b'type':'HAS','val':'a'\x7d\">"
            rewritten := 1
            skipped := 0 } ∧
      marks "<p v-p=\"\x7b'type':'HAS','val':'a'\x7d\">".toList =
        marks "<p v-p=\"'a'\">".toList ∧
      rewriteFile { directive := "p" } "a.vue" "<template v-p=\"'a'\"></template>" =
        .ok
          { code := "<template v-p=\"\x7b'type':'HAS','val':'a'\x7d\"></template>"
            rewritten := 1
            skipped := 0 } ∧
      marks "<template v-p=\"\x7b'type':'HAS','val':'a'\x7d\"></template>".toList =
        marks "<template v-p=\"'a'\"></template>".toList := by
  have compiled : compile "!(a||b)&has(Not c)" =
      .ok (.and (.not (.or (.has "a") (.has "b"))) (.not (.has "c"))) := by
    rw [compile, Expr.ofSource_mixedSpellings]
    rfl
  have done : rewrite { directive := "p" } "<p v-p=\"'a'\">" =
      .ok
        { code := "<p v-p=\"\x7b'type':'HAS','val':'a'\x7d\">"
          rewritten := 1
          skipped := 0 } := by cbv
  have doneFile : rewriteFile { directive := "p" } "a.vue" "<template v-p=\"'a'\"></template>" =
      .ok
        { code := "<template v-p=\"\x7b'type':'HAS','val':'a'\x7d\"></template>"
          rewritten := 1
          skipped := 0 } := by cbv
  obtain ⟨inside, text, file⟩ := rewriting_stays_inside
  exact ⟨compiled, inside _ _ compiled, done, text _ _ _ done, doneFile, file _ _ _ _ doneFile⟩

end Markup
end Permission
