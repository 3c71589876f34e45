import Permission.Text.Blank

/-!
# Directives in markup

A directive is an attribute `v-name="value"` in markup.  It begins at the start of the text or
after a blank, blanks may stand around the equals sign, and its value reaches to the next double
quote.  `Markup.ofText` splits a text at the values of a directive, from left to right; main
statement: `Markup.flatten_ofText`, nothing is lost.
-/

set_option autoImplicit false

namespace Permission
namespace Text

def after? : List Char → List Char → Option (List Char)
  | [], text => some text
  | _ :: _, [] => none
  | wanted :: later, c :: text => if wanted = c then after? later text else none

theorem after_eq_append {beginning text rest : List Char}
    (found : after? beginning text = some rest) : text = beginning ++ rest := by
  induction beginning generalizing text with
  | nil =>
      simp only [after?, Option.some.injEq] at found
      simp [found]
  | cons wanted later ih =>
      cases text with
      | nil => simp [after?] at found
      | cons c text =>
          unfold after? at found
          split at found
          · rename_i same
            rw [same, ih found, List.cons_append]
          · simp at found

end Text

/-- Marked-up text, split at the values of a directive: the text before the first value, and each
value with the text that follows it up to the next one. -/
structure Markup where
  head : List Char
  values : List (List Char × List Char)
  deriving DecidableEq, Repr

namespace Markup

def flatten (markup : Markup) : List Char :=
  markup.head ++ markup.values.flatMap fun (value, following) => value ++ following

def prepend (text : List Char) (markup : Markup) : Markup :=
  { markup with head := text ++ markup.head }

/-- A directive at the front of a text: the characters up to the quote that opens its value, the
value, and the text from the closing quote on. -/
structure Directive where
  opening : List Char
  value : List Char
  closed : List Char

def directive? (name text : List Char) : Option Directive := do
  let named ← Text.after? ('v' :: '-' :: name) text
  let valued ← Text.after? ['='] (Text.trimStart named)
  let value ← Text.after? ['"'] (Text.trimStart valued)
  let closed := value.dropWhile (· ≠ '"')
  if closed.isEmpty then
    none
  else
    some
      { opening :=
          'v' :: '-' :: name ++ Text.leadingBlanks named ++ '=' :: Text.leadingBlanks valued ++ ['"']
        value := value.takeWhile (· ≠ '"')
        closed }

theorem directive_flatten {name text : List Char} {found : Directive}
    (present : directive? name text = some found) :
    text = found.opening ++ found.value ++ found.closed := by
  unfold directive? at present
  simp only [bind, Option.bind_eq_some_iff] at present
  obtain ⟨named, hNamed, valued, hValued, value, hValue, built⟩ := present
  split at built
  · simp at built
  · simp only [Option.some.injEq] at built
    subst built
    have first := Text.after_eq_append hNamed
    have second := Text.after_eq_append hValued
    have third := Text.after_eq_append hValue
    have namedSplit := Text.leadingBlanks_append_trimStart named
    have valuedSplit := Text.leadingBlanks_append_trimStart valued
    have valueSplit := List.takeWhile_append_dropWhile (p := (· ≠ '"')) (l := value)
    calc text
        = ('v' :: '-' :: name) ++ (Text.leadingBlanks named ++ (['='] ++
            (Text.leadingBlanks valued ++ (['"'] ++
              (value.takeWhile (· ≠ '"') ++ value.dropWhile (· ≠ '"')))))) := by
          rw [valueSplit, ← third, valuedSplit, ← second, namedSplit, ← first]
      _ = _ := by simp

theorem directive_shortens {name text : List Char} {found : Directive}
    (present : directive? name text = some found) : found.closed.length < text.length := by
  have whole := directive_flatten present
  have opened : found.opening ≠ [] := by
    unfold directive? at present
    simp only [bind, Option.bind_eq_some_iff] at present
    obtain ⟨named, _, valued, _, value, _, built⟩ := present
    split at built
    · simp at built
    · simp only [Option.some.injEq] at built
      subst built
      simp
  have positive := List.length_pos_iff.mpr opened
  rw [whole, List.length_append, List.length_append]
  omega

/-- Splits a text at the values of a directive.  `boundary` says whether a directive may begin at
the front of the text. -/
def split (name : List Char) (boundary : Bool) (text : List Char) : Markup :=
  match _found : if boundary then directive? name text else none with
  | some directive =>
    -- The closing quote is no blank, so no directive begins behind it at once.
    let later := split name false directive.closed
    { head := directive.opening, values := (directive.value, later.head) :: later.values }
  | none =>
    match text with
    | [] => { head := [], values := [] }
    | c :: rest => (split name (Text.isBlank c) rest).prepend [c]
termination_by text.length
decreasing_by
  · split at _found
    · exact directive_shortens _found
    · simp at _found
  · simp

def ofText (name text : List Char) : Markup :=
  split name true text

theorem flatten_split (name : List Char) (boundary : Bool) (text : List Char) :
    (split name boundary text).flatten = text := by
  fun_induction split name boundary text with
  | case1 boundary text directive found later ih =>
      split at found
      · have whole := directive_flatten found
        have tail : later.head ++ later.values.flatMap (fun (value, following) =>
            value ++ following) = directive.closed := ih
        rw [whole, ← tail]
        simp [flatten]
      · simp at found
  | case2 => rfl
  | case3 boundary c rest _ ih =>
      simp only [flatten, prepend] at ih ⊢
      simp [ih]

theorem flatten_ofText (name text : List Char) : (ofText name text).flatten = text :=
  flatten_split name true text

end Markup
end Permission
