import Permission.Markup.Rewriting

/-!
# Component files

A component file is known by its extension and holds markup in a template block.  Only that block
is rewritten: it reaches from the first opening of a template to the end of the last closing tag.
-/

set_option autoImplicit false

namespace Permission
namespace Markup

/-! ### The extension of a path -/

def pathParts : List Char → List (List Char)
  | [] => [[]]
  | '/' :: rest => [] :: pathParts rest
  | c :: rest =>
    match pathParts rest with
    | [] => [[c]]
    | first :: others => (c :: first) :: others

/-- The file name of a path: its last part that is neither empty nor a single dot.  A path that
ends in two dots has none. -/
def fileName? (path : List Char) : Option (List Char) :=
  match (pathParts path).reverse.find? fun part => part ≠ [] ∧ part ≠ ['.'] with
  | some ['.', '.'] => none
  | found => found

/-- The extension of a file name: what follows its last dot, unless that dot comes first. -/
def extensionOf? (name : List Char) : Option (List Char) :=
  let tail := name.reverse.takeWhile (· ≠ '.')
  if tail.length + 1 < name.length then some tail.reverse else none

def isComponent (path : String) : Bool :=
  ((fileName? path.toList).bind extensionOf?) == some ['v', 'u', 'e']

/-! ### The template block -/

def before? (wanted : List Char) : List Char → Option (List Char)
  | [] => if wanted.isEmpty then some [] else none
  | c :: rest =>
    if wanted.isPrefixOf (c :: rest) then some []
    else (before? wanted rest).map (c :: ·)

def afterLast? (wanted text : List Char) : Option (List Char) :=
  (before? wanted.reverse text.reverse).map List.reverse

def blockOpening : String := "<template"

def blockClosing : String := "</template>"

/-- The number of characters before the template block and the number up to its end. -/
def templateBlock? (text : List Char) : Option (Nat × Nat) := do
  let before ← before? blockOpening.toList text
  let after ← afterLast? blockClosing.toList text
  let stop := text.length - after.length
  if before.length < stop then some (before.length, stop) else none

/-- Rewrites the template block of a component file.  Other files, and components without a block,
stay as they are. -/
def rewriteFile (options : Options) (path text : String) : Except Fault (Rewritten String) := do
  let characters := text.toList
  match if isComponent path then templateBlock? characters else none with
  | none => return { code := text, rewritten := 0, skipped := 0 }
  | some (start, stop) =>
    let before := characters.take start
    let block := (characters.take stop).drop start
    let result ← rewritePart options (Text.byteLength before) block
    return { result with code := String.ofList (before ++ result.code ++ characters.drop stop) }

end Markup
end Permission
