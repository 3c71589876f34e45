import Permission.Markup.Component

/-!
# Files

The one thing that a command asks of its surroundings is the text of a file.  A `FileTree` answers
from a list of texts.  A path is followed part by part from the working directory or, when it
begins with a slash, from the root: empty parts and single dots stay, two dots go up, and at the
root they stay.  Every part needs a directory to start from, so also a slash or a dot behind the
name of a file is a fault.  The first fault on the way is the one that is reported.
-/

set_option autoImplicit false

namespace Permission
namespace CommandLine

inductive FileFault where
  | notFound
  | notADirectory
  | isADirectory
  | nameTooLong
  | other (text : String)
  deriving DecidableEq, Repr

def FileFault.message : FileFault → String
  | .notFound => "No such file or directory (os error 2)"
  | .notADirectory => "Not a directory (os error 20)"
  | .isADirectory => "Is a directory (os error 21)"
  | .nameTooLong => "File name too long (os error 36)"
  | .other text => text

/-- A place in a file tree: the names on the way to it from the root. -/
abbrev Place := List (List Char)

structure FileTree where
  workingDirectory : Place
  files : List (Place × String)
  deriving Repr

namespace FileTree

def nameLimit : Nat := 255

/-- The number of bytes that a path stays below. -/
def pathLimit : Nat := 4096

def fileAt? (tree : FileTree) (place : Place) : Option String :=
  tree.files.lookup place

/-- A place is a directory when it leads to the working directory or to a file below it. -/
def isDirectory (tree : FileTree) (place : Place) : Bool :=
  place.isPrefixOf tree.workingDirectory ||
    tree.files.any fun (other, _) => place.isPrefixOf other && place ≠ other

def follow (tree : FileTree) (place : Place) (part : List Char) : Except FileFault Place :=
  if !tree.isDirectory place then
    .error .notADirectory
  else if part = [] ∨ part = ['.'] then
    .ok place
  else if part = ['.', '.'] then
    -- The root is its own parent.
    .ok place.dropLast
  else if nameLimit < Text.byteLength part then
    .error .nameTooLong
  else
    let next := place ++ [part]
    if tree.isDirectory next || (tree.fileAt? next).isSome then .ok next else .error .notFound

def resolve (tree : FileTree) (path : List Char) : Except FileFault Place :=
  if pathLimit ≤ Text.byteLength path then
    .error .nameTooLong
  else
    let start := if path.head? = some '/' then [] else tree.workingDirectory
    (Markup.pathParts path).foldlM tree.follow start

def read (tree : FileTree) (path : String) : Except FileFault String := do
  let place ← tree.resolve path.toList
  match tree.fileAt? place with
  | some text => return text
  | none => .error .isADirectory

def names (path : String) : Place :=
  (Markup.pathParts path.toList).filter fun part => part ≠ [] ∧ part ≠ ['.']

/-- A tree whose working directory holds the given texts.  It is a directory for temporary files;
its own name is empty, so that no path leads into it from above.  Outside of it there is the null
device, a file without text. -/
def ofTexts (texts : List (String × String)) : FileTree :=
  let here : Place := [['t', 'm', 'p'], []]
  { workingDirectory := here
    files :=
      (names "dev/null", "") :: texts.map fun (name, text) => (here ++ names name, text) }

end FileTree
end CommandLine
end Permission
