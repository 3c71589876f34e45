import Permission.Compilation
import Permission.Markup
import Permission.Predicate.Stored

/-!
# Rewriting directives

Rewriting replaces the quoted literals in the values of a directive by the embedded predicates
that they compile to.  All other text stays as it is.  A literal that does not compile, or a
template literal, either stops the rewriting or is left in place, as the policy says.
-/

set_option autoImplicit false

namespace Permission
namespace Markup

/-- What the value of a directive holds, with the blanks `before` and `after` it. -/
inductive Content where
  | literal (before expression after : List Char)
  | template (before : List Char)
  | other
  deriving DecidableEq, Repr

/-- The text between the first and the last character of a text, if both are single quotes and no
other one stands between them. -/
def unquoted? : List Char → Option (List Char)
  | '\'' :: rest =>
    if rest.getLast? = some '\'' ∧ '\'' ∉ rest.dropLast then some rest.dropLast else none
  | _ => none

def Content.ofValue (value : List Char) : Content :=
  let inner := Text.trimStart value
  let trimmed := Text.trimEnd inner
  if trimmed.head? = some '`' then
    .template (Text.leadingBlanks value)
  else
    match unquoted? trimmed with
    | some expression =>
      .literal (Text.leadingBlanks value) expression (inner.drop trimmed.length)
    | none => .other

inductive Fault where
  | expression (text : String) (offset : Nat) (cause : CompilationError)
  | templateLiteral (offset : Nat)
  deriving DecidableEq, Repr

def Fault.message : Fault → String
  | .expression text offset cause =>
    "invalid permission expression `" ++ text ++ "` at offset " ++ toString offset ++ ": " ++
      cause.message
  | .templateLiteral _ => "template literals are not supported"

inductive Policy where
  | abort
  | skip
  deriving DecidableEq, Repr

structure Options where
  directive : String := "permission"
  policy : Policy := .abort
  deriving DecidableEq, Repr

/-- A rewritten text, with the numbers of the directives that were rewritten and of those that
were left in place because of a fault. -/
structure Rewritten (Text : Type) where
  code : Text
  rewritten : Nat
  skipped : Nat
  deriving DecidableEq, Repr

/-- What a value that begins at the given offset becomes, or `none` when it is left alone. -/
def replacement (offset : Nat) (value : List Char) : Except Fault (Option (List Char)) :=
  match Content.ofValue value with
  | .other => .ok none
  | .template before => .error (.templateLiteral (offset + Text.byteLength before))
  | .literal before expression after =>
    let source := String.ofList expression
    match compile source with
    | .ok predicate => .ok (some (before ++ predicate.embed.toList ++ after))
    | .error cause =>
      .error (.expression source (offset + Text.byteLength before) cause)

def rewriteValues (policy : Policy) (offset : Nat) :
    List (List Char × List Char) → Except Fault (Rewritten (List Char))
  | [] => .ok { code := [], rewritten := 0, skipped := 0 }
  | (value, following) :: later =>
    let next := offset + Text.byteLength value + Text.byteLength following
    match replacement offset value, policy with
    | .error fault, .abort => .error fault
    | .error _, .skip => do
      let rest ← rewriteValues policy next later
      return { rest with code := value ++ following ++ rest.code, skipped := rest.skipped + 1 }
    | .ok none, _ => do
      let rest ← rewriteValues policy next later
      return { rest with code := value ++ following ++ rest.code }
    | .ok (some replaced), _ => do
      let rest ← rewriteValues policy next later
      return { rest with
        code := replaced ++ following ++ rest.code, rewritten := rest.rewritten + 1 }

def rewritePart (options : Options) (offset : Nat) (text : List Char) :
    Except Fault (Rewritten (List Char)) := do
  let markup := ofText options.directive.toList text
  let values ←
    rewriteValues options.policy (offset + Text.byteLength markup.head) markup.values
  return { values with code := markup.head ++ values.code }

def rewrite (options : Options) (text : String) : Except Fault (Rewritten String) := do
  let result ← rewritePart options 0 text.toList
  return { result with code := String.ofList result.code }

end Markup
end Permission
