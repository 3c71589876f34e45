import Permission.CommandLine.FileTree
import Permission.CommandLine.Invocation
import Permission.Expr.Stored
import Permission.Guard
import Permission.Markup.Component

/-!
# What a command prints

Running a command gives an exit code and two texts.  The code is zero for success, one for a
failure and for a denied check, and two for words that are no invocation.
-/

set_option autoImplicit false

namespace Permission
namespace CommandLine

def programName : String := "permexpr"

def programVersion : String := "0.1.0"

structure Outcome where
  code : Nat
  output : String
  errors : String
  deriving DecidableEq, Repr

namespace Outcome

def success (output : String) : Outcome :=
  { code := 0, output, errors := "" }

def indented (indent : String) (text : String) : String :=
  String.ofList (text.toList.flatMap fun c =>
    if c = '\n' then '\n' :: indent.toList else [c])

def numbered (index : Nat) : List String → String
  | [] => ""
  | cause :: causes =>
    "\n    " ++ toString index ++ ": " ++ indented "       " cause ++ numbered (index + 1) causes

def causesText : List String → String
  | [] => ""
  | [cause] => "\n\nCaused by:\n    " ++ indented "    " cause
  | causes => "\n\nCaused by:" ++ numbered 0 causes

/-- A failure with its message and the causes of it, the nearest one first. -/
def failure (message : String) (causes : List String) : Outcome :=
  { code := 1, output := "", errors := "Error: " ++ message ++ causesText causes ++ "\n" }

def usage : Outcome :=
  { code := 2
    output := ""
    errors := "Usage: " ++ programName ++ " [OPTIONS] <COMMAND>\n" }

def ofExcept {Value : Type} (print : Value → Outcome) :
    Except CompilationError Value → Outcome
  | .ok value => print value
  | .error error => failure error.message []

end Outcome

def alignRight (width : Nat) (text : String) : String :=
  String.ofList (List.replicate (width - text.length) ' ') ++ text

def alignLeft (width : Nat) (text : String) : String :=
  text ++ String.ofList (List.replicate (width - text.length) ' ')

def tokenLine (token : Token) : String :=
  alignRight 4 (toString token.offset) ++ "  " ++ alignLeft 12 token.kind.name ++ " " ++
    token.text ++ "\n"

def predicateLines (plain listNames : Bool) (predicate : Predicate) : String :=
  (if plain then predicate.store else predicate.embed) ++ "\n" ++
    (if listNames then String.join (predicate.permissions.map (· ++ "\n")) else "")

def faultCauses : Markup.Fault → List String
  | .expression text offset cause =>
    [(Markup.Fault.expression text offset cause).message, cause.message]
  | .templateLiteral offset => [(Markup.Fault.templateLiteral offset).message]

/-- The outcome of an invocation.  `file` holds the text of the file that it names. -/
def Invocation.outcome (file : Except FileFault String) : Invocation → Outcome
  | .version => .success (programName ++ " " ++ programVersion ++ "\n")
  | .tokens expression =>
    .ofExcept (fun tokens => .success (String.join (tokens.map tokenLine)))
      ((Token.ofSource expression).mapError .lexical)
  | .tree expression =>
    .ofExcept (fun expr => .success (expr.toJson.pretty ++ "\n")) (Expr.ofSource expression)
  | .compile expression plain listNames =>
    .ofExcept (fun predicate => .success (predicateLines plain listNames predicate))
      (Permission.compile expression)
  | .check expression granted =>
    .ofExcept
      (fun decision =>
        if decision.isAllowed then .success "allow\n"
        else { code := 1, output := "deny\n", errors := "" })
      (Guard.fresh.decision (.source expression) granted.contains).1
  | .rewrite path options =>
    match file with
    | .error fault => .failure ("failed to read '" ++ path ++ "'") [fault.message]
    | .ok text =>
      match Markup.rewriteFile options path text with
      | .error fault => .failure ("failed to rewrite '" ++ path ++ "'") (faultCauses fault)
      | .ok result => .success result.code

/-- Runs the program on the words of a command line, with the given way to read a file. -/
def run {m : Type → Type} [Monad m] (readFile : String → m (Except FileFault String))
    (words : List String) : m Outcome :=
  match Invocation.ofWords? words with
  | none => return .usage
  | some (.rewrite path options) => do
    let file ← readFile path
    return Invocation.outcome file (.rewrite path options)
  | some invocation => return invocation.outcome (.error .notFound)

end CommandLine
end Permission
