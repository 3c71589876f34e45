import Permission.Markup.Rewriting

/-!
# Invocations

The words of a command line name one command with its operand and its options.  Anything that does
not fit is a usage error.

Options may stand before and after the operand.  A long option takes its value after an equals
sign or from the next word, a short one also from the rest of its own word; a value that is a word
of its own does not begin with a dash, unless it is a single dash.  Two dashes end the options.
Each flag, and each option that holds one value, may be given once.

The flags before the command are looked at one by one, and the one that asks for the version
decides at once.  Two dashes cannot stand before the command.
-/

set_option autoImplicit false

namespace Permission
namespace CommandLine

inductive Invocation where
  | version
  | tokens (expression : String)
  | tree (expression : String)
  | compile (expression : String) (plain listNames : Bool)
  | check (expression : String) (granted : List String)
  | rewrite (path : String) (options : Markup.Options)
  deriving DecidableEq, Repr

inductive Command where
  | tokens
  | tree
  | compile
  | check
  | rewrite
  deriving DecidableEq, Repr

def Command.named? : String → Option Command
  | "tokens" => some .tokens
  | "ast" => some .tree
  | "compile" => some .compile
  | "check" => some .check
  | "rewrite" => some .rewrite
  | _ => none

inductive Switch where
  | version
  | verbose
  | json
  | permissions
  | grant
  | directive
  | skipErrors
  deriving DecidableEq, Repr

namespace Switch

def long : Switch → String
  | .version => "version"
  | .verbose => "verbose"
  | .json => "json"
  | .permissions => "permissions"
  | .grant => "grant"
  | .directive => "directive"
  | .skipErrors => "skip-errors"

def short? : Switch → Option Char
  | .version => some 'V'
  | .verbose => some 'v'
  | .grant => some 'g'
  | _ => none

def takesValue : Switch → Bool
  | .grant => true
  | .directive => true
  | _ => false

def repeatable (option : Switch) : Bool :=
  option = .grant

def general : List Switch := [.version, .verbose]

def ofCommand : Command → List Switch
  | .tokens => [.verbose]
  | .tree => [.verbose]
  | .compile => [.json, .permissions, .verbose]
  | .check => [.grant, .verbose]
  | .rewrite => [.directive, .skipErrors, .verbose]

end Switch

/-- A part of a command line: an option with its value, which is empty for a flag, or a word that
belongs to no option. -/
inductive Part where
  | option (option : Switch) (value : String)
  | operand (word : String)
  deriving DecidableEq, Repr

def isOption (word : List Char) : Bool :=
  word.head? = some '-' && word ≠ ['-']

/-- The parts of a word of short options, without its dash.  An option that takes a value takes
the rest of the word; when nothing is left, `none` stands for the value. -/
def shortParts? (known : List Switch) : List Char → Option (List (Switch × Option String))
  | [] => some []
  | letter :: rest => do
    let option ← known.find? fun option => option.short? = some letter
    if option.takesValue then
      match rest with
      | [] => some [(option, none)]
      | '=' :: value => some [(option, some (String.ofList value))]
      | value => some [(option, some (String.ofList value))]
    else
      return (option, some "") :: (← shortParts? known rest)

def longPart? (known : List Switch) (word : List Char) : Option (Switch × Option String) := do
  let name := String.ofList (word.takeWhile (· ≠ '='))
  let option ← known.find? fun option => option.long = name
  match word.dropWhile (· ≠ '='), option.takesValue with
  | [], true => some (option, none)
  | [], false => some (option, some "")
  | _ :: value, true => some (option, some (String.ofList value))
  | _ :: _, false => none

/-- The options that a word holds.  Only the last one can lack its value. -/
def optionWord? (known : List Switch) : List Char → Option (List (Switch × Option String))
  | '-' :: '-' :: word => (longPart? known word).map ([·])
  | '-' :: word => shortParts? known word
  | _ => none

def complete (options : List (Switch × Option String)) : List Part :=
  options.filterMap fun (option, value?) => value?.map fun value => .option option value

def pending? (options : List (Switch × Option String)) : Option Switch :=
  (options.find? fun entry => entry.2.isNone).map Prod.fst

def parts? (known : List Switch) : List String → Option (List Part)
  | [] => some []
  | "--" :: words => some (words.map .operand)
  | word :: words =>
    if isOption word.toList then
      match optionWord? known word.toList with
      | none => none
      | some options =>
        match pending? options with
        | none => (parts? known words).map (complete options ++ ·)
        | some option =>
          match words with
          | [] => none
          | value :: later =>
            if isOption value.toList then none
            else (parts? known later).map (complete options ++ .option option value :: ·)
    else
      (parts? known words).map (.operand word :: ·)

def operands (parts : List Part) : List String :=
  parts.filterMap fun
    | .operand word => some word
    | .option _ _ => none

def valuesOf (option : Switch) (parts : List Part) : List String :=
  parts.filterMap fun
    | .option given value => if given = option then some value else none
    | .operand _ => none

def countsFit (known : List Switch) (parts : List Part) : Bool :=
  known.all fun option => option.repeatable || (valuesOf option parts).length ≤ 1

/-- The words between the commas of a text, without the blanks around them. -/
def listed (text : String) : List String :=
  (entries text.toList).map fun entry => String.ofList (Text.trimEnd (Text.trimStart entry))
where
  entries : List Char → List (List Char)
    | [] => [[]]
    | ',' :: rest => [] :: entries rest
    | c :: rest =>
      match entries rest with
      | [] => [[c]]
      | first :: others => (c :: first) :: others

def Command.invocation? (command : Command) (operand : String) (parts : List Part) :
    Option Invocation :=
  match command with
  | .tokens => some (.tokens operand)
  | .tree => some (.tree operand)
  | .compile =>
    some (.compile operand (!(valuesOf .json parts).isEmpty)
      (!(valuesOf .permissions parts).isEmpty))
  | .check => some (.check operand ((valuesOf .grant parts).flatMap listed))
  | .rewrite =>
    if operand.isEmpty then
      none
    else
      let defaults : Markup.Options := {}
      some (.rewrite operand
        { directive := (valuesOf .directive parts).head?.getD defaults.directive
          policy := if (valuesOf .skipErrors parts).isEmpty then .abort else .skip })

/-! ### The words before the command -/

inductive Flags where
  | given (flags : List Switch)
  | version
  | unfit
  deriving DecidableEq, Repr

namespace Flags

def add (before : List Switch) (named : Switch → Bool) : Flags :=
  match Switch.general.find? named with
  | some .version => .version
  | some flag => if before.contains flag then .unfit else .given (flag :: before)
  | none => .unfit

/-- Adds the flags of a word of letters, from left to right up to the first one that decides. -/
def addLetters (before : List Switch) : List Char → Flags
  | [] => .given before
  | letter :: rest =>
    match add before fun flag => flag.short? = some letter with
    | .given flags => addLetters flags rest
    | decided => decided

def addWord (before : List Switch) : List Char → Flags
  | '-' :: '-' :: name => add before fun flag => flag.long.toList = name
  | _ :: letters => addLetters before letters
  | [] => .unfit

end Flags

def Command.ofWords? (command : Command) (words : List String) : Option Invocation := do
  let parts ← parts? (Switch.ofCommand command) words
  if countsFit (Switch.ofCommand command) parts then
    match operands parts with
    | [operand] => command.invocation? operand parts
    | _ => none
  else
    none

/-- The invocation that a list of words spells after the given flags, or `none` for a usage
error. -/
def Invocation.ofWordsAfter? (flags : List Switch) : List String → Option Invocation
  | [] => none
  | word :: words =>
    if isOption word.toList then
      match Flags.addWord flags word.toList with
      | .given more => ofWordsAfter? more words
      | .version => some .version
      | .unfit => none
    else
      (Command.named? word).bind fun command => command.ofWords? words

def Invocation.ofWords? (words : List String) : Option Invocation :=
  ofWordsAfter? [] words

end CommandLine
end Permission
