import Permission.Cache
import Permission.Compilation
import Permission.Predicate.Stored

/-!
# Guards

A guard decides whether granted permissions satisfy a binding.  It keeps the predicates of the
sources that it has compiled; the text of a source is the key.  A source that does not compile
leaves the guard as it was.
-/

set_option autoImplicit false

namespace Permission

/-- What a guarded element is bound to.  A source is compiled when it is first used. -/
inductive Binding where
  | source (text : String)
  | predicate (bound : Predicate)
  deriving DecidableEq, Repr

def Binding.extract (text : String) : Except StorageError Binding :=
  (Predicate.extract text).map .predicate

/-- The text of a binding in reasons. -/
def Binding.display : Binding → String
  | .source text => text
  | .predicate bound => bound.display

inductive Decision where
  | allow
  | deny (reason : String)
  deriving DecidableEq, Repr

namespace Decision

def isAllowed : Decision → Bool
  | .allow => true
  | .deny _ => false

def reason? : Decision → Option String
  | .allow => none
  | .deny reason => some reason

def ofResult (binding : Binding) (result : Bool) : Decision :=
  if result then .allow else .deny ("`" ++ binding.display ++ "` is not satisfied")

end Decision

structure Guard where
  compiled : Cache String Predicate

namespace Guard

def defaultCapacity : Nat := 1024

def withCapacity (capacity : Nat) (positive : 0 < capacity) : Guard :=
  { compiled := .empty capacity positive }

def fresh : Guard :=
  withCapacity defaultCapacity (by decide)

def cached (guard : Guard) : Nat :=
  guard.compiled.size

def resolve (guard : Guard) (source : String) : Except CompilationError Predicate × Guard :=
  match guard.compiled.find source with
  | (some predicate, compiled) => (.ok predicate, { compiled })
  | (none, _) =>
    match compile source with
    | .ok predicate => (.ok predicate, { compiled := guard.compiled.insert source predicate })
    -- Only a source that compiles is kept.
    | .error error => (.error error, guard)

def predicateOf (guard : Guard) : Binding → Except CompilationError Predicate × Guard
  | .source text => guard.resolve text
  | .predicate bound => (.ok bound, guard)

/-- Decides a binding, and says why it is denied. -/
def decision (guard : Guard) (binding : Binding) (granted : String → Bool) :
    Except CompilationError Decision × Guard :=
  let (resolved, after) := guard.predicateOf binding
  (resolved.map fun predicate => .ofResult binding (predicate.holds granted), after)

def isPermitted (guard : Guard) (binding : Binding) (granted : String → Bool) :
    Except CompilationError Bool × Guard :=
  let (decided, after) := guard.decision binding granted
  (decided.map Decision.isAllowed, after)

def summary (guard : Guard) : String :=
  "Guard \x7b cached: " ++ toString guard.cached ++ ", capacity: " ++
    toString guard.compiled.capacity ++ " \x7d"

end Guard
end Permission
