import Permission.Expr.Lowering
import Permission.Expr.Reader
import Permission.Predicate.Evaluation
import Permission.Token.Cursor

/-!
# Compiling a source

A source becomes a predicate in three steps: tokens, expression, predicate.  Each step has its own
kind of error.
-/

set_option autoImplicit false

namespace Permission

inductive CompilationError where
  | lexical (error : LexicalError)
  | reading (error : ReadingError)
  | lowering (error : LoweringError)
  deriving DecidableEq, Repr

def CompilationError.message : CompilationError → String
  | .lexical error => error.message
  | .reading error => error.message
  | .lowering error => error.message

def Expr.ofSource (source : String) : Except CompilationError Expr := do
  let tokens ← (Token.ofSource source).mapError .lexical
  (Expr.ofTokens tokens).mapError .reading

/-- The predicate that a source spells. -/
def compile (source : String) : Except CompilationError Predicate := do
  let expr ← Expr.ofSource source
  expr.lower.mapError .lowering

def check (source : String) (granted : String → Bool) : Except CompilationError Bool :=
  (compile source).map (Predicate.holds granted)

end Permission
