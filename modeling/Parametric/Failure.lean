import Parametric.Formula.SyntaxError

/-!
Failures that end an operation, and issues that are listed in its result.
-/

namespace Parametric

inductive Failure where
  | notFound (what name : String)
  | syntaxError (message : String) (position : Nat)
  | cycle (path : List String)
  | exchange (line : Nat) (message : String)
  | translation (message : String)
  | persistence (message : String)
  | checksumMismatch (expected actual : String)
  /-- Text that is no JSON, or JSON of another shape than expected. -/
  | json
  /-- A file that cannot be read or written. -/
  | file
deriving DecidableEq, Repr, Inhabited

def Failure.message : Failure → String
  | .notFound what name => s!"Not found: {what} '{name}'"
  | .syntaxError message position => s!"Formula syntax error at {position}: {message}"
  | .cycle path => "Circular dependency: " ++ " -> ".intercalate path
  | .exchange line message => s!"Invalid exchange file at line {line}: {message}"
  | .translation message => "Translation failed: " ++ message
  | .persistence message => "Persistence failed: " ++ message
  | .checksumMismatch expected actual => s!"Checksum mismatch: expected {expected}, got {actual}"
  | .json => "JSON error"
  | .file => "IO error"

/-- The failure that a syntax error amounts to. -/
def Failure.ofSyntax (e : Formula.SyntaxError) : Failure :=
  .syntaxError e.cause.message e.position

end Parametric
