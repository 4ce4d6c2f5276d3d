import Stacklet.Typing.Error
import Stacklet.Typing.Scope
/-!
# Collecting typing errors

* `Checker`: computations that look up and declare names and collect errors. They never fail: what
  has an error gets the type `unknown`.
* `Checker.requireInt`, `Checker.declareVar`, …: the single checks that the rules for expressions
  and statements are made of.
-/

namespace Stacklet

/-- What is known at a place of the program, and the errors so far. -/
structure Checker.State where
  scopes : Scopes
  errors : Array (Located TypeError) := #[]
  /-- Names that were reported as undeclared in the current function. -/
  undeclared : List String := []
  inFunction : Bool := false
  loopDepth : Nat := 0
  returnType : Ty := .void

abbrev Checker := StateM Checker.State

namespace Checker

def report (loc : Loc) (e : TypeError) : Checker Unit :=
  modify fun s => { s with errors := s.errors.push ⟨loc, e⟩ }

def lookup (name : String) : Checker (Option Entry) := return (← get).scopes.lookup? name

/-- Declares a name in the innermost scope and says whether it was free there. -/
def declare (name : String) (e : Entry) : Checker Bool := do
  match (← get).scopes.declare? name e with
  | some scopes =>
    modify fun s => { s with scopes }
    return true
  | none => return false

/-- Declares the variable of a `parameter` or `declarator`. -/
def declareVar (t : Tree) (ty : Ty) : Checker Unit := do
  unless ← declare t.text (.var ty t.isArray) do report t.loc (.duplicateVariable t.text)

/-- Runs a check in a new innermost scope. -/
def inScope (check : Checker Unit) : Checker Unit := do
  modify fun s => { s with scopes := [] :: s.scopes }
  check
  modify fun s => { s with scopes := s.scopes.tail }

/-- Runs a check inside one more loop. -/
def inLoop (check : Checker Unit) : Checker Unit := do
  modify fun s => { s with loopDepth := s.loopDepth + 1 }
  check
  modify fun s => { s with loopDepth := s.loopDepth - 1 }

/-- Reports `e` unless the type is `int` or has an error already. -/
def requireInt (loc : Loc) (ty : Ty) (e : Ty → TypeError) : Checker Unit :=
  unless ty = .int ∨ ty = .unknown do report loc (e ty)

/-- Reports `e` unless a value of type `got` may be stored as `expected`, or either has an error
already. -/
def requireAccepted (loc : Loc) (expected got : Ty) (e : TypeError) : Checker Unit :=
  unless expected = .unknown ∨ got = .unknown ∨ expected.accepts got do report loc e

end Checker

end Stacklet
