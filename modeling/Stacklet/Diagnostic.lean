import Stacklet.Machine.Fault
import Stacklet.Tree.Error
import Stacklet.Typing.Error
/-!
# Diagnostics

* `Diagnostic`: an error of any stage, with its place.
* `Diagnostic.render`: the line that shows it.
-/

namespace Stacklet

inductive Diagnostic where
  | parsing (e : Located SyntaxError)
  | typing (e : Located TypeError)
  | running (e : Located Fault)
  deriving DecidableEq, Repr

namespace Diagnostic

def loc : Diagnostic → Loc
  | parsing e => e.loc
  | typing e => e.loc
  | running e => e.loc

def message : Diagnostic → String
  | parsing e => e.cause.message
  | typing e => e.cause.message
  | running e => e.cause.message

/-- What comes before the place. -/
def lead : Diagnostic → String
  | parsing _ | typing _ => "Line "
  | running _ => "Runtime error at line "

def render (d : Diagnostic) : String :=
  d.lead ++ Number.decimal d.loc.line ++ ", col " ++ Number.decimal d.loc.col ++ ": " ++ d.message

end Diagnostic

end Stacklet
