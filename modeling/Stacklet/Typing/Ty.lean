import Stacklet.Tree
/-!
# Types

* `Ty`: the types of the language, and `unknown` for what already has an error.
* `Ty.accepts`: the one implicit conversion, from `int` to `double`.
* `isDoubleLiteral`: which number literals are doubles.
-/

namespace Stacklet

/-- Types. `unknown` is the type of an expression with an error in it; nothing is checked against
it, so that one mistake is reported once. -/
inductive Ty where
  | int | char | double | string | void | unknown
  deriving DecidableEq, Repr

namespace Ty

def name : Ty → String
  | int => "int"
  | char => "char"
  | double => "double"
  | string => "string"
  | void => "void"
  | unknown => "unknown"

/-- The type that a node names; `unknown` for other nodes and names. -/
def ofTree (t : Tree) : Ty :=
  if t.kind = .typeName then
    match t.text with
    | "int" => int
    | "char" => char
    | "double" => double
    | "string" => string
    | "void" => void
    | _ => unknown
  else unknown

/-- The type that the first of some nodes names. -/
def ofFirst (ts : List Tree) : Ty := (ts.head?.map ofTree).getD unknown

def isNumeric : Ty → Bool
  | int | double => true
  | _ => false

/-- Whether a value of type `value` may be stored where `t` is expected. -/
def accepts (t value : Ty) : Bool := t == value || (t == double && value == int)

end Ty

/-- Whether the text of a number literal is that of a double. -/
def isDoubleLiteral (text : String) : Bool :=
  text.toList.any fun c => c == '.' || c == 'e' || c == 'E'

end Stacklet
