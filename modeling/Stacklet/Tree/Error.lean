/-!
# Errors of syntax

* `Wanted`: what a parser looks for, and behind what.
* `SyntaxError`: why a list of tokens is not a program. `SyntaxError.message` is the wording.
-/

namespace Stacklet

/-- What should have stood at a place. -/
inductive Wanted where
  | item (what : String)
  | behind (what context : String)
  deriving DecidableEq, Repr

def Wanted.describe : Wanted → String
  | item what => "expected " ++ what
  | behind what context => "expected " ++ what ++ " after " ++ context

/-- The causes of syntax errors. -/
inductive SyntaxError where
  /-- Something wanted is not there. -/
  | missing (w : Wanted)
  /-- A token with the text `found` stands in the place of something wanted. -/
  | misplaced (w : Wanted) (found : String)
  | arrayInitializer
  | assignmentTarget
  | endInExpression
  | unexpected (found : String)
  /-- The bound of a loop or of the recursion is used up. No list of tokens leads to this. -/
  | unfinished
  deriving DecidableEq, Repr

namespace SyntaxError

def message : SyntaxError → String
  | missing w => w.describe
  | misplaced w found => w.describe ++ " at '" ++ found ++ "'"
  | arrayInitializer => "array declaration cannot have an initializer"
  | assignmentTarget => "left side of assignment must be variable or array element"
  | endInExpression => "unexpected end of input in expression"
  | unexpected found => "unexpected token in expression: '" ++ found ++ "'"
  | unfinished => "input too long"

end SyntaxError

end Stacklet
