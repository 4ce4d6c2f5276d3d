import Stacklet.Number.Digits
import Stacklet.Typing.Ty
/-!
# Errors of typing

* `TypeError`: why a tree is not a well-typed program. `TypeError.message` is the wording.
-/

namespace Stacklet

/-- The statements that have a condition. -/
inductive Construct where
  | conditional | elseIf | whileLoop | doWhile | forLoop
  deriving DecidableEq, Repr

def Construct.name : Construct → String
  | conditional => "If"
  | elseIf => "Else-if"
  | whileLoop => "While"
  | doWhile => "Do-while"
  | forLoop => "For"

/-- The causes of typing errors. -/
inductive TypeError where
  | duplicateFunction (name : String)
  | duplicateVariable (name : String)
  | undeclaredVariable (name : String)
  | functionAsValue (name : String)
  | arraySize (got : Ty)
  | initializer (name : String) (expected got : Ty)
  | condition (construct : Construct) (got : Ty)
  | breakOutsideLoop
  | continueOutsideLoop
  | returnOutsideFunction
  | unexpectedValue
  | missingValue
  | returned (expected got : Ty)
  | unaryOperand (op : String) (got : Ty)
  | comparison (op : String) (left right : Ty)
  | operands (op : String) (left right : Ty)
  | assignmentTarget
  | stringCharacter (name : String)
  | assignment (target value : Ty)
  | arrayIndex (got : Ty)
  | notAnArray (name : String)
  | notAFunction (name : String)
  | undeclaredFunction (name : String)
  | callTarget
  | argumentCount (name : String) (expected got : Nat)
  | argument (position : Nat) (name : String) (expected got : Ty)
  /-- An array was given where none is wanted, or none where one is. -/
  | argumentShape (position : Nat) (name : String) (wantsArray : Bool)
  deriving DecidableEq, Repr

namespace TypeError

def message : TypeError → String
  | duplicateFunction f => "Duplicate function: " ++ f
  | duplicateVariable x => "Duplicate variable: " ++ x
  | undeclaredVariable x => "Undeclared variable: " ++ x
  | functionAsValue f => "Function used as value: " ++ f
  | arraySize got => "Array size must be int, got " ++ got.name
  | initializer x expected got =>
    "Initializer type mismatch for '" ++ x ++ "': expected " ++ expected.name ++
      ", got " ++ got.name
  | condition c got => c.name ++ " condition must be int, got " ++ got.name
  | breakOutsideLoop => "'break' outside of a loop"
  | continueOutsideLoop => "'continue' outside of a loop"
  | returnOutsideFunction => "return outside of function"
  | unexpectedValue => "Unexpected return value in void function"
  | missingValue => "Missing return value"
  | returned expected got =>
    "Return type mismatch: expected " ++ expected.name ++ ", got " ++ got.name
  | unaryOperand op got => "Invalid operand to unary '" ++ op ++ "': " ++ got.name
  | comparison op l r =>
    "Invalid operands to comparison '" ++ op ++ "': " ++ l.name ++ " and " ++ r.name
  | operands op l r => "Invalid operands to binary '" ++ op ++ "': " ++ l.name ++ " and " ++ r.name
  | assignmentTarget => "Invalid assignment target"
  | stringCharacter x => "Cannot assign to a character of string: " ++ x
  | assignment target value =>
    "Assignment type mismatch: cannot assign " ++ value.name ++ " to " ++ target.name
  | arrayIndex got => "Array index must be int, got " ++ got.name
  | notAnArray x => "Indexing non-array variable: " ++ x
  | notAFunction f => "Call of non-function: " ++ f
  | undeclaredFunction f => "Call to undeclared function: " ++ f
  | callTarget => "Call target must be a function name"
  | argumentCount f expected got =>
    "wrong number of arguments in call to " ++ f ++ " (expected " ++ Number.decimal expected ++
      ", got " ++ Number.decimal got ++ ")"
  | argument i f expected got =>
    "argument " ++ Number.decimal i ++ " type mismatch in call to " ++ f ++ ": expected " ++
      expected.name ++ ", got " ++ got.name
  | argumentShape i f wantsArray =>
    "argument " ++ Number.decimal i ++ " in call to " ++ f ++ " must be " ++
      (if wantsArray then "an array" else "a scalar")

end TypeError

end Stacklet
