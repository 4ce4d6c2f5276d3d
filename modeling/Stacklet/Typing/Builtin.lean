import Stacklet.Typing.Ty
/-!
# Built-in functions

* `Builtin`: the functions that every program may call, with their names and types.
-/

namespace Stacklet

inductive Builtin where
  | printInt | printDouble | printStr | inputInt | inputDouble | inputStr | timeUp
  deriving DecidableEq, Repr

namespace Builtin

def all : List Builtin := [printInt, printDouble, printStr, inputInt, inputDouble, inputStr, timeUp]

def name : Builtin → String
  | printInt => "printInt"
  | printDouble => "printDouble"
  | printStr => "printStr"
  | inputInt => "inputInt"
  | inputDouble => "inputDouble"
  | inputStr => "inputStr"
  | timeUp => "timeUp"

def ofName? (name : String) : Option Builtin := all.find? fun b => b.name == name

def params : Builtin → List Ty
  | printInt => [.int]
  | printDouble => [.double]
  | printStr => [.string]
  | inputInt | inputDouble | inputStr | timeUp => []

def returns : Builtin → Ty
  | printInt | printDouble | printStr => .void
  | inputInt | timeUp => .int
  | inputDouble => .double
  | inputStr => .string

end Builtin

end Stacklet
