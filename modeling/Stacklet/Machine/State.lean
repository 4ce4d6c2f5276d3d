import Stacklet.Code.Program
import Stacklet.Machine.Value
import Stacklet.Machine.World
/-!
# States of the machine

* `Locals`: the variables of one call.
* `Machine`: a program that is ready to run.
* `Machine.State`: instruction pointer, stack, the variables of the running call, the suspended
  calls, and the world around the machine.
-/

namespace Stacklet

/-- Variables with their values. -/
abbrev Locals := List (String × Value)

namespace Locals

/-- The value of a variable; zero if it was never stored. -/
def load (ls : Locals) (x : String) : Value := (ls.lookup x).getD .zero

/-- Changes what a variable holds. -/
def alter (ls : Locals) (x : String) (f : Option Value → Value) : Locals :=
  match ls with
  | [] => [(x, f none)]
  | (y, v) :: rest => if x = y then (y, f (some v)) :: rest else (y, v) :: alter rest x f

def store (ls : Locals) (x : String) (v : Value) : Locals := ls.alter x fun _ => v

/-- Stores a value at an index of a variable. -/
def storeIndex (ls : Locals) (x : String) (i : Int64) (v : Value) : Locals :=
  ls.alter x fun held => Value.storeAt held i v

end Locals

/-- A program with its labels, the label that it starts at, and when its time is up. -/
structure Machine where
  program : Program
  labels : List (String × Nat)
  entry : String
  limit : Nat

namespace Machine

/-- The time that a program has if nothing else is said, in nanoseconds. -/
def defaultLimit : Nat := 1_950_000_000

/-- Makes a program ready to run. Of several labels with one name the last counts. -/
def load (program : Program) (entry : String := "main") (limit : Nat := defaultLimit) : Machine :=
  { program, labels := program.labels, entry, limit }

/-- The index of a label. -/
def target? (m : Machine) (label : String) : Option Nat := m.labels.lookup label

/-- A call that waits for another one to return. -/
structure Suspended where
  returnTo : Nat
  locals : Locals

structure State extends World where
  ip : Nat := 0
  /-- The operands, the topmost first. -/
  stack : List Value := []
  locals : Locals := []
  /-- The calls around the running one, the innermost first. -/
  callers : List Suspended := []

end Machine

end Stacklet
