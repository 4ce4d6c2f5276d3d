import Stacklet.Code.Program
import Stacklet.Typing.Ty
/-!
# Emitting code

* `Emit`: computations that append instructions to a program. They keep the labels of the enclosing
  loops and, for each name in scope, the slot that holds its variable.
* `Emit.freshLabel`: labels `L0`, `L1`, …, without those that are names of functions.
* `Emit.declare`: the slot of a new variable. It is the plain name unless a variable of this name is
  visible, so that the outer variable is not overwritten.
-/

namespace Stacklet

/-- Where `break` and `continue` go. -/
structure LoopLabels where
  breakTo : String
  continueTo : String
  deriving DecidableEq, Repr

structure Emit.State where
  program : Program := {}
  nextLabel : Nat := 0
  /-- The names of all functions. -/
  functions : List String := []
  /-- The functions whose calls leave a value. -/
  valued : List String := []
  /-- The loops around, the innermost first. -/
  loops : List LoopLabels := []
  /-- The slots of the names in scope, the innermost scope first. -/
  scopes : List (List (String × String)) := [[]]
  nextSlot : Nat := 0
  /-- The slots that were declared `double`. -/
  doubles : List String := []
  returnType : Ty := .void

abbrev Emit := StateM Emit.State

/-- The generated label with a number. -/
def labelText (n : Nat) : String := "L" ++ Number.decimal n

/-- The first number from `n` on whose label is not taken, if it is among the next `k`; else
`n + k`. -/
def freshNumber (taken : List String) : (k n : Nat) → Nat
  | 0, n => n
  | k + 1, n => if taken.contains (labelText n) then freshNumber taken k (n + 1) else n

namespace Emit

/-- Appends an instruction that comes from `loc`. -/
def emit (loc : Loc) (i : Instr) : Emit Unit :=
  modify fun s => { s with
    program := { s.program with code := s.program.code.push i, locs := s.program.locs.push loc } }

/-- Mentions a text. -/
def mention (text : String) : Emit Unit :=
  modify fun s => { s with program := { s.program with names := s.program.names.insert text } }

/-- A label that no instruction has yet. -/
def freshLabel : Emit String := do
  let s ← get
  let n := freshNumber s.functions s.functions.length s.nextLabel
  set { s with nextLabel := n + 1 }
  mention (labelText n)
  return labelText n

/-- The slot of a visible name. -/
def State.slot? (s : State) (name : String) : Option String :=
  s.scopes.findSome? fun scope => scope.lookup name

/-- Enters a name with its slot in the innermost scope. -/
def State.bind (s : State) (name slot : String) : State :=
  { s with scopes := s.scopes.modifyHead ((name, slot) :: ·) }

/-- A new slot number. -/
def freshSlot : Emit Nat :=
  modifyGet fun s => (s.nextSlot + 1, { s with nextSlot := s.nextSlot + 1 })

/-- Declares a variable and returns its slot. -/
def declare (name : String) : Emit String := do
  let slot ← match (← get).slot? name with
    | some _ => pure (name ++ "#" ++ Number.decimal (← freshSlot))
    | none => pure name
  mention slot
  modify fun s => s.bind name slot
  return slot

/-- A slot that no name of the program stands for. -/
def hiddenSlot : Emit String := do
  let slot := "#t" ++ Number.decimal (← freshSlot)
  mention slot
  return slot

/-- The slot that a name stands for: that of the visible variable, or else the plain name. -/
def resolve (name : String) : Emit String := do
  match (← get).slot? name with
  | some slot => return slot
  | none =>
    mention name
    return name

def markDouble (slot : String) : Emit Unit :=
  modify fun s => { s with doubles := slot :: s.doubles }

def isDouble (slot : String) : Emit Bool := return (← get).doubles.contains slot

/-- Emits code in a new innermost scope. -/
def inScope (body : Emit Unit) : Emit Unit := do
  modify fun s => { s with scopes := [] :: s.scopes }
  body
  modify fun s => { s with scopes := s.scopes.tail }

/-- Emits the body of a loop. -/
def inLoop (labels : LoopLabels) (body : Emit Unit) : Emit Unit := do
  modify fun s => { s with loops := labels :: s.loops }
  body
  modify fun s => { s with loops := s.loops.tail }

/-- Pushes the zero of a type. -/
def zeroValue (loc : Loc) : Ty → Emit Unit
  | .double => emit loc (.pushDouble 0)
  | .string => do
    mention ""
    emit loc (.pushString "")
  | _ => emit loc (.pushInt 0)

end Emit

end Stacklet
