import Stacklet.Code.Emit
import Stacklet.Number.Read
import Stacklet.Typing.Builtin
/-!
# Code for expressions

* `Demand`: what the code around an expression wants of it.
* `Emit.expression`: code that evaluates an expression and leaves what is wanted on the stack.
  Operands are evaluated from left to right, and an assignment evaluates its right side before an
  index.
-/

namespace Stacklet

/-- What is wanted of an expression: only what it does; its value; or its value where a `double` is
stored, so that integer literals become doubles. -/
inductive Demand where
  | effect | value | double
  deriving DecidableEq, Repr

namespace Demand

/-- The value, as a double if `isDouble`. -/
def ofDouble (isDouble : Bool) : Demand := if isDouble then .double else .value

/-- The demand on an operand whose value is the value of the whole, but which is not a literal under
minus signs. -/
def plain : Demand → Demand
  | effect => effect
  | _ => value

end Demand

/-- The instruction for a number literal. Text that is no numeral counts as zero. -/
def literal (text : String) (d : Demand) : Instr :=
  if isDoubleLiteral text ∨ d = .double then .pushDouble ((Number.readDouble? text.toList).getD 0)
  else .pushInt ((Number.readInt? text.toList).getD 0)

/-- The operation of a binary operator. -/
def BinOp.ofText : String → BinOp
  | "+" => .add
  | "-" => .sub
  | "*" => .mul
  | "/" => .div
  | "%" => .mod
  | "==" => .eq
  | "!=" => .ne
  | "<" => .lt
  | ">" => .gt
  | "<=" => .le
  | _ => .ge

namespace Emit

/-- Drops the value on top of the stack if nothing was wanted. -/
def settle (loc : Loc) (d : Demand) : Emit Unit := if d = .effect then emit loc .pop else pure ()

/-- The operation of a unary operator; a plus sign has none. -/
def unaryOp (loc : Loc) : String → Emit Unit
  | "-" => emit loc .neg
  | "!" => emit loc .not
  | _ => pure ()

/-- Whether a call of `f` leaves a value. -/
def returnsValue (f : String) : Emit Bool := do
  match Builtin.ofName? f with
  | some b => return b.returns != .void
  | none => return (← get).valued.contains f

mutual

/-- Code for an expression. -/
def expression : Tree → Demand → Emit Unit
  | { kind, text, loc, children, .. }, d =>
    match kind with
    | .number => do
      emit loc (literal text d)
      settle loc d
    | .string => do
      mention text
      emit loc (.pushString text)
      settle loc d
    | .identifier => do
      let slot ← resolve text
      emit loc (.load slot)
      settle loc d
    | .unary => do
      match children with
      | operand :: _ => expression operand (.ofDouble (d = .double ∧ text = "-"))
      | [] => pure ()
      unaryOp loc text
      settle loc d
    | .binary => do
      values children
      emit loc (.binary (.ofText text))
      settle loc d
    | .comma => sequence children d.plain
    | .assign => do
      match children with
      | { kind := .identifier, text := x, .. } :: value :: _ => do
        let slot ← resolve x
        expression value (.ofDouble (← isDouble slot))
        emit loc (.store slot)
        if d ≠ .effect then emit loc (.load slot)
      | { kind := .index, children := base :: i :: _, .. } :: value :: _ => do
        let slot ← resolve base.text
        expression value (.ofDouble (← isDouble slot))
        if d = .effect then
          expression i .value
          emit loc (.storeIndex slot)
        else
          let held ← hiddenSlot
          emit loc (.store held)
          emit loc (.load held)
          expression i .value
          emit loc (.storeIndex slot)
          emit loc (.load held)
      | { kind := .index, .. } :: _ :: _ => pure ()
      | _ :: value :: _ => expression value d.plain
      | _ => if d ≠ .effect then emit loc (.pushInt 0)
    | .call =>
      match children with
      | f :: args => do
        values args
        mention f.text
        emit loc (.call f.text)
        if d = .effect then if ← returnsValue f.text then emit loc .pop
      | [] => pure ()
    | .index => do
      values children
      emit loc .loadIndex
      settle loc d
    | .empty => if d = .effect then pure () else emit loc (.pushInt 0)
    | _ => do
      emit loc (.pushInt 0)
      settle loc d

/-- Code for the values of several expressions. -/
def values : List Tree → Emit Unit
  | [] => pure ()
  | t :: ts => do
    expression t .value
    values ts

/-- Code for expressions of which only the last may have its value wanted. -/
def sequence : List Tree → Demand → Emit Unit
  | [], _ => pure ()
  | [last], d => expression last d
  | t :: ts, d => do
    expression t .effect
    sequence ts d

end

end Emit

end Stacklet
