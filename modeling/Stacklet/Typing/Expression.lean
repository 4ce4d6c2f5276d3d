import Stacklet.Typing.Checker
/-!
# Typing expressions

* `Checker.expression`: the type of an expression. Operands are checked from left to right.
* `unaryTy`, `binaryTy`: the types that operators give and take.
-/

namespace Stacklet

/-- The type of a unary operation on an operand without errors. -/
def unaryTy (op : String) (operand : Ty) : Except TypeError Ty :=
  if !operand.isNumeric then .error (.unaryOperand op operand)
  else .ok (if op = "!" then .int else operand)

def isComparison (op : String) : Bool := ["<", "<=", ">", ">=", "==", "!="].contains op

def isEquality (op : String) : Bool := op == "==" || op == "!="

/-- The type of a binary operation on operands without errors. -/
def binaryTy (op : String) (left right : Ty) : Except TypeError Ty :=
  let numeric := left.isNumeric && right.isNumeric
  let strings := left == .string && right == .string
  if isComparison op then
    if numeric || (strings && isEquality op) then .ok .int else .error (.comparison op left right)
  else if strings && op == "+" then .ok .string
  else if numeric then .ok (if left = .double ∨ right = .double then .double else .int)
  else .error (.operands op left right)

namespace Checker

/-- The type of a result, or `unknown` with its error reported. -/
def resultTy (loc : Loc) : Except TypeError Ty → Checker Ty
  | .ok ty => return ty
  | .error e => do
    report loc e
    return .unknown

/-- The type of a variable. An undeclared name is reported once in each function. -/
def nameTy (loc : Loc) (name : String) : Checker Ty := do
  match ← lookup name with
  | some (.var ty _) => return ty
  | some (.function _ _) =>
    report loc (.functionAsValue name)
    return .unknown
  | none =>
    unless (← get).undeclared.contains name do
      modify fun s => { s with undeclared := name :: s.undeclared }
      report loc (.undeclaredVariable name)
    return .unknown

/-- Whether an expression may be assigned to: a name, or a name with an index. -/
def isAssignable (target : Tree) : Bool :=
  match target.kind, target.children with
  | .identifier, _ => true
  | .index, base :: _ => base.kind == .identifier
  | _, _ => false

/-- The variable whose characters an assignment to `target` would change, if that is a string. -/
def stringBase? (target : Tree) : Checker (Option Tree) := do
  match target.kind, target.children with
  | .index, base :: _ =>
    match ← lookup base.text with
    | some (.var .string false) => return some base
    | _ => return none
  | _, _ => return none

/-- The type of an assignment to `target`, which is assignable. -/
def assignmentTy (loc : Loc) (target : Tree) (targetTy valueTy : Ty) : Checker Ty := do
  match ← stringBase? target with
  | some base =>
    report base.loc (.stringCharacter base.text)
    return .unknown
  | none =>
    requireAccepted loc targetTy valueTy (.assignment targetTy valueTy)
    return targetTy

/-- Reports an index behind a variable that is neither an array nor a string. -/
def requireIndexable (base : Tree) : Checker Unit := do
  if base.kind = .identifier then
    match ← lookup base.text with
    | some (.var ty false) => unless ty = .string do report base.loc (.notAnArray base.text)
    | _ => return

/-- The return type and the parameters of what is called. -/
def callee? (f : Tree) : Checker (Option (Ty × List (Ty × Bool))) := do
  if f.kind = .identifier then
    match ← lookup f.text with
    | some (.function returns params) => return some (returns, params)
    | some (.var _ _) =>
      report f.loc (.notAFunction f.text)
      return none
    | none =>
      report f.loc (.undeclaredFunction f.text)
      return none
  else
    report f.loc .callTarget
    return none

/-- Reports an array in the place of a single value, or the other way round. Only plain names are
looked at. -/
def requireShape (arg : Tree) (e : TypeError) (wantsArray : Bool) : Checker Unit := do
  if arg.kind = .identifier then
    match ← lookup arg.text with
    | some (.var _ isArray) => unless isArray = wantsArray do report arg.loc e
    | _ => return

/-- Checks the argument at a position against the parameter there. -/
def checkArgument (f : String) (position : Nat) (arg : Tree) (ty : Ty) : Option (Ty × Bool) →
    Checker Unit
  | none => return
  | some (expected, wantsArray) => do
    requireAccepted arg.loc expected ty (.argument position f expected ty)
    requireShape arg (.argumentShape position f wantsArray) wantsArray

mutual

/-- The type of an expression. -/
def expression : Tree → Checker Ty
  | { kind, text, loc, children, .. } =>
    match kind with
    | .number => return if isDoubleLiteral text then .double else .int
    | .string => return .string
    | .identifier => nameTy loc text
    | .unary =>
      match children with
      | operand :: _ => do
        let ty ← expression operand
        if ty = .unknown then return .unknown else resultTy loc (unaryTy text ty)
      | [] => return .unknown
    | .binary =>
      match children with
      | left :: right :: _ => do
        let l ← expression left
        let r ← expression right
        if l = .unknown ∨ r = .unknown then return .unknown else resultTy loc (binaryTy text l r)
      | _ => return .unknown
    | .comma => lastTy .unknown children
    | .assign =>
      match children with
      | target :: value :: _ => do
        if isAssignable target then
          let targetTy ← expression target
          let valueTy ← expression value
          assignmentTy loc target targetTy valueTy
        else
          report target.loc .assignmentTarget
          let _ ← expression value
          return .unknown
      | _ => return .unknown
    | .index =>
      match children with
      | base :: i :: _ => do
        let ty ← expression base
        let indexTy ← expression i
        requireInt i.loc indexTy .arrayIndex
        requireIndexable base
        return ty
      | _ => return .unknown
    | .call =>
      match children with
      | f :: args => do
        match ← callee? f with
        | some (returns, params) =>
          unless args.length = params.length do
            report loc (.argumentCount f.text params.length args.length)
          arguments f.text 1 params args
          return returns
        | none =>
          let _ ← lastTy .unknown args
          return .unknown
      | [] => return .unknown
    | _ => return .unknown

/-- The type of the last of some expressions, or `ty` if there is none. -/
def lastTy (ty : Ty) : List Tree → Checker Ty
  | [] => return ty
  | t :: ts => do
    let ty ← expression t
    lastTy ty ts

/-- Checks the arguments of a call from a position on. -/
def arguments (f : String) (position : Nat) (params : List (Ty × Bool)) : List Tree → Checker Unit
  | [] => return
  | arg :: args => do
    let ty ← expression arg
    checkArgument f position arg ty params.head?
    arguments f (position + 1) params.tail args

end

end Checker

end Stacklet
