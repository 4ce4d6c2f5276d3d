import Stacklet.Code.Lower
import Stacklet.Machine.Value
import Stacklet.Machine.World
/-!
# Evaluation of trees

What a program means, without code: trees are evaluated in nested scopes of variables.

* `Environment`: variables by name, scope by scope.
* `Eval`: evaluations. They change the variables and the world, can fail because a stream does, and
  can be cut off because they take too long.
* `Context.eval`: expressions. Operands and arguments are evaluated from left to right, what is
  assigned before the index that it is stored at, and each of them once.
* `Context.exec`: statements. They complete normally, or by leaving or going on with a loop, or by a
  return.
* `Tree.callAt`: calls of functions, nested at most so deep, with loops of at most so many rounds.
* `Tree.evaluate`: a whole run.
-/

namespace Stacklet

/-! ## Variables -/

/-- A variable: whether it was declared `double`, and what it holds. -/
structure Variable where
  isDouble : Bool
  value : Value

/-- Variables in nested scopes, the innermost first. -/
abbrev Environment := List (List (String × Variable))

namespace Environment

/-- The variable that a name stands for: that of the innermost scope that has the name. -/
def lookup? (env : Environment) (x : String) : Option Variable :=
  env.findSome? fun scope => scope.lookup x

/-- Enters a variable in the innermost scope. -/
def declare (env : Environment) (x : String) (v : Variable) : Environment :=
  env.modifyHead ((x, v) :: ·)

/-- Changes what the variable of this name holds in a scope. -/
def updateScope (x : String) (f : Value → Value) : List (String × Variable) →
    List (String × Variable)
  | [] => []
  | (y, v) :: scope =>
    if x = y then (y, { v with value := f v.value }) :: scope else (y, v) :: updateScope x f scope

/-- Changes what the variable that a name stands for holds. -/
def update (x : String) (f : Value → Value) : Environment → Environment
  | [] => []
  | scope :: env =>
    if (scope.lookup x).isSome then updateScope x f scope :: env else scope :: update x f env

end Environment

/-! ## Evaluations -/

/-- What evaluations work on: the variables of the running call, and the world. -/
structure Store extends World where
  env : Environment

/-- An evaluation gives a value, or the failure of a stream; none if it takes too long. -/
def Eval (α : Type) : Type := Store → Option (Except StreamError α × Store)

namespace Eval

instance : Monad Eval where
  pure a σ := some (.ok a, σ)
  bind x f σ :=
    match x σ with
    | some (.ok a, σ) => f a σ
    | some (.error e, σ) => some (.error e, σ)
    | none => none

def cutOff {α : Type} : Eval α := fun _ => none

def find (x : String) : Eval Variable :=
  fun σ => some (.ok ((σ.env.lookup? x).getD ⟨false, .zero⟩), σ)

def update (x : String) (f : Value → Value) : Eval Unit :=
  fun σ => some (.ok (), { σ with env := σ.env.update x f })

def declare (x : String) (v : Variable) : Eval Unit :=
  fun σ => some (.ok (), { σ with env := σ.env.declare x v })

/-- Evaluates in a new innermost scope, which is gone behind the evaluation. -/
def inScope {α : Type} (x : Eval α) : Eval α := fun σ =>
  (x { σ with env := [] :: σ.env }).map fun (r, σ') => (r, { σ' with env := σ'.env.tail })

/-- Evaluates with other variables. Behind the evaluation those from before are back. -/
def inCall {α : Type} (env : Environment) (x : Eval α) : Eval α := fun σ =>
  (x { σ with env }).map fun (r, σ') => (r, { σ' with env := σ.env })

/-- Prints a text; there is no value. -/
def print (text : String) : Eval Value := fun σ =>
  let (r, sink) := σ.sink.print text
  some (r.map fun _ => .absent, { σ with sink })

def read (reader : Input → Except StreamError String × Input) (value : String → Value) :
    Eval Value := fun σ =>
  let (r, input) := reader σ.input
  some (r.map value, { σ with input })

def flush : Eval Unit := fun σ =>
  let (r, sink) := σ.sink.flush
  some (r, { σ with sink })

/-- Reads the clock, which shows the start from then on. -/
def start : Eval Unit := fun σ => some (.ok (), { σ with clock := σ.clock.restart })

/-- Reads the clock: whether so much time has passed since the start. -/
def timeUp (limit : Nat) : Eval Value := fun σ =>
  some (.ok (.ofBool (limit ≤ σ.clock.elapsed)), { σ with clock := σ.clock.tick })

end Eval

def Builtin.call (limit : Nat) (args : List Value) : Builtin → Eval Value
  | .printInt => .print (Number.decimal (args.headD .absent).toInt.toInt)
  | .printDouble => .print (Number.general (args.headD .absent).toDouble)
  | .printStr => .print (args.headD .absent).toText
  | .inputInt => .read Input.readToken fun t => .int (Number.leadingInt t)
  | .inputDouble => .read Input.readToken fun t => .double (Number.leadingDouble t)
  | .inputStr => .read Input.readText .string
  | .timeUp => .timeUp limit

/-! ## Expressions -/

/-- What a number literal stands for. -/
def literalValue (text : String) : Value :=
  if isDoubleLiteral text then .double ((Number.readDouble? text.toList).getD 0)
  else .int ((Number.readInt? text.toList).getD 0)

/-- An integer literal under minus signs as a double; none for other trees. -/
def widened? : Tree → Option Value
  | { kind := .number, text, .. } =>
    if isDoubleLiteral text then none else some (.double ((Number.readDouble? text.toList).getD 0))
  | { kind := .unary, text, children := [e], .. } =>
    if text = "-" then (widened? e).map Value.negate else none
  | _ => none

/-- A value that is stored or returned: where a `double` is wanted, an integer literal is one. -/
def widen (isDouble : Bool) (t : Tree) (value : Eval Value) : Eval Value :=
  match widened? t with
  | some v => if isDouble then pure v else value
  | none => value

def unaryValue (op : String) (v : Value) : Value :=
  match op with
  | "-" => v.negate
  | "!" => .ofBool v.isZero
  | _ => v

/-- The value of a variable that was given none. -/
def Ty.zeroValue : Ty → Value
  | .double => .double 0
  | .string => .string ""
  | _ => .int 0

/-- What evaluation depends on: the functions of the program, the number of rounds that a loop may
take, when time is up, and the type that the running function returns. -/
structure Context where
  call : String → List Value → Eval Value
  rounds : Nat
  limit : Nat
  returnType : Ty

namespace Context

mutual

/-- The value of an expression. -/
def eval (c : Context) : Tree → Eval Value
  | { kind, text, children, .. } =>
    match kind with
    | .number => return literalValue text
    | .string => return .string text
    | .identifier => return (← Eval.find text).value
    | .unary =>
      match children with
      | [e] => return unaryValue text (← eval c e)
      | _ => return .absent
    | .binary =>
      match children with
      | [l, r] => do
        let a ← eval c l
        let b ← eval c r
        return (BinOp.ofText text).apply a b
      | _ => return .absent
    | .comma =>
      match children with
      | [l, r] => do
        let _ ← eval c l
        eval c r
      | _ => return .absent
    | .assign =>
      match children with
      | [{ kind := .identifier, text := x, .. }, value] => do
        let v ← widen (← Eval.find x).isDouble value (eval c value)
        Eval.update x fun _ => v
        return v
      | [{ kind := .index, children := [base, i], .. }, value] => do
        let v ← widen (← Eval.find base.text).isDouble value (eval c value)
        let i ← eval c i
        Eval.update base.text fun held => .storeAt held i.toInt v
        return v
      | _ => return .absent
    | .call =>
      match children with
      | f :: args => do
        let vs ← evalAll c args
        match Builtin.ofName? f.text with
        | some b => b.call c.limit vs
        | none => c.call f.text vs
      | [] => return .absent
    | .index =>
      match children with
      | [base, i] => do
        let b ← eval c base
        let i ← eval c i
        return b.loadAt i.toInt
      | _ => return .absent
    | _ => return .absent

def evalAll (c : Context) : List Tree → Eval (List Value)
  | [] => return []
  | t :: ts => do
    let v ← eval c t
    let vs ← evalAll c ts
    return v :: vs

end

/-- Whether a condition holds. One that is omitted does. -/
def test (c : Context) (t : Tree) : Eval Bool :=
  if t.kind = .empty then return true else return !(← eval c t).isZero

end Context

/-! ## Statements -/

/-- How a statement ends. -/
inductive Completion where
  | normal | broke | continued
  | returned (v : Value)

/-- A statement, and another one behind it if the first ends normally. -/
def inOrder (first next : Eval Completion) : Eval Completion := do
  match ← first with
  | .normal => next
  | completion => return completion

/-- Rounds of a loop until one ends it. -/
def repeated (round : Eval (Option Completion)) : Nat → Eval Completion
  | 0 => .cutOff
  | n + 1 => do
    match ← round with
    | some completion => return completion
    | none => repeated round n

/-- A round that ends the loop if the test fails. -/
def guarded (test : Eval Bool) (round : Eval (Option Completion)) : Eval (Option Completion) := do
  if ← test then round else return some .normal

/-- A round with a body that may leave the loop; else `next` follows, behind `continue` too. -/
def unlessLeft (body : Eval Completion) (next : Eval (Option Completion)) :
    Eval (Option Completion) := do
  match ← body with
  | .broke => return some .normal
  | .returned v => return some (.returned v)
  | .normal | .continued => next

namespace Context

/-- The first value of a declared variable. -/
def initialValue (c : Context) (ty : Ty) (t : Tree) : Eval Value :=
  match t.children with
  | [e] =>
    if t.isArray then return .zeros ((Value.position? (← eval c e).toInt).getD 0)
    else widen (ty = .double) e (eval c e)
  | _ => return ty.zeroValue

/-- Declares a variable, which gets its first value each time. -/
def declarator (c : Context) (ty : Ty) (t : Tree) : Eval Unit := do
  let v ← initialValue c ty t
  Eval.declare t.text ⟨ty = .double, v⟩

mutual

/-- What a statement does. -/
def exec (c : Context) : Tree → Eval Completion
  | { kind, children, .. } =>
    match kind with
    | .block => Eval.inScope (execAll c children)
    | .declaration => do
      children.tail.forM (declarator c (.ofFirst children))
      return .normal
    | .exprStmt =>
      match children with
      | [e] => do
        let _ ← eval c e
        return .normal
      | _ => return .normal
    | .returnStmt =>
      match children with
      | [e] => return .returned (← widen (c.returnType = .double) e (eval c e))
      | _ => return .returned .absent
    | .breakStmt => return .broke
    | .continueStmt => return .continued
    | .conditional =>
      match children with
      | condition :: body :: rest => do
        if ← test c condition then exec c body else execBranches c rest
      | _ => return .normal
    | .whileLoop =>
      match children with
      | [condition, body] =>
        repeated (guarded (test c condition) (unlessLeft (exec c body) (return none))) c.rounds
      | _ => return .normal
    | .doWhile =>
      match children with
      | [body, condition] =>
        repeated (unlessLeft (exec c body) (guarded (test c condition) (return none))) c.rounds
      | _ => return .normal
    | .forLoop =>
      match children with
      | [first, condition, step, body] =>
        Eval.inScope (inOrder (exec c first)
          (repeated (guarded (test c condition) (unlessLeft (exec c body) do
            let _ ← eval c step
            return none)) c.rounds))
      | _ => return .normal
    | _ => return .normal

/-- Statements in order, up to the first that does not end normally. -/
def execAll (c : Context) : List Tree → Eval Completion
  | [] => return .normal
  | t :: ts => inOrder (exec c t) (execAll c ts)

/-- What stands behind the first block of a conditional. -/
def execBranches (c : Context) : List Tree → Eval Completion
  | [] => return .normal
  | { kind := .elseIf, children := [condition, body], .. } :: ts => do
    if ← test c condition then exec c body else execBranches c ts
  | t :: _ => exec c t

end

end Context

/-! ## Programs -/

namespace Tree

def function? (t : Tree) (f : String) : Option Tree := t.functions.find? fun c => c.text == f

/-- The parameters of a function with their arguments, one by one. -/
def arguments (ps : List Tree) (args : List Value) (env : Environment) : Environment :=
  (ps.zip args).foldl (fun env (p, v) => env.declare p.text ⟨parameterTy p = .double, v⟩) env

/-- What a function does: it ends with a return, or else gives the zero of its type. -/
def body (c : Context) (f : Tree) : Eval Value := do
  match bodyOf? f.children with
  | some block =>
    match ← c.exec block with
    | .returned v => return v
    | _ => return c.returnType.zeroValue
  | none => return c.returnType.zeroValue

/-- A call of a function. Calls may be nested `n` deep, and loops may take as many rounds as there
is depth left. -/
def callAt (t : Tree) (limit : Nat) : (n : Nat) → String → List Value → Eval Value
  | 0, _, _ => .cutOff
  | n + 1, f, args =>
    match t.function? f with
    | some fn =>
      Eval.inCall (arguments (parametersOf fn.children) args [[]])
        (body ⟨callAt t limit n, n, limit, .ofFirst fn.children⟩ fn)
    | none => return .absent

/-- A run that starts at a function without parameters. Behind it the output is flushed. -/
def evaluate (t : Tree) (entry : String) (limit : Nat) (n : Nat) : Eval Unit := do
  Eval.start
  let _ ← t.callAt limit n entry []
  Eval.flush

end Tree

end Stacklet
