import Stacklet.Code.Expression
import Stacklet.Typing.Scope
/-!
# Code for programs

* `Emit.statement`, `Emit.function`: code for statements and functions. Statements leave the stack
  as it was, and a function starts with its label and stores its arguments, the last one first.
* `Tree.lower`: the program of a tree, whatever its shape.
-/

namespace Stacklet

namespace Emit

/-- Code for the initial value of a declared name, or for an array of its size. -/
def initialValue (ty : Ty) (t : Tree) : Emit Unit := do
  if t.isArray then
    match t.children with
    | size :: _ => expression size .value
    | [] => emit t.loc (.pushInt 0)
    emit t.loc .newArray
  else
    match t.children with
    | value :: _ => expression value (.ofDouble (ty = .double))
    | [] => zeroValue t.loc ty

/-- Declares a variable and stores the value on top of the stack in it. -/
def introduce (ty : Ty) (t : Tree) : Emit Unit := do
  let slot ← declare t.text
  if ty = .double then markDouble slot
  emit t.loc (.store slot)

/-- Code for a declared name. The initial value does not see the name that is declared. -/
def declarator (ty : Ty) (t : Tree) : Emit Unit := do
  initialValue ty t
  introduce ty t

/-- Code that goes to `target` if the condition is zero. -/
def unlessTrue (c : Tree) (target : String) : Emit Unit := do
  expression c .value
  emit c.loc (.jumpIfZero target)

/-- Code that goes to `target` if the condition is zero; none if the condition is omitted. -/
def unlessOmitted (c : Tree) (target : String) : Emit Unit :=
  if c.kind = .empty then pure () else unlessTrue c target

/-- Code for a body under a condition; behind the body it goes to `done`. -/
def branch (c : Tree) (body : Emit Unit) (done : String) : Emit Unit := do
  let next ← freshLabel
  unlessTrue c next
  body
  emit c.loc (.jump done)
  emit c.loc (.label next)

/-- Code for alternatives, which are given the label behind the last of them. -/
def conditional (loc : Loc) (alternatives : String → Emit Unit) : Emit Unit := do
  let done ← freshLabel
  alternatives done
  emit loc (.label done)

/-- Code for a loop with its test at the start. The test is given the label to leave the loop. -/
def whileLoop (loc : Loc) (test : String → Emit Unit) (body : Emit Unit) : Emit Unit := do
  let start ← freshLabel
  let done ← freshLabel
  emit loc (.label start)
  test done
  inLoop ⟨done, start⟩ body
  emit loc (.jump start)
  emit loc (.label done)

/-- Code for a loop with its test at the end, where `continue` goes. -/
def doWhile (loc : Loc) (body : Emit Unit) (test : String → Emit Unit) : Emit Unit := do
  let start ← freshLabel
  let next ← freshLabel
  let done ← freshLabel
  emit loc (.label start)
  inLoop ⟨done, next⟩ body
  emit loc (.label next)
  test done
  emit loc (.jump start)
  emit loc (.label done)

/-- Code for a loop with a step behind the body, where `continue` goes. -/
def forLoop (loc : Loc) (test : String → Emit Unit) (body step : Emit Unit) : Emit Unit := do
  let start ← freshLabel
  let next ← freshLabel
  let done ← freshLabel
  emit loc (.label start)
  test done
  inLoop ⟨done, next⟩ body
  emit loc (.label next)
  step
  emit loc (.jump start)
  emit loc (.label done)

/-- Code that leaves or goes on with the innermost loop; none outside of loops. -/
def loopJump (loc : Loc) (target : LoopLabels → String) : Emit Unit := do
  match (← get).loops with
  | labels :: _ => emit loc (.jump (target labels))
  | [] => pure ()

mutual

/-- Code for a statement. -/
def statement : Tree → Emit Unit
  | { kind, text, isArray, loc, children } =>
    match kind with
    | .block => inScope (statements children)
    | .declaration => children.tail.forM (declarator (.ofFirst children))
    | .exprStmt =>
      match children with
      | e :: _ => expression e .effect
      | [] => pure ()
    | .returnStmt => do
      match children with
      | value :: _ => expression value (.ofDouble ((← get).returnType = .double))
      | [] => pure ()
      emit loc .ret
    | .breakStmt => loopJump loc LoopLabels.breakTo
    | .continueStmt => loopJump loc LoopLabels.continueTo
    | .conditional =>
      match children with
      | c :: body :: rest => conditional loc fun done => do
        branch c (statement body) done
        branches done rest
      | [c] => conditional loc (branch c (pure ()))
      | [] => conditional loc fun _ => pure ()
    | .whileLoop =>
      match children with
      | c :: body :: _ => whileLoop loc (unlessTrue c) (statement body)
      | [c] => whileLoop loc (unlessTrue c) (pure ())
      | [] => whileLoop loc (fun _ => pure ()) (pure ())
    | .doWhile =>
      match children with
      | body :: c :: _ => doWhile loc (statement body) (unlessTrue c)
      | [body] => doWhile loc (statement body) fun _ => pure ()
      | [] => doWhile loc (pure ()) fun _ => pure ()
    | .forLoop =>
      match children with
      | first :: c :: step :: body :: _ => inScope do
        statement first
        forLoop loc (unlessOmitted c) (statement body) (expression step .effect)
      | [first, c, step] => inScope do
        statement first
        forLoop loc (unlessOmitted c) (pure ()) (expression step .effect)
      | [first, c] => inScope do
        statement first
        forLoop loc (unlessOmitted c) (pure ()) (pure ())
      | [first] => inScope do
        statement first
        forLoop loc (fun _ => pure ()) (pure ()) (pure ())
      | [] => inScope (forLoop loc (fun _ => pure ()) (pure ()) (pure ()))
    | .function | .parameter | .elseIf | .declarator | .typeName | .program | .empty => pure ()
    | _ => expression { kind, text, isArray, loc, children } .effect

/-- Code for statements in order. -/
def statements : List Tree → Emit Unit
  | [] => pure ()
  | t :: ts => do
    statement t
    statements ts

/-- Code for what stands behind the first block of a conditional. -/
def branches (done : String) : List Tree → Emit Unit
  | [] => pure ()
  | { kind := .elseIf, children, .. } :: ts => do
    match children with
    | c :: body :: _ => branch c (statement body) done
    | [c] => branch c (pure ()) done
    | [] => pure ()
    branches done ts
  | t :: ts => do
    statement t
    branches done ts

end

/-- Declares a parameter and returns the place and slot for storing its argument. -/
def parameter (p : Tree) : Emit (Loc × String) := do
  let slot ← declare p.text
  if parameterTy p = .double then markDouble slot
  return (p.loc, slot)

/-- Forgets all variables. -/
def forgetScopes : Emit Unit := modify fun s => { s with scopes := [[]], doubles := [] }

/-- The start of a function: its label, and code that stores the arguments, the last one first. -/
def prologue (t : Tree) : Emit Unit := do
  mention t.text
  emit t.loc (.label t.text)
  forgetScopes
  modify fun s => { s with returnType := .ofFirst t.children }
  let params ← (parametersOf t.children).mapM parameter
  params.reverse.forM fun (loc, slot) => emit loc (.store slot)

/-- The end of a function. If its code does not end in a return, the zero of its type is
returned. -/
def epilogue (loc : Loc) : Emit Unit := do
  let s ← get
  unless (s.program.code.back?.map Instr.isRet).getD false do
    unless s.returnType = .void do zeroValue loc s.returnType
    emit loc .ret

/-- Code for a function. -/
def function (t : Tree) : Emit Unit := do
  prologue t
  match bodyOf? t.children with
  | some body => statement body
  | none => pure ()
  epilogue t.loc
  forgetScopes
  modify fun s => { s with returnType := .void }

def item (t : Tree) : Emit Unit := if t.kind = .function then function t else statement t

end Emit

namespace Tree

/-- The functions of a program. -/
def functions (t : Tree) : List Tree := t.children.filter fun c => c.kind == .function

/-- The code of a program. Functions and statements follow each other as in the source. -/
def lower (t : Tree) : Program :=
  let start : Emit.State :=
    { functions := t.functions.map Tree.text
      valued := (t.functions.filter fun f => Ty.ofFirst f.children != .void).map Tree.text }
  ((t.children.forM Emit.item).run start).2.program

end Tree

end Stacklet
