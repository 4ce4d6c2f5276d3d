import Stacklet.Typing.Expression
/-!
# Typing programs

* `Checker.statement`, `Checker.function`: the checks of statements and functions.
* `Tree.typeErrors`: all errors of a program, in the order in which they are found. Functions are
  visible everywhere, variables from their declaration to the end of their scope.
-/

namespace Stacklet

namespace Checker

/-- Checks the declared name `t` and its initial value or size, and declares it. -/
def declarator (declared : Ty) (t : Tree) : Checker Unit := do
  match t.children with
  | value :: _ =>
    let ty ← expression value
    if t.isArray then requireInt value.loc ty .arraySize
    else requireAccepted value.loc declared ty (.initializer t.text declared ty)
  | [] => pure ()
  declareVar t declared

/-- Checks a condition of some construct. -/
def condition (c : Construct) (t : Tree) : Checker Unit := do
  requireInt t.loc (← expression t) (.condition c)

/-- Checks a `return` at `loc` with these children. -/
def returnValue (loc : Loc) (children : List Tree) : Checker Unit := do
  if !(← get).inFunction then report loc .returnOutsideFunction
  else
    let expected := (← get).returnType
    match children with
    | value :: _ =>
      let ty ← expression value
      if expected = .void then report value.loc .unexpectedValue
      else requireAccepted value.loc expected ty (.returned expected ty)
    | [] => unless expected = .void do report loc .missingValue

/-- Reports `e` outside of loops. -/
def requireLoop (loc : Loc) (e : TypeError) : Checker Unit := do
  if (← get).loopDepth = 0 then report loc e

mutual

/-- Checks a statement. -/
def statement : Tree → Checker Unit
  | { kind, text, isArray, loc, children } =>
    match kind with
    | .exprStmt =>
      match children with
      | e :: _ => discard (expression e)
      | [] => return
    | .block => inScope (statements children)
    | .declaration => children.tail.forM (declarator (.ofFirst children))
    | .returnStmt => returnValue loc children
    | .breakStmt => requireLoop loc .breakOutsideLoop
    | .continueStmt => requireLoop loc .continueOutsideLoop
    | .conditional =>
      match children with
      | c :: branches => do
        condition .conditional c
        branchStatements branches
      | [] => return
    | .whileLoop =>
      match children with
      | c :: bodies => do
        condition .whileLoop c
        inLoop (statements bodies)
      | [] => return
    | .doWhile =>
      match children with
      | body :: c :: _ => do
        inLoop (statement body)
        condition .doWhile c
      | [body] => inLoop (statement body)
      | [] => return
    | .forLoop => inScope (forStatements children)
    | .function | .parameter | .elseIf | .declarator | .typeName | .program | .empty => return
    | _ => discard (expression { kind, text, isArray, loc, children })

/-- Checks statements in order. -/
def statements : List Tree → Checker Unit
  | [] => return
  | t :: ts => do
    statement t
    statements ts

/-- Checks what stands behind the first condition of a conditional. -/
def branchStatements : List Tree → Checker Unit
  | [] => return
  | { kind := .elseIf, children := c :: bodies, .. } :: ts => do
    condition .elseIf c
    statements bodies
    branchStatements ts
  | t :: ts => do
    statement t
    branchStatements ts

/-- Checks the parts of a `for` loop; an omitted part has nothing to check. -/
def forStatements : List Tree → Checker Unit
  | first :: rest => do
    statement first
    match rest with
    | c :: step :: body :: _ =>
      condition .forLoop c
      discard (expression step)
      inLoop (statement body)
    | [c, step] =>
      condition .forLoop c
      discard (expression step)
    | [c] => condition .forLoop c
    | [] => return
  | [] => return

end

/-- Checks a function. -/
def function (t : Tree) : Checker Unit := do
  modify fun s => { s with inFunction := true, undeclared := [], returnType := .ofFirst t.children }
  inScope do
    (parametersOf t.children).forM fun p => declareVar p (parameterTy p)
    match bodyOf? t.children with
    | some body => statement body
    | none => return
  modify fun s => { s with inFunction := false, returnType := .void }

/-- Declares a function. -/
def declareFunction (t : Tree) : Checker Unit := do
  unless ← declare t.text (.ofChildren t.children) do report t.loc (.duplicateFunction t.text)

/-- Checks a function or statement of a program. -/
def item (t : Tree) : Checker Unit := if t.kind = .function then function t else statement t

/-- Declares all functions of a program and checks its items. -/
def program (t : Tree) : Checker Unit := do
  (t.children.filter fun c => c.kind == .function).forM declareFunction
  t.children.forM item

end Checker

/-- The typing errors of a program. -/
def Tree.typeErrors (t : Tree) : Array (Located TypeError) :=
  ((Checker.program t).run { scopes := [Scopes.builtins] }).2.errors

end Stacklet
