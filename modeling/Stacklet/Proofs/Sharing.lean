import Stacklet.Proofs.Evaluation
import Stacklet.Proofs.Height.Code
/-!
# Variables that share a slot

Variables of one name in blocks side by side share their slot, which is the name itself. If one of
them is a `double`, the slot counts as one of a `double` up to the end of the function, so that an
integer literal that is assigned to a later variable of another type is stored as a double all the
same.

* `Marks`: which variables in scope have the slot of an earlier `double`.
* `Tree.storesAsDeclared`: in no function such a variable is assigned an integer literal.
-/

namespace Stacklet

/-- What is known of the names in scope. -/
structure Marks where
  /-- Each name with whether its variable is no `double`, but has the slot of an earlier one. -/
  scopes : List (List (String × Bool)) := [[]]
  /-- The names whose plain slots were those of doubles. -/
  doubles : List String := []

namespace Marks

def lookup? (M : Marks) (x : String) : Option Bool := M.scopes.findSome? fun scope => scope.lookup x

/-- Whether a new variable gets the slot of an earlier `double` but is none. Only a name that is not
visible gets the plain slot. -/
def isStale (M : Marks) (x : String) (isDouble : Bool) : Bool :=
  !isDouble && (M.lookup? x).isNone && M.doubles.contains x

def declare (M : Marks) (x : String) (isDouble : Bool) : Marks where
  scopes := M.scopes.modifyHead ((x, M.isStale x isDouble) :: ·)
  doubles := if isDouble && (M.lookup? x).isNone then x :: M.doubles else M.doubles

def enter (M : Marks) : Marks := { M with scopes := [] :: M.scopes }

def leave (M : Marks) : Marks := { M with scopes := M.scopes.tail }

/-- The name that an assignment to this target stores in. -/
def assigned : Tree → String
  | { kind := .index, children := base :: _, .. } => base.text
  | t => t.text

/-- Whether a tree does not assign an integer literal to a variable with the slot of an earlier
`double`. -/
def allows (M : Marks) (t : Tree) : Bool :=
  match t.kind, t.children with
  | .assign, [target, value] => (widened? value).isNone || M.lookup? (assigned target) != some true
  | _, _ => true

/-- The same marks if an expression has no such assignment. -/
def checked (M : Marks) (t : Tree) : Option Marks := if t.all M.allows then some M else none

/-- The marks behind a declared name. -/
def declarator (ty : Ty) (M : Marks) (t : Tree) : Option Marks :=
  if t.children.all fun e => e.all M.allows then some (M.declare t.text (ty = .double)) else none

mutual

/-- The marks behind a statement; none if it has such an assignment. -/
def statement : Tree → Marks → Option Marks
  | { kind, children, .. }, M =>
    match kind with
    | .block => (statements children M.enter).map leave
    | .declaration => children.tail.foldlM (declarator (.ofFirst children)) M
    | .exprStmt | .returnStmt =>
      match children with
      | [e] => M.checked e
      | _ => some M
    | .conditional =>
      match children with
      | c :: body :: rest => (M.checked c).bind fun M => (statement body M).bind (branches rest)
      | _ => some M
    | .whileLoop =>
      match children with
      | [c, body] => (M.checked c).bind (statement body)
      | _ => some M
    | .doWhile =>
      match children with
      | [body, c] => (statement body M).bind fun M => M.checked c
      | _ => some M
    | .forLoop =>
      match children with
      | [first, c, step, body] =>
        ((statement first M.enter).bind fun M => (M.checked c).bind fun M =>
          (statement body M).bind fun M => M.checked step).map leave
      | _ => some M
    | _ => some M

def statements : List Tree → Marks → Option Marks
  | [], M => some M
  | t :: ts, M => (statement t M).bind (statements ts)

def branches : List Tree → Marks → Option Marks
  | [], M => some M
  | { kind := .elseIf, children := [c, body], .. } :: ts, M =>
    (M.checked c).bind fun M => (statement body M).bind (branches ts)
  | t :: _, M => statement t M

end

/-- The marks behind the parameters of a function. -/
def withParams (M : Marks) (ps : List Tree) : Marks :=
  ps.foldl (fun M p => M.declare p.text (parameterTy p = .double)) M

end Marks

/-- Whether no function assigns an integer literal to a variable that is no `double` but has the
slot of an earlier one. -/
def Tree.storesAsDeclared (t : Tree) : Bool :=
  t.functions.all fun f => (bodyOf? f.children).all fun body =>
    (Marks.statement body (.withParams {} (parametersOf f.children))).isSome

end Stacklet
