import Stacklet.Typing.Builtin
/-!
# Scopes

* `Entry`: what a name stands for, a variable or a function.
* `Scopes`: nested scopes, the innermost first. A name stands for the entry of the innermost scope
  that has it (`Scopes.lookup?`), and is entered at most once in each scope (`Scopes.declare?`).
-/

namespace Stacklet

/-- What a name stands for. Of a parameter the type is kept and whether it is an array. -/
inductive Entry where
  | var (ty : Ty) (isArray : Bool)
  | function (returns : Ty) (params : List (Ty × Bool))
  deriving DecidableEq, Repr

/-- The type of a declared parameter. -/
def parameterTy (p : Tree) : Ty := .ofFirst p.children

/-- The parameters among some nodes. -/
def parametersOf (ts : List Tree) : List Tree := ts.filter fun c => c.kind == .parameter

/-- The body among the children of a function: the last of them, if it is a block. -/
def bodyOf? (ts : List Tree) : Option Tree := ts.getLast?.filter fun c => c.kind == .block

namespace Entry

def ofBuiltin (b : Builtin) : Entry := .function b.returns (b.params.map fun t => (t, false))

/-- The entry of a function with these children. -/
def ofChildren (ts : List Tree) : Entry :=
  .function (.ofFirst ts) ((parametersOf ts).map fun p => (parameterTy p, p.isArray))

end Entry

abbrev Scope := List (String × Entry)

abbrev Scopes := List Scope

namespace Scopes

/-- What `name` stands for. -/
def lookup? (ss : Scopes) (name : String) : Option Entry := ss.findSome? fun s => s.lookup name

/-- The scopes with one more name in the innermost of them; none if the name is taken there. -/
def declare? (ss : Scopes) (name : String) (e : Entry) : Option Scopes :=
  match ss with
  | [] => none
  | s :: outer => if (s.lookup name).isSome then none else some (((name, e) :: s) :: outer)

/-- The scope with the built-in functions only. -/
def builtins : Scope := Builtin.all.map fun b => (b.name, .ofBuiltin b)

end Scopes

end Stacklet
