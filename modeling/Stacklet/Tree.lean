import Stacklet.Loc
/-!
# Syntax trees

* `Tree.Kind`, `Tree`: one type of nodes for programs, statements and expressions. What the text and
  the children of a node mean depends on its kind:
  - `function`: text is the name; children are the return `typeName`, `parameter`s, the body `block`
  - `parameter`: text is the name; the child is its `typeName`; `isArray` for `name[]`
  - `declaration`: children are a `typeName` and `declarator`s
  - `declarator`: text is the name; no child, or one: the initial value, or the size if `isArray`
  - `conditional`: children are the condition, its `block`, `elseIf`s, and a last `block` for `else`
  - `elseIf`, `whileLoop`: children are a condition and a `block`
  - `doWhile`: children are a `block` and a condition
  - `forLoop`: four children: first step, condition, last step, `block`; an omitted one is `empty`
  - `binary`, `unary`, `assign`, `comma`: text is the operator
  - `call`: children are what is called and the arguments; `index`: what is indexed and the index
* `Tree.child?`: a child by position, omitted ones left out.
* `Tree.count`: the number of nodes.
* `Tree.same`: equality of trees up to places.
-/

namespace Stacklet

/-- The kinds of nodes. -/
inductive Tree.Kind where
  | program | function | parameter | block | declaration | declarator | conditional | elseIf
  | whileLoop | doWhile | forLoop | returnStmt | breakStmt | continueStmt | exprStmt | assign
  | comma
  | binary | unary | number | string | identifier | call | index | typeName | empty
  deriving DecidableEq, Repr

/-- A node with its children. -/
structure Tree where
  kind : Tree.Kind
  text : String
  isArray : Bool := false
  loc : Loc
  children : List Tree := []

namespace Tree

/-- The node in the place of an omitted part. -/
def omitted (loc : Loc) : Tree := { kind := .empty, text := "", loc }

/-- The child at a position, unless it is missing or omitted. -/
def child? (t : Tree) (i : Nat) : Option Tree := t.children[i]?.filter fun c => c.kind != .empty

mutual

/-- The number of nodes of a tree. -/
def count : Tree → Nat
  | { children, .. } => 1 + countAll children

/-- The number of nodes of several trees. -/
def countAll : List Tree → Nat
  | [] => 0
  | t :: ts => count t + countAll ts

end

mutual

/-- Whether two trees are equal up to places. -/
def same : Tree → Tree → Bool
  | ⟨k, x, a, _, cs⟩, ⟨k', x', a', _, cs'⟩ => k == k' && x == x' && a == a' && sameAll cs cs'

/-- Whether the trees of two lists are equal up to places, one by one. -/
def sameAll : List Tree → List Tree → Bool
  | [], [] => true
  | t :: ts, t' :: ts' => same t t' && sameAll ts ts'
  | _, _ => false

end

end Tree

end Stacklet
