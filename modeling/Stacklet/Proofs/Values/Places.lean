import Stacklet.Proofs.Scoping.Around
import Stacklet.Proofs.Values.Form
import Stacklet.Proofs.Visible.Flow
/-!
# Forms of values at the places of a program

* `Shaping`: which shapes the variables and the results of functions have. `Shaping.strict` keeps
  single values and arrays apart, `Shaping.loose` mixes them.
* `Tree.formAt`: the form of the value of the expression at a place. `Tree.waitingAt`: the forms of
  what waits on the stack and in hidden slots meanwhile.
* `Tree.everywhere`: something holds at all places of the functions of a program. `Tree.hasValues`,
  `Tree.storesTyped`, `Tree.separatesNames`, `Tree.keepsShapes`: conditions of this kind.
-/

namespace Stacklet

open Emit List
open Stacklet.Tree hiding lower

/-- The shapes that the variables and the results of a program have. Whether a variable is an array
is given. -/
structure Shaping where
  /-- The shape of a variable of a function. -/
  own : Bool → Shape
  /-- The shape of a variable from outside of a function, which is never set there. -/
  outer : Bool → Shape
  /-- The shape of what functions return. -/
  result : Shape
  stored_own : Shape.stored.within (own false) := by rfl
  whole_own : Shape.whole.within (own true) := by rfl
  single_outer : Shape.single.within (outer false) := by rfl
  unset_outer : Shape.unset.within (outer true) := by rfl
  stored_result : Shape.stored.within result := by rfl

namespace Shaping

/-- Single values are stored ones, and arrays are arrays. -/
def strict : Shaping where
  own isArray := if isArray then .whole else .stored
  outer isArray := if isArray then .unset else .single
  result := .stored

/-- Single values and arrays are mixed. -/
def loose : Shaping where
  own _ := .mixed
  outer _ := .mixed
  result := .mixed

end Shaping

/-- Whether a role is one of expressions. -/
def Role.isExpression : Role → Bool
  | .value _ | .target _ | .base => true
  | _ => false

namespace Tree

/-- The shape of the value of an expression, given the shapes of names and results. -/
def shape (name : String → Shape) (result : Shape) : Tree → Shape
  | { kind := .identifier, text, .. } => name text
  | { kind := .unary, text, children := [e], .. } =>
    if text = "-" ∨ text = "!" then .stored else e.shape name result
  | { kind := .binary, children := [l, r], .. } =>
    if l.shape name result = .stored ∨ r.shape name result = .stored then .stored else .single
  | { kind := .comma, children := [_, r], .. } => r.shape name result
  | { kind := .assign, children := [target, value], .. } =>
    if target.kind = .index then value.shape name result else target.shape name result
  | { kind := .call, .. } => result
  | { kind := .index, children := [base, _], .. } => (base.shape name result).item
  | _ => .stored

variable (S : Shaping) (t : Tree) (p : List Nat)

/-- The form of a variable, seen from the function with the number `k`. -/
def Variable.form (k : Nat) : Variable → Form
  | declared d => ⟨d.ty, S.own d.isArray⟩
  | outer x =>
    match (t.checkedAt [k]).scopes.lookup? x with
    | some (.var ty isArray) => ⟨ty, S.outer isArray⟩
    | _ => ⟨.int, .mixed⟩

def nameForm (x : String) : Form := (t.variableOf p x).form S t (p.headD 0)

/-- The type of the value of an expression: the type that typing finds, but an integer literal under
minus signs is a double where one is wanted. -/
def valueTy : Ty :=
  match t.expressionAt? p with
  | some e =>
    if t.roleAt p = .value .double ∧ (widened? e).isSome then .double
      else (Checker.expression e (t.checkedAt p)).1
  | none => .unknown

def shapeAt : Shape :=
  match t.expressionAt? p with
  | some e => e.shape (fun x => (t.nameForm S p x).shape) S.result
  | none => .mixed

def formAt : Form := ⟨t.valueTy p, t.shapeAt S p⟩

/-! ## What waits -/

/-- The forms of the operands that an expression has put on the stack ahead of its child with number
`i`. -/
def operandsAhead (r : Role) (kind : Kind) (i : Nat) : List Form :=
  match r, kind, i with
  | .value _, .binary, 1 | .value _, .index, 1 => [t.formAt S (p ++ [0])]
  | .value _, .call, j + 1 => ((range j).map fun n => t.formAt S (p ++ [n + 1])).reverse
  | .target _, .index, 1 => [t.formAt S p]
  | _, _, _ => []

/-- The hidden slot that is newly in use at the child with number `i`, if there is one, with the
form of what it holds. -/
def holdsAhead (r : Role) (e : Tree) (i : Nat) : List (String × Form) :=
  (heldAhead r e i (t.loweredAt p) []).map (·, t.formAt S p)

/-- The forms of what waits at a place, which is given from its end to its start: operands, and
values in hidden slots. -/
def waiting : List Nat → List Form × List (String × Form)
  | [] => ([], [])
  | i :: q =>
    match t.roleAt q.reverse, t.expressionAt? q.reverse with
    | .value d, some e => (t.operandsAhead S q.reverse (.value d) e.kind i ++ (waiting q).1,
        t.holdsAhead S q.reverse (.value d) e i ++ (waiting q).2)
    | .target d, some e =>
      (t.operandsAhead S q.reverse (.target d) e.kind i ++ (waiting q).1, (waiting q).2)
    | _, _ => ([], [])

/-- What waits at a place. Statements find nothing. -/
def waitingAt : List Form × List (String × Form) :=
  if (t.roleAt p).isExpression then t.waiting S p.reverse else ([], [])

/-- The forms of the operands that wait for an expression. -/
def takenAt : List Form :=
  match t.roleAt p with
  | .target _ => [t.formAt S p]
  | .base => [⟨.int, .mixed⟩, ⟨t.valueTy p, (t.shapeAt S p).item⟩]
  | _ => []

/-- The form of what an expression leaves. -/
def leftAt : List Form :=
  match t.roleAt p with
  | .value d => if d = .effect then [] else [t.formAt S p]
  | .target d =>
    if d = .effect ∨ (t.expressionAt? p).map kind = some .index then [] else [t.formAt S p]
  | _ => []

/-! ## Conditions at places -/

mutual

/-- All places of a tree. -/
def places : Tree → List (List Nat)
  | ⟨_, _, _, _, children⟩ => [] :: placesOf 0 children

def placesOf : Nat → List Tree → List (List Nat)
  | _, [] => []
  | i, t :: ts => (places t).map (i :: ·) ++ placesOf (i + 1) ts

end

/-- Whether something holds at all places of the functions of a program. -/
def everywhere (f : List Nat → Bool) : Bool :=
  t.children.zipIdx.all fun (c, k) => c.kind != .function || c.places.all fun p => f (k :: p)

/-- Whether an expression at a place has a value if that is wanted. -/
def hasValueAt : Bool :=
  match t.roleAt p with
  | .value d => d = .effect || t.valueTy p != .void
  | _ => true

/-- Whether an assignment at a place stores a value of the type of the variable. -/
def storesTypedAt : Bool :=
  match t.expressionAt? p with
  | some e => e.kind != .assign || (t.valueTy (p ++ [0])).accepts (t.valueTy (p ++ [1]))
  | none => true

/-- Whether a name at a place that stands for a variable from outside of the function is declared in
no part of the function from which control may come there. -/
def separatesNamesAt : Bool :=
  match t.variableAt? p with
  | some x =>
    match t.variableOf p x with
    | .declared _ => true
    | .outer x => undeclaredAhead x p t
  | none => true

/-- Whether values at a place go where values of their shape belong: into variables, to functions of
the program, and out of them. -/
def keepsShapesAt : Bool :=
  match partAt? p .program t with
  | some (.expression, { kind := .assign, .. }) =>
    (t.formAt S (p ++ [1])).within (t.shapeAt S (p ++ [0]))
  | some (.expression, { kind := .call, children := f :: _, .. }) =>
    match Builtin.ofName? f.text, (t.checkedAt p).scopes.lookup? f.text with
    | none, some (.function _ params) =>
      params.zipIdx.all fun (param, j) => (t.formAt S (p ++ [j + 1])).within (S.own param.2)
    | _, _ => true
  | some (.declarator, { isArray := false, children := _ :: _, .. }) =>
    (t.formAt S (p ++ [0])).within (S.own false)
  | some (.statement, { kind := .returnStmt, .. }) => (t.formAt S (p ++ [0])).within S.result
  | _ => true

/-- Whether all expressions whose values are wanted have values. -/
def hasValues : Bool := t.everywhere t.hasValueAt

/-- Whether all assignments store values of the types of their variables. -/
def storesTyped : Bool := t.everywhere t.storesTypedAt

/-- Whether no local variable is declared ahead of a name that stands for a variable from outside of
the function. -/
def separatesNames : Bool := t.everywhere t.separatesNamesAt

/-- Whether all variables and results have the shapes that are given. -/
def keepsShapes : Bool := t.everywhere (t.keepsShapesAt S)

section Everywhere

variable {t} {c : Tree} {k i : Nat} {p} {part : Part} {r : Part × Tree} {f : List Nat → Bool}

theorem mem_placesOf {ts : List Tree} (hc : ts[i]? = some c) (hp : p ∈ c.places) (n : Nat) :
    (n + i) :: p ∈ placesOf n ts := by
  induction ts generalizing n i with
  | nil => cases hc
  | cons t ts ih =>
    rw [placesOf, mem_append]
    cases i with
    | zero =>
      cases hc
      exact .inl (mem_map_of_mem hp)
    | succ i =>
      have := ih hc (n + 1)
      rw [Nat.add_right_comm] at this
      exact .inr this

theorem mem_places (h : partAt? p part t = some r) : p ∈ t.places := by
  induction p generalizing part t with
  | nil =>
    obtain ⟨kind, text, isArray, loc, children⟩ := t
    exact mem_cons_self
  | cons i p ih =>
    obtain ⟨c, part', hc, -, hp⟩ := partAt?_cons h
    obtain ⟨kind, text, isArray, loc, children⟩ := t
    have := mem_placesOf hc (ih hp) 0
    rw [Nat.zero_add] at this
    exact mem_cons_of_mem _ this

theorem apply_of_everywhere {N : String → Prop} (h : t.everywhere f) (hf : FunctionIn N t k c)
    (hp : partAt? (k :: p) .program t = some r) : f (k :: p) := by
  have hall := all_eq_true.mp h (c, k) (mk_mem_zipIdx_iff_getElem?.mpr hf.child_eq)
  rw [hf.partAt?_eq] at hp
  have hplaces : c.places.all fun p => f (k :: p) := by simpa [hf.isFunction] using hall
  exact all_eq_true.mp hplaces p (mem_places hp)

end Everywhere

end Tree

/-! ## Parts of expressions -/

section Expressions

variable {S : Shaping} {t c e : Tree} {k i : Nat} {p : List Nat} {d : Demand} {ty : Ty}

theorem Tree.expressionAt?_of_partAt? (hp : partAt? p .program t = some (.expression, e)) :
    t.expressionAt? p = some e := by
  rw [expressionAt?, hp]

theorem Tree.waitingAt_value (hp : partAt? p .program t = some (.expression, e))
    (hr : t.roleAt p = .value d) (hi : (t.roleAt (p ++ [i])).isExpression) :
    t.waitingAt S (p ++ [i]) = (t.operandsAhead S p (.value d) e.kind i ++ (t.waitingAt S p).1,
      t.holdsAhead S p (.value d) e i ++ (t.waitingAt S p).2) := by
  have hself : t.waitingAt S p = t.waiting S p.reverse := if_pos (by rw [hr]; rfl)
  rw [hself, waitingAt, if_pos hi, reverse_append, reverse_singleton, singleton_append, waiting,
    reverse_reverse, hr, expressionAt?_of_partAt? hp]

theorem Tree.waitingAt_target (hp : partAt? p .program t = some (.expression, e))
    (hr : t.roleAt p = .target d) (hi : (t.roleAt (p ++ [i])).isExpression) :
    t.waitingAt S (p ++ [i]) =
      (t.operandsAhead S p (.target d) e.kind i ++ (t.waitingAt S p).1, (t.waitingAt S p).2) := by
  have hself : t.waitingAt S p = t.waiting S p.reverse := if_pos (by rw [hr]; rfl)
  rw [hself, waitingAt, if_pos hi, reverse_append, reverse_singleton, singleton_append, waiting,
    reverse_reverse, hr, expressionAt?_of_partAt? hp]

theorem Tree.waitingAt_of_not (hr : (t.roleAt p).isExpression = false) (i : Nat) :
    t.waitingAt S (p ++ [i]) = ([], []) := by
  rw [waitingAt, reverse_append, reverse_singleton, singleton_append, waiting,
    reverse_reverse]
  split
  · split
    · next heq _ => rw [heq] at hr; cases hr
    · next heq _ => rw [heq] at hr; cases hr
    · rfl
  · rfl

variable (ht : TypedTree IsName t)
  (hp : partAt? (k :: p) .program t = some (.expression, e))

include ht hp

theorem TypedTree.checkedAt_child {part : Tree.Part} (hc : e.children[i]? = some c)
    (hpart : part? e.kind i c = some part) :
    t.checkedAt ((k :: p) ++ [i]) = t.checkedAt (k :: p) := by
  cases ht.reach hp with | expression _ _ _ _ hs he =>
  rw [checkedAt_append hp, Checker.reach_cons hc]
  exact congrArg Prod.snd (he.step (N := IsName) hs hc hpart).1

theorem TypedTree.nameForm_child (hc : e.children[i]? = some c) (x : String) :
    t.nameForm S ((k :: p) ++ [i]) x = t.nameForm S (k :: p) x := by
  cases ht.reach hp with | expression _ _ _ _ _ he =>
  have hscope : t.scopeAt ((k :: p) ++ [i]) = t.scopeAt (k :: p) := by
    rw [scopeAt_snoc hp hc, he.scopeAhead_eq]
  rw [nameForm, nameForm, variableOf, variableOf, hscope]
  rfl

theorem TypedTree.shapeAt_child (hc : e.children[i]? = some c)
    (hpart : part? e.kind i c = some .expression) :
    t.shapeAt S ((k :: p) ++ [i]) = c.shape (fun x => (t.nameForm S (k :: p) x).shape)
      S.result := by
  rw [shapeAt, expressionAt?_of_partAt? (partAt?_snoc hp hc hpart)]
  simp only [ht.nameForm_child hp hc]

omit ht in
theorem Tree.shapeAt_eq :
    t.shapeAt S (k :: p) = e.shape (fun x => (t.nameForm S (k :: p) x).shape) S.result := by
  rw [shapeAt, expressionAt?_of_partAt? hp]

omit ht in
theorem Tree.valueTy_eq (he : HasType (t.checkedAt (k :: p)).scopes e ty)
    (hw : t.roleAt (k :: p) = .value .double → widened? e = none) : t.valueTy (k :: p) = ty := by
  rw [valueTy, expressionAt?_of_partAt? hp]
  dsimp only
  rw [if_neg, he.expression_eq]
  rintro ⟨hr, hsome⟩
  rw [hw hr] at hsome
  cases hsome

omit ht in
theorem Tree.valueTy_widened (hr : t.roleAt (k :: p) = .value .double) (hw : (widened? e).isSome) :
    t.valueTy (k :: p) = .double := by
  rw [valueTy, expressionAt?_of_partAt? hp]
  exact if_pos ⟨hr, hw⟩

end Expressions

end Stacklet
