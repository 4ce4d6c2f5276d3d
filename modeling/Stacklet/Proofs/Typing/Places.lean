import Stacklet.Proofs.Typing.Completeness
/-!
# Places of a program

A place is the list of the numbers of the children that lead to it from the root.

* `Tree.Part`, `Tree.partAt?`: the statements, declared names and expressions of a program, by their
  places.
* `Checker.ahead`, `Checker.reach`: what is checked ahead of a child of a node, and ahead of a
  place. `Tree.checkedAt`: the state in which the part at a place is checked.
* `TypedPart.step`, `TypedPart.reach`: in a typed program every part is typed in the scopes of its
  place.
-/

namespace Stacklet

open Stacklet.Tree List

/-! ## Parts of trees -/

/-- What a node is a part as. -/
inductive Tree.Part where
  | program | item | parameter | statement | branch | declarator | expression
  deriving DecidableEq, Repr

variable {p : List Nat} {ts : List Tree} {i : Nat} {N : String → Prop} {c e t : Tree}
  {part : Tree.Part} {ty : Ty}

namespace Tree

/-- What the child with number `i` of a node is. Names of types, names of called functions and what
is left out are not parts. -/
def part? (parent : Kind) (i : Nat) (child : Tree) : Option Part :=
  match parent, i with
  | .program, _ => some .item
  | .function, _ =>
    match child.kind with
    | .parameter => some .parameter
    | .block => some .statement
    | _ => none
  | .block, _ => some .statement
  | .declaration, _ + 1 => some .declarator
  | .conditional, 1 | .elseIf, 1 | .whileLoop, 1 | .doWhile, 0 | .forLoop, 0 | .forLoop, 3 =>
    some .statement
  | .conditional, _ + 2 => some .branch
  | .exprStmt, 0 | .returnStmt, 0 | .declarator, 0 | .conditional, 0 | .elseIf, 0 | .whileLoop, 0
  | .doWhile, 1 => some .expression
  | .forLoop, 1 | .forLoop, 2 => if child.kind = .empty then none else some .expression
  | .unary, 0 | .binary, _ | .comma, _ | .assign, _ | .index, _ | .call, _ + 1 => some .expression
  | _, _ => none

/-- The part at a place of a tree that is itself a part of some kind. -/
def partAt? : List Nat → Part → Tree → Option (Part × Tree)
  | [], part, t => some (part, t)
  | i :: p, _, t => do
    let c ← t.children[i]?
    let part ← part? t.kind i c
    partAt? p part c

theorem partAt?_cons {r : Part × Tree}
    (h : partAt? (i :: p) part t = some r) :
    ∃ c part', t.children[i]? = some c ∧ part? t.kind i c = some part' ∧
      partAt? p part' c = some r := by
  obtain ⟨c, hc, h⟩ := Option.bind_eq_some_iff.mp h
  obtain ⟨part', hpart, h⟩ := Option.bind_eq_some_iff.mp h
  exact ⟨c, part', hc, hpart, h⟩

theorem partAt?_append (p q : List Nat) (part : Part) (t : Tree) :
    partAt? (p ++ q) part t = (partAt? p part t).bind fun r => partAt? q r.1 r.2 := by
  induction p generalizing part t with
  | nil => rfl
  | cons i p ih =>
    simp only [cons_append, partAt?, ih, Option.bind_eq_bind, Option.bind_assoc]

theorem partAt?_snoc {root : Tree} {here : List Nat} {part' : Part}
    (h : partAt? here .program root = some (part, t)) (hc : t.children[i]? = some c)
    (hpart : part? t.kind i c = some part') :
    partAt? (here ++ [i]) .program root = some (part', c) := by
  simp [partAt?_append, h, partAt?, hc, hpart]

theorem partAt?_item {k : Nat} (hk : t.kind = .program) (hc : t.children[k]? = some c) :
    partAt? [k] .program t = some (.item, c) :=
  partAt?_snoc (rfl : partAt? [] .program t = _) hc (by rw [hk]; rfl)

/-- Whether a part stands inside of an item. -/
def Part.IsInner (part : Part) : Prop := part ≠ .program ∧ part ≠ .item

theorem part?_isInner {k : Kind} (hk : k ≠ .program) (h : part? k i c = some part) :
    part.IsInner := by
  unfold part? at h
  split at h <;> (try split at h) <;> cases h <;> first | exact absurd rfl hk | exact ⟨nofun, nofun⟩

theorem part?_ne_parameter {k : Kind} (hk : k ≠ .function) (h : part? k i c = some part) :
    part ≠ .parameter := by
  unfold part? at h
  split at h <;> (try split at h) <;> cases h <;> first | exact absurd rfl hk | nofun

end Tree

/-! ## What is checked ahead of a place -/

namespace Checker

/-- What is checked of a node ahead of its child with number `i`. -/
def ahead : Tree → Nat → Checker Unit
  | { kind, loc, children, .. }, i => do
    match kind with
    | .program =>
      (children.filter fun c => c.kind == .function).forM declareFunction
      (children.take i).forM item
    | .function =>
      modify fun s => (s.enterFunction (.ofFirst children)).withScopes ([] :: s.scopes)
      (parametersOf (children.take i)).forM fun p => declareVar p (parameterTy p)
    | .block =>
      modify fun s => s.withScopes ([] :: s.scopes)
      statements (children.take i)
    | .declaration => (children.take i).tail.forM (declarator (.ofFirst children))
    | .conditional =>
      match children.take i with
      | c :: branches =>
        condition .conditional c
        branchStatements branches
      | [] => pure ()
    | .elseIf =>
      match children.take i with
      | c :: bodies =>
        condition .elseIf c
        statements bodies
      | [] => pure ()
    | .whileLoop =>
      match children.take i with
      | c :: bodies =>
        condition .whileLoop c
        modify State.inLoop
        statements bodies
      | [] => pure ()
    | .doWhile =>
      match children.take i with
      | body :: _ => inLoop (statement body)
      | [] => modify State.inLoop
    | .forLoop =>
      modify fun s => s.withScopes ([] :: s.scopes)
      match children.take i with
      | first :: c :: step :: _ =>
        statement first
        condition .forLoop c
        discard (expression step)
        modify State.inLoop
      | [first, c] =>
        statement first
        condition .forLoop c
      | [first] => statement first
      | [] => pure ()
    | .assign =>
      match children.take i with
      | target :: _ =>
        if isAssignable target then discard (expression target)
          else report target.loc .assignmentTarget
      | [] => pure ()
    | .call =>
      match children.take i with
      | f :: args =>
        match ← callee? f with
        | some (_, params) =>
          unless children.length = params.length + 1 do
            report loc (.argumentCount f.text params.length (children.length - 1))
          arguments f.text 1 params args
        | none => discard (lastTy .unknown args)
      | [] => pure ()
    | .binary | .comma | .index => discard (lastTy .unknown (children.take i))
    | _ => pure ()

/-- What is checked of a tree ahead of a place. -/
def reach : List Nat → Tree → Checker Unit
  | [], _ => pure ()
  | i :: p, t => do
    ahead t i
    match t.children[i]? with
    | some c => reach p c
    | none => pure ()

theorem reach_cons (h : t.children[i]? = some c) (p : List Nat) (s : State) :
    reach (i :: p) t s = reach p c (ahead t i s).2 := by
  rw [reach, bind_apply, h]

end Checker

/-- The state in which the part at a place of a program is checked. -/
def Tree.checkedAt (t : Tree) (p : List Nat) : Checker.State := (Checker.reach p t .start).2

def Tree.expressionAt? (t : Tree) (p : List Nat) : Option Tree :=
  match partAt? p .program t with
  | some (.expression, e) => some e
  | _ => none

/-! ## Typed parts -/

open Checker

/-- A part of a typed program that is checked in the state `s`. -/
inductive TypedPart (N : String → Prop) (s : Checker.State) : Tree.Part → Tree → Prop
  | program (t : Tree) (Γ : Scopes) : s.Outside → t.kind = .program →
    DeclaresFunctions s.scopes (t.children.filter fun c => c.kind == .function) Γ →
      TypedItems N Γ t.children →
    TypedPart N s .program t
  | function (t : Tree) : s.Outside → TypedFunction N s.scopes t → TypedPart N s .item t
  | item (t : Tree) (Γ : Scopes) : s.Outside → t.kind ≠ .function →
      Typed N none false s.scopes t Γ →
    TypedPart N s .item t
  | parameter (p : Tree) : p.kind = .parameter → TypedPart N s .parameter p
  | statement (ret : Option Ty) (loop : Bool) (t : Tree) (Γ : Scopes) : s.Ready ret loop →
    Typed N ret loop s.scopes t Γ → TypedPart N s .statement t
  | branch (ret : Option Ty) (loop : Bool) (t : Tree) : s.Ready ret loop →
    TypedBranches N ret loop s.scopes [t] → TypedPart N s .branch t
  | declarator (ret : Option Ty) (loop : Bool) (ty : Ty) (d : Tree) (Γ : Scopes) :
      s.Ready ret loop → ty.IsValue →
    Declares N ty s.scopes d Γ → TypedPart N s .declarator d
  | expression (ret : Option Ty) (loop : Bool) (e : Tree) (ty : Ty) : s.Ready ret loop →
      HasType s.scopes e ty →
    TypedPart N s .expression e

theorem TypedPart.isName_declarator {s : Checker.State} {d : Tree}
    (h : TypedPart IsName s .declarator d) :
    IsName d.text := by
  cases h with
  | declarator _ _ _ _ _ _ _ hd => cases hd <;> assumption

section Split

variable {N : String → Prop} {s : Checker.State} {ret : Option Ty} {loop : Bool} {Γ Γ' : Scopes}
  {i : Nat} {c : Tree}

theorem TypedAll.split (h : TypedAll N ret loop Γ ts Γ') (hc : ts[i]? = some c) :
    ∃ Γ₁ Γ₂, TypedAll N ret loop Γ (ts.take i) Γ₁ ∧ Typed N ret loop Γ₁ c Γ₂ := by
  induction ts generalizing Γ i with
  | nil => cases hc
  | cons t ts ih =>
    cases h with
    | cons _ _ Γ₀ _ _ _ ht hts =>
      cases i with
      | zero =>
        cases hc
        exact ⟨Γ, Γ₀, .nil loop Γ, ht⟩
      | succ i =>
        obtain ⟨Γ₁, Γ₂, htake, hc⟩ := ih hts hc
        exact ⟨Γ₁, Γ₂, .cons loop Γ Γ₀ Γ₁ t _ ht htake, hc⟩

theorem DeclaresAll.split {ds : List Tree} (h : DeclaresAll N ty Γ ds Γ') (hc : ds[i]? = some c) :
    ∃ Γ₁ Γ₂, DeclaresAll N ty Γ (ds.take i) Γ₁ ∧ Declares N ty Γ₁ c Γ₂ := by
  induction ds generalizing Γ i with
  | nil => cases hc
  | cons d ds ih =>
    cases h with
    | cons _ Γ₀ _ _ _ hd hds =>
      cases i with
      | zero =>
        cases hc
        exact ⟨Γ, Γ₀, .nil Γ, hd⟩
      | succ i =>
        obtain ⟨Γ₁, Γ₂, htake, hc⟩ := ih hds hc
        exact ⟨Γ₁, Γ₂, .cons Γ Γ₀ Γ₁ d _ hd htake, hc⟩

theorem TypedBranches.split (h : TypedBranches N ret loop Γ ts) (hc : ts[i]? = some c) :
    TypedBranches N ret loop Γ (ts.take i) ∧ TypedBranches N ret loop Γ [c] := by
  induction ts generalizing i with
  | nil => cases hc
  | cons t ts ih =>
    cases h with
    | last _ _ _ hbody =>
      cases i with
      | zero =>
        cases hc
        exact ⟨.nil loop Γ, .last loop Γ _ hbody⟩
      | succ i => cases hc
    | elseIf _ _ loc cond body _ hcond hbody hts =>
      cases i with
      | zero =>
        cases hc
        exact ⟨.nil loop Γ, .elseIf loop Γ loc cond body [] hcond hbody (.nil loop Γ)⟩
      | succ i =>
        obtain ⟨htake, hc⟩ := ih hts hc
        exact ⟨.elseIf loop Γ loc cond body _ hcond hbody htake, hc⟩

theorem HasArgs.split {params : List (Ty × Bool)} {args : List Tree}
    (h : HasArgs s.scopes params args) (hc : args[i]? = some c) (f : String) (position : Nat) :
    arguments f position params (args.take i) s = ((), s) ∧ ∃ ty, HasType s.scopes c ty := by
  induction args generalizing params i position with
  | nil => cases hc
  | cons arg args ih =>
    cases h with
    | cons ty ty' isArray params _ _ harg hacc hshape hargs =>
      cases i with
      | zero =>
        cases hc
        rw [take_zero]
        unfold Checker.arguments
        exact ⟨rfl, ty', harg⟩
      | succ i =>
        obtain ⟨htake, hc⟩ := ih hargs hc (position + 1)
        rw [take_succ_cons]
        unfold Checker.arguments
        refine ⟨(bind_of_eq harg.expression_eq _).trans ?_, hc⟩
        exact (bind_of_eq (checkArgument_eq hacc hshape f position) _).trans htake

theorem TypedItems.split (h : TypedItems N s.scopes ts) (hs : s.Outside) (hc : ts[i]? = some c) :
    TypedPart N ((ts.take i).forM item s).2 .item c := by
  induction ts generalizing s i with
  | nil => cases hc
  | cons t ts ih =>
    cases h with
    | function _ _ _ ht hts =>
      cases i with
      | zero =>
        cases hc
        exact .function _ hs ht
      | succ i =>
        have hitem : item t s = ((), s) := by
          rw [item_eq_function ht.parts.1]
          exact ht.function_eq hs
        show TypedPart N ((item t >>= fun _ => (ts.take i).forM item) s).2 .item c
        rw [bind_of_eq hitem]
        exact ih hts hs hc
    | stmt _ Γ' _ _ hk ht hts =>
      cases i with
      | zero =>
        cases hc
        exact .item _ Γ' hs hk ht
      | succ i =>
        have hitem : item t s = ((), s.withScopes Γ') := by
          rw [item_eq_statement hk]
          exact ht.statement_eq hs.ready
        show TypedPart N ((item t >>= fun _ => (ts.take i).forM item) s).2 .item c
        rw [bind_of_eq hitem]
        exact ih (s := s.withScopes Γ') hts (hs.withScopes (ht.adds.known hs.ready.known)) hc

end Split

section Step

variable {N : String → Prop} {s : Checker.State} {ret : Option Ty} {loop : Bool} {Γ Γ' : Scopes}
  {i : Nat} {c : Tree}
  {part : Tree.Part}

theorem HasType.item {x : String} (hx : Γ.lookup? x = some (.var ty true)) (he : HasType Γ e .int)
    (loc loc' : Loc) :
    HasType Γ ⟨.index, "Index", false, loc, [.nameAt x loc', e]⟩ ty := by
  refine .index loc _ e ty (.var x loc' ty true hx) rfl he fun _ ty' hx' => ?_
  rw [show (nameAt x loc').text = x from rfl, hx] at hx'
  cases hx'

theorem HasType.lastTy_eq (h : HasType s.scopes e ty) :
    discard (lastTy .unknown [e]) s = ((), s) := by
  refine discard_of_eq (a := ty) ?_
  unfold lastTy lastTy
  exact bind_of_eq h.expression_eq _

theorem HasType.step (h : HasType s.scopes e ty) (hs : s.Ready ret loop)
    (hc : e.children[i]? = some c) (hpart : part? e.kind i c = some part) :
    ahead e i s = ((), s) ∧ TypedPart N s part c := by
  have found {e : Tree} {ty : Ty} (h : HasType s.scopes e ty) : TypedPart N s .expression e :=
    .expression ret loop e ty hs h
  cases h with
  | number | string | var => cases hc
  | unary _ _ _ _ _ he =>
    match i with
    | 0 =>
      cases hc
      cases hpart
      exact ⟨rfl, found he⟩
    | _ + 1 => cases hc
  | binary _ _ _ _ _ _ _ hl hr | comma _ _ _ _ _ hl hr | index _ _ _ _ hl _ hr =>
    match i with
    | 0 =>
      cases hc
      cases hpart
      exact ⟨by unfold ahead lastTy; rfl, found hl⟩
    | 1 =>
      cases hc
      cases hpart
      exact ⟨hl.lastTy_eq, found hr⟩
    | _ + 2 => cases hc
  | assign _ loc' x _ ty _ isArray hx hv =>
    match i with
    | 0 =>
      cases hc
      cases hpart
      exact ⟨rfl, found (.var x loc' ty isArray hx)⟩
    | 1 =>
      cases hc
      cases hpart
      exact ⟨discard_of_eq (HasType.var x loc' ty isArray hx).expression_eq, found hv⟩
    | _ + 2 => cases hc
  | assignItem _ loc' loc'' _ _ _ _ _ hx hi hv =>
    match i with
    | 0 =>
      cases hc
      cases hpart
      exact ⟨rfl, found (.item hx hi loc' loc'')⟩
    | 1 =>
      cases hc
      cases hpart
      exact ⟨discard_of_eq (HasType.item hx hi loc' loc'').expression_eq, found hv⟩
    | _ + 2 => cases hc
  | call loc loc' f args ty params hf hargs =>
    match i with
    | 0 => cases hpart
    | i + 1 =>
      cases hpart
      obtain ⟨htake, _, hty⟩ := hargs.split (i := i) hc f 1
      refine ⟨?_, found hty⟩
      refine (bind_of_eq (callee?_eq hf loc') _).trans ?_
      dsimp only
      rw [if_pos (by rw [length_cons, hargs.length_eq])]
      exact htake

theorem HasType.part?_eq (h : HasType Γ e ty)
    (hpart : (if e.kind = .empty then none else some .expression) = some part) :
    part = .expression := by
  rw [if_neg h.kind_ne_empty] at hpart
  exact (Option.some.inj hpart).symm

theorem TypedAll.adds {Γ Γ' : Scopes} {ts : List Tree} : TypedAll N ret loop Γ ts Γ' → Γ.Adds Γ'
  | .nil .. => .refl _
  | .cons _ _ _ _ _ _ ht hts => ht.adds.trans hts.adds

variable (N ret loop Γ) in
/-- The scopes `Γ₁` ahead of the child with number `i` of a typed statement. -/
def ScopesAhead (t : Tree) (i : Nat) (Γ₁ : Scopes) : Prop :=
  match t.kind with
  | .block => TypedAll N ret loop ([] :: Γ) (t.children.take i) Γ₁
  | .declaration => DeclaresAll N (.ofFirst t.children) Γ (t.children.take i).tail Γ₁
  | .forLoop => TypedAll N ret loop ([] :: Γ) (t.children.take (min i 1)) Γ₁
  | _ => Γ₁ = Γ

theorem Typed.step (h : Typed N ret loop s.scopes t Γ') (hs : s.Ready ret loop)
    (hc : t.children[i]? = some c) (hpart : part? t.kind i c = some part) :
    TypedPart N (ahead t i s).2 part c ∧
    ScopesAhead N ret loop s.scopes t i (ahead t i s).2.scopes := by
  have found {s : Checker.State} {ret : Option Ty} {loop : Bool} (hs : s.Ready ret loop)
      {e : Tree} {ty : Ty} (h : HasType s.scopes e ty) : TypedPart N s .expression e :=
    .expression ret loop e ty hs h
  have body {s : Checker.State} {ret : Option Ty} {loop : Bool} (hs : s.Ready ret loop) {t : Tree}
      (h : TypedBlock N ret loop s.scopes t) : TypedPart N s .statement t :=
    .statement ret loop t s.scopes hs (.block loop s.scopes t h)
  have henter := hs.withScopes hs.known.enter
  cases h with
  | omitted | breakStmt | continueStmt => cases hc
  | block _ _ _ hb =>
    cases hb with
    | mk _ _ Γ' loc ts hts =>
      cases hpart
      obtain ⟨Γ₁, Γ₂, htake, hc⟩ := hts.split hc
      have hahead : ahead ⟨.block, "Block", false, loc, ts⟩ i s = ((), s.withScopes Γ₁) :=
        htake.statements_eq (s := s.withScopes ([] :: s.scopes)) henter
      rw [hahead]
      exact ⟨.statement ret loop c Γ₂ (hs.withScopes (htake.adds.known henter.known)) hc, htake⟩
  | declaration _ _ _ loc ty ds hty hds =>
    match i with
    | 0 => cases hpart
    | i + 1 =>
      cases hpart
      obtain ⟨Γ₁, Γ₂, htake, hc⟩ := hds.split (i := i) hc
      have hahead : ahead ⟨.declaration, "VarDeclList", false, loc, ty :: ds⟩ (i + 1) s =
          ((), s.withScopes Γ₁) := htake.declarators_eq
      rw [hahead]
      exact ⟨.declarator ret loop _ c Γ₂ (hs.withScopes ((htake.adds hty).known hs.known)) hty
        hc, htake⟩
  | exprStmt _ _ _ _ _ he | returnStmt _ _ _ _ _ _ _ he =>
    match i with
    | 0 =>
      cases hc
      cases hpart
      exact ⟨found hs he, rfl⟩
    | _ + 1 => cases hc
  | conditional _ _ loc cond first rest hcond hfirst hrest =>
    match i with
    | 0 =>
      cases hc
      cases hpart
      exact ⟨found hs hcond, rfl⟩
    | 1 =>
      cases hc
      cases hpart
      have hahead : ahead ⟨.conditional, "If", false, loc, cond :: c :: rest⟩ 1 s = ((), s) := by
        refine (bind_of_eq (hcond.condition_eq _) _).trans ?_
        unfold branchStatements
        rfl
      rw [hahead]
      exact ⟨body hs hfirst, rfl⟩
    | i + 2 =>
      cases hpart
      obtain ⟨htake, hc⟩ := hrest.split (i := i) hc
      have hahead : ahead ⟨.conditional, "If", false, loc, cond :: first :: rest⟩ (i + 2) s =
          ((), s) := by
        refine (bind_of_eq (hcond.condition_eq _) _).trans ?_
        rw [take_succ_cons, hfirst.branchStatements_eq]
        exact (bind_of_eq (hfirst.statement_eq hs) _).trans (htake.branchStatements_eq hs)
      rw [hahead]
      exact ⟨.branch ret loop c hs hc, rfl⟩
  | whileLoop _ _ loc cond b hcond hb =>
    match i with
    | 0 =>
      cases hc
      cases hpart
      exact ⟨found hs hcond, rfl⟩
    | 1 =>
      cases hc
      cases hpart
      have hahead : ahead ⟨.whileLoop, "While", false, loc, [cond, c]⟩ 1 s = ((), s.inLoop) := by
        refine (bind_of_eq (hcond.condition_eq _) _).trans ?_
        unfold statements
        rfl
      rw [hahead]
      exact ⟨body hs.inLoop hb, rfl⟩
    | _ + 2 => cases hc
  | doWhile _ _ loc b cond hb hcond =>
    match i with
    | 0 =>
      cases hc
      cases hpart
      exact ⟨body hs.inLoop hb, rfl⟩
    | 1 =>
      cases hc
      cases hpart
      have hahead : ahead ⟨.doWhile, "DoWhile", false, loc, [b, c]⟩ 1 s = ((), s) :=
        inLoop_eq (hb.statement_eq (s := s.inLoop) hs.inLoop)
      rw [hahead]
      exact ⟨found hs hcond, rfl⟩
    | _ + 2 => cases hc
  | forLoop _ _ Γ₁ loc first cond step b hfirst hcond hstep hb =>
    have hready := hs.withScopes (hfirst.adds.known henter.known)
    have hfirst' : statement first (s.withScopes ([] :: s.scopes)) = ((), s.withScopes Γ₁) :=
      hfirst.statement_eq (s := s.withScopes ([] :: s.scopes)) henter
    have hcond' := hcond.condition_eq (s := s.withScopes Γ₁)
    have hstep' := hstep.expression_eq (s := s.withScopes Γ₁)
    have hscopes : TypedAll N ret loop ([] :: s.scopes) [first] Γ₁ :=
      .cons loop _ _ _ first [] hfirst (.nil loop Γ₁)
    match i with
    | 0 =>
      cases hc
      cases hpart
      exact ⟨.statement ret loop c Γ₁ henter hfirst, .nil loop _⟩
    | 1 =>
      cases hc
      have hahead : ahead ⟨.forLoop, "For", false, loc, [first, c, step, b]⟩ 1 s =
          ((), s.withScopes Γ₁) := hfirst'
      rw [hahead]
      cases hcond with
      | omitted => cases hpart
      | expr _ hcond =>
        cases hcond.part?_eq hpart
        exact ⟨found hready hcond, hscopes⟩
    | 2 =>
      cases hc
      have hahead : ahead ⟨.forLoop, "For", false, loc, [first, cond, c, b]⟩ 2 s =
          ((), s.withScopes Γ₁) := by
        show (statement first >>= fun _ => condition .forLoop cond)
          (s.withScopes ([] :: s.scopes)) = _
        exact (bind_of_eq hfirst' _).trans hcond'
      rw [hahead]
      cases hstep with
      | omitted => cases hpart
      | expr _ _ hstep =>
        cases hstep.part?_eq hpart
        exact ⟨found hready hstep, hscopes⟩
    | 3 =>
      cases hc
      cases hpart
      have hahead : ahead ⟨.forLoop, "For", false, loc, [first, cond, step, c]⟩ 3 s =
          ((), (s.withScopes Γ₁).inLoop) := by
        show (do
          statement first
          condition .forLoop cond
          discard (expression step)
          modify State.inLoop : Checker Unit) (s.withScopes ([] :: s.scopes)) = _
        exact (bind_of_eq hfirst' _).trans ((bind_of_eq hcond' _).trans (bind_of_eq hstep' _))
      rw [hahead]
      exact ⟨body hready.inLoop hb, hscopes⟩
    | _ + 4 => cases hc

theorem TypedParams.take {ps : List Tree} (h : TypedParams N Γ ps Γ') (i : Nat) :
    ∃ Γ₁, TypedParams N Γ (ps.take i) Γ₁ ∧ (i = ps.length → Γ₁ = Γ') := by
  induction h generalizing i with
  | nil Γ =>
    rw [take_nil]
    exact ⟨Γ, .nil Γ, fun _ => rfl⟩
  | cons Γ Γ' Γ'' x isArray loc ty ps hx hty hd _ ih =>
    cases i with
    | zero => exact ⟨Γ, .nil Γ, fun h => absurd h (Nat.succ_ne_zero _).symm⟩
    | succ i =>
      obtain ⟨Γ₁, htake, hall⟩ := ih i
      exact ⟨Γ₁, .cons Γ Γ' Γ₁ x isArray loc ty _ hx hty hd htake, fun h => hall (Nat.succ.inj h)⟩

theorem parameters_before {ty body : Tree} {ps : List Tree} (hty : ty.kind = .typeName)
    (hps : ∀ p ∈ ps, p.kind = .parameter) (hc : (ps ++ [body])[i]? = some c) : i ≤ ps.length ∧
    (ty :: (ps ++ [body])).take (i + 1) = ty :: ps.take i ∧
      parametersOf (ty :: ps.take i) = ps.take i := by
  have hle : i ≤ ps.length := by
    have hlt := (List.getElem?_eq_some_iff.mp hc).1
    rw [length_append, length_singleton] at hlt
    omega
  refine ⟨hle, by rw [take_succ_cons, take_append_of_le_length hle], ?_⟩
  rw [parametersOf, filter_cons_of_neg (by simp [hty]), filter_eq_self]
  intro p hp
  rw [hps p (mem_of_mem_take hp)]
  rfl

theorem TypedFunction.step (h : TypedFunction N s.scopes t) (hs : s.Outside)
    (hc : t.children[i]? = some c) (hpart : part? t.kind i c = some part) :
    TypedPart N (ahead t i s).2 part c ∧
      TypedParams N ([] :: s.scopes) (t.children.take i).tail (ahead t i s).2.scopes := by
  obtain ⟨f, loc, ty, ps, body, Γ', -, hty, hps, hbody⟩ := h
  have hready := (hs.enterFunction hty).withScopes hs.ready.known.enter
  have hblock := hbody.kind_eq
  match i with
  | 0 =>
    cases hc
    rw [part?, kind_of_isValue hty] at hpart
    cases hpart
  | i + 1 =>
    rw [getElem?_cons_succ] at hc
    obtain ⟨hle, htake, hof⟩ := parameters_before (kind_of_isValue hty) hps.kind_eq hc
    obtain ⟨Γ₁, hparams, hall⟩ := hps.take i
    have hahead : ahead ⟨.function, f, false, loc, ty :: (ps ++ [body])⟩ (i + 1) s =
        ((), (s.enterFunction (.ofTree ty)).withScopes Γ₁) := by
      show (parametersOf ((ty :: (ps ++ [body])).take (i + 1))).forM
        (fun p => declareVar p (parameterTy p))
        ((s.enterFunction (.ofTree ty)).withScopes ([] :: s.scopes)) = _
      rw [htake, hof]
      exact hparams.declareVars_eq (s := (s.enterFunction (.ofTree ty)).withScopes ([] :: s.scopes))
    rw [hahead]
    refine ⟨?_, by rw [htake]; exact hparams⟩
    rcases Nat.lt_or_eq_of_le hle with hi | rfl
    · -- a parameter
      rw [getElem?_append_left hi] at hc
      have hk := hps.kind_eq c (mem_of_getElem? hc)
      rw [part?, hk] at hpart
      cases hpart
      exact .parameter c hk
    · -- the body, behind all parameters
      rw [getElem?_append_right (Nat.le_refl _), Nat.sub_self] at hc
      cases hc
      rw [part?, hblock] at hpart
      cases hpart
      obtain rfl : Γ₁ = Γ' := hall rfl
      exact .statement (some (.ofTree ty)) false c Γ₁
        (hready.withScopes (hps.adds.known hready.known))
        (.block false Γ₁ c hbody)

theorem TypedBranches.step (h : TypedBranches N ret loop s.scopes [t]) (hs : s.Ready ret loop)
    (hc : t.children[i]? = some c) (hpart : part? t.kind i c = some part) :
    TypedPart N (ahead t i s).2 part c ∧
    ScopesAhead N ret loop s.scopes t i (ahead t i s).2.scopes := by
  cases h with
  | last _ _ _ hbody => exact (Typed.block loop s.scopes t hbody).step hs hc hpart
  | elseIf _ _ loc cond body _ hcond hbody =>
    match i with
    | 0 =>
      cases hc
      cases hpart
      exact ⟨.expression ret loop c .int hs hcond, rfl⟩
    | 1 =>
      cases hc
      cases hpart
      have hahead : ahead ⟨.elseIf, "ElseIf", false, loc, [cond, c]⟩ 1 s = ((), s) := by
        refine (bind_of_eq (hcond.condition_eq _) _).trans ?_
        unfold statements
        rfl
      rw [hahead]
      exact ⟨.statement ret loop c s.scopes hs (.block loop s.scopes c hbody), rfl⟩
    | _ + 2 => cases hc

/-- **The parts of a typed part are typed** in the states in which they are checked. -/
theorem TypedPart.step {part' : Tree.Part} (h : TypedPart N s part t) (hc : t.children[i]? = some c)
    (hpart : part? t.kind i c = some part') : TypedPart N (ahead t i s).2 part' c := by
  cases h with
  | program _ Γ hs hk hfunctions hitems =>
    obtain ⟨kind, text, isArray, loc, children⟩ := t
    cases hk
    cases hpart
    show TypedPart N
      (((children.filter fun c => c.kind == .function).forM declareFunction >>= fun _ =>
        (children.take i).forM Checker.item) s).2 .item c
    rw [bind_of_eq hfunctions.declareFunctions_eq]
    exact TypedItems.split (s := s.withScopes Γ) hitems
      (hs.withScopes (hitems.known hfunctions hs.ready.known)) hc
  | function _ hs ht => exact (ht.step hs hc hpart).1
  | item _ Γ hs _ ht => exact (ht.step hs.ready hc hpart).1
  | parameter _ hk =>
    rw [hk] at hpart
    cases hpart
  | statement ret loop _ Γ hs ht => exact (ht.step hs hc hpart).1
  | branch ret loop _ hs ht => exact (ht.step hs hc hpart).1
  | declarator ret loop ty _ Γ hs _ hd =>
    cases hd with
    | plain => cases hc
    | initial _ _ _ _ _ _ he | array _ _ _ _ _ he =>
      match i with
      | 0 =>
        cases hc
        cases hpart
        exact .expression ret loop c _ hs he
      | _ + 1 => cases hc
  | expression ret loop _ ty hs he =>
    obtain ⟨hahead, hc⟩ := he.step (N := N) hs hc hpart
    rw [hahead]
    exact hc

theorem TypedPart.kind_ne (h : TypedPart N s part t) (hpart : part.IsInner) :
    t.kind ≠ .program ∧ t.kind ≠ .function := by
  cases h with
  | program => exact absurd rfl hpart.1
  | function | item => exact absurd rfl hpart.2
  | parameter _ hk =>
    rw [hk]
    exact ⟨nofun, nofun⟩
  | statement _ _ _ _ _ ht =>
    cases ht with
    | block _ _ _ hb =>
      obtain ⟨⟩ := hb
      exact ⟨nofun, nofun⟩
    | _ => exact ⟨nofun, nofun⟩
  | branch _ _ _ _ ht =>
    cases ht with
    | last _ _ _ hb =>
      obtain ⟨⟩ := hb
      exact ⟨nofun, nofun⟩
    | elseIf => exact ⟨nofun, nofun⟩
  | declarator _ _ _ _ _ _ _ hd => cases hd <;> exact ⟨nofun, nofun⟩
  | expression _ _ _ _ _ he => cases he <;> exact ⟨nofun, nofun⟩

theorem TypedPart.typedFunction (h : TypedPart N s part t) (hk : t.kind = .function) :
    s.Outside ∧ TypedFunction N s.scopes t := by
  by_cases hpart : part.IsInner
  · exact absurd hk (h.kind_ne hpart).2
  · cases h with
    | program _ _ _ hk' => exact absurd (hk.symm.trans hk') nofun
    | function _ hs ht => exact ⟨hs, ht⟩
    | item _ _ _ hne => exact absurd hk hne
    | _ => exact absurd ⟨nofun, nofun⟩ hpart

theorem TypedFunction.part_cases (h : TypedFunction N Γ t) (hc : t.children[i]? = some c)
    (hpart : part? t.kind i c = some part) :
    (part = .parameter ∧ c.kind = .parameter ∨ part = .statement ∧ c.kind = .block ∧
      parametersOf t.children = (t.children.take i).tail) ∧
    parametersOf (t.children.take i) = (t.children.take i).tail := by
  obtain ⟨f, loc, ty, ps, body, Γ', -, hty, hps, hbody⟩ := h
  have hblock := hbody.kind_eq
  have hk := kind_of_isValue hty
  match i with
  | 0 =>
    cases hc
    rw [part?, hk] at hpart
    cases hpart
  | i + 1 =>
    rw [getElem?_cons_succ] at hc
    obtain ⟨hle, htake, hof⟩ := parameters_before (kind_of_isValue hty) hps.kind_eq hc
    rw [htake]
    refine ⟨?_, hof⟩
    rcases Nat.lt_or_eq_of_le hle with hi | rfl
    · rw [getElem?_append_left hi] at hc
      have hkind := hps.kind_eq c (mem_of_getElem? hc)
      rw [part?, hkind] at hpart
      cases hpart
      exact .inl ⟨rfl, hkind⟩
    · rw [getElem?_append_right (Nat.le_refl _), Nat.sub_self] at hc
      cases hc
      rw [part?, hblock] at hpart
      cases hpart
      refine .inr ⟨rfl, hblock, ?_⟩
      rw [parametersOf_function hk hps.kind_eq hblock, take_length]
      rfl

end Step

/-- **Every part of a typed part is typed** in the state in which it is checked. -/
theorem TypedPart.reach {part' : Tree.Part} {u : Tree} {s : Checker.State}
    (h : TypedPart N s part t) (hp : partAt? p part t = some (part', u)) :
    TypedPart N (Checker.reach p t s).2 part' u := by
  induction p generalizing part t s with
  | nil =>
    cases hp
    exact h
  | cons i p ih =>
    obtain ⟨c, part₁, hc, hpart, hp⟩ := partAt?_cons hp
    rw [reach_cons hc]
    exact ih (h.step hc hpart) hp

/-- The tree of a typed program. -/
structure TypedTree (N : String → Prop) (t : Tree) : Prop where
  kind_eq : t.kind = .program
  typed : TypedProgram N t

/-- The function with number `k` of a typed program. -/
structure FunctionIn (N : String → Prop) (t : Tree) (k : Nat) (c : Tree) : Prop extends
    TypedTree N t where
  child_eq : t.children[k]? = some c
  isFunction : c.kind = .function

theorem TypedTree.typedPart (h : TypedTree N t) : TypedPart N .start .program t := by
  obtain ⟨hk, Γ, hfunctions, hitems⟩ := h
  exact .program t Γ State.start_outside hk hfunctions hitems

/-- **Every part of a typed program is typed** in the state in which it is checked. -/
theorem TypedTree.reach (h : TypedTree N t) (hp : partAt? p .program t = some (part, u)) :
    TypedPart N (t.checkedAt p) part u :=
  h.typedPart.reach hp

theorem FunctionIn.at_item (h : FunctionIn N t i c) : partAt? [i] .program t = some (.item, c) :=
  partAt?_item h.kind_eq h.child_eq

theorem Tree.expressionAt?_eq_some (h : t.expressionAt? p = some e) :
    partAt? p .program t = some (.expression, e) := by
  unfold expressionAt? at h
  split at h
  · next heq =>
    cases h
    exact heq
  · cases h

theorem TypedTree.hasType_expressionAt (h : TypedTree N t) (he : t.expressionAt? p = some e) :
    (t.checkedAt p).scopes.Known ∧
    HasType (t.checkedAt p).scopes e (expression e (t.checkedAt p)).1 := by
  cases h.reach (expressionAt?_eq_some he) with
  | expression ret loop _ ty hs hty =>
    rw [show expression e (t.checkedAt p) = (ty, t.checkedAt p) from hty.expression_eq]
    exact ⟨hs.known, hty⟩

theorem parse_kind (source : String) : (parse source).1.kind = .program := rfl

theorem compile_typedTree {source : String} {program : Program} (h : compile source = .ok program) :
    TypedTree IsName (parse source).1 ∧ program = (parse source).1.lower :=
  (compile_typed h).imp_left fun ht => ⟨parse_kind source, ht⟩

/-- **The check of a source text decides whether it is typed.** It finds no errors if and only if
there is a derivation in the typing rules, with the rules for stored values and for operands written
out. An expression gets the type `unknown` only if there are errors, so that nothing is left
unchecked in a source without errors. -/
theorem parse_typeErrors_eq_empty_iff (source : String) :
    ((parse source).1.typeErrors = #[] ↔ TypedProgram IsName (parse source).1) ∧
    (∀ ty ty' : Ty, ty.accepts ty' = true ↔ ty' = ty ∨ (ty' = .int ∧ ty = .double)) ∧
    (∀ op ty ty', unaryTy op ty = .ok ty' ↔ UnaryRule op ty ty') ∧
    (∀ op l r ty, binaryTy op l r = .ok ty ↔ BinaryRule op l r ty) ∧
    ∀ p e, (parse source).1.expressionAt? p = some e →
      (Checker.expression e ((parse source).1.checkedAt p)).1 = .unknown →
      (parse source).1.typeErrors ≠ #[] := by
  have hiff : (parse source).1.typeErrors = #[] ↔ TypedProgram IsName (parse source).1 :=
    Checker.typeErrors_eq_empty_iff (parse_isItem standIns_source (Token.scan_fits source))
  refine ⟨hiff, fun _ _ => accepts_iff, fun _ _ _ => unaryTy_eq_ok_iff,
    fun _ _ _ _ => binaryTy_eq_ok_iff, ?_⟩
  intro p e he hunknown herrors
  have ht : TypedTree IsName (parse source).1 := ⟨parse_kind source, hiff.mp herrors⟩
  obtain ⟨hknown, hty⟩ := ht.hasType_expressionAt he
  exact hty.ne_unknown hknown hunknown

/-- A source text with a name that is not declared. -/
def undeclaredName : String := "fn int main() { int y = 2; return y + x; }"

/-- The sum has the type `unknown` without an error of its own. -/
theorem undeclaredName_typeErrors_ne_empty :
    (((parse undeclaredName).1.expressionAt? [0, 1, 1, 0]).map fun e =>
      (Checker.expression e ((parse undeclaredName).1.checkedAt [0, 1, 1, 0])).1) = some .unknown ∧
    (parse undeclaredName).1.typeErrors ≠ #[] := by
  have hunknown : (((parse undeclaredName).1.expressionAt? [0, 1, 1, 0]).map fun e =>
      (Checker.expression e ((parse undeclaredName).1.checkedAt [0, 1, 1, 0])).1) =
          some .unknown := by
    rw [parse_ofList undeclaredName rfl]
    decide +kernel
  obtain ⟨e, he, hty⟩ := Option.map_eq_some_iff.mp hunknown
  exact ⟨hunknown, (parse_typeErrors_eq_empty_iff undeclaredName).2.2.2.2 _ e he hty⟩

end Stacklet
