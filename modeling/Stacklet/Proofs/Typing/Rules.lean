import Stacklet.Proofs.Shape
import Stacklet.Typing.Expression
/-!
# Typing rules

The rules of typing as relations, without `unknown` and without errors.

* `HasType`, `HasArgs`: the type of an expression in given scopes, and arguments that fit the
  parameters of a function.
* `Typed`, `TypedBlock`, `TypedAll`, `TypedBranches`: statements, and the scopes behind them. They
  depend on the type that is returned and on whether a loop is around.
* `TypedFunction`, `TypedItems`, `TypedProgram`: functions and programs. Declared names have texts
  in `N`.
* `Scopes.Known`: no name in scope has an error. `HasType.ne_unknown`: then no expression has one
  either.
* `Scopes.Adds`: statements only add variables (`Typed.adds`).
-/

namespace Stacklet

open List

variable {ps : List Tree} {Γ Γ' : Scopes} {x : String} {t : Tree} {ty ty' : Ty}

/-- The types that variables have. -/
def Ty.IsValue (ty : Ty) : Prop := ty ≠ .void ∧ ty ≠ .unknown

/-- The type of a number literal. -/
def literalTy (text : String) : Ty := if isDoubleLiteral text then .double else .int

/-- A name as an expression. -/
def Tree.nameAt (x : String) (loc : Loc) : Tree := { kind := .identifier, text := x, loc }

/-- Only arrays and strings have items. Items of items are not looked at. -/
def Indexable (Γ : Scopes) (base : Tree) : Prop :=
  base.kind = .identifier → ∀ ty, Γ.lookup? base.text = some (.var ty false) → ty = .string

/-- A name stands for an array if and only if one is wanted. -/
def HasShape (Γ : Scopes) (arg : Tree) (wantsArray : Bool) : Prop :=
  arg.kind = .identifier → ∀ ty isArray, Γ.lookup? arg.text = some (.var ty isArray) →
    isArray = wantsArray

mutual

/-- The type of an expression. -/
inductive HasType (Γ : Scopes) : Tree → Ty → Prop
  | number (text : String) (loc : Loc) : HasType Γ { kind := .number, text, loc } (literalTy text)
  | string (text : String) (loc : Loc) : HasType Γ { kind := .string, text, loc } .string
  | var (x : String) (loc : Loc) (ty : Ty) (isArray : Bool) : Γ.lookup? x = some (.var ty isArray) →
    HasType Γ (.nameAt x loc) ty
  | unary (op : String) (loc : Loc) (e : Tree) (ty ty' : Ty) : HasType Γ e ty →
      unaryTy op ty = .ok ty' →
    HasType Γ { kind := .unary, text := op, loc, children := [e] } ty'
  | binary (op : String) (loc : Loc) (l r : Tree) (ty ty' ty'' : Ty) : HasType Γ l ty →
      HasType Γ r ty' →
    binaryTy op ty ty' = .ok ty'' →
    HasType Γ { kind := .binary, text := op, loc, children := [l, r] } ty''
  | comma (loc : Loc) (l r : Tree) (ty ty' : Ty) : HasType Γ l ty → HasType Γ r ty' →
    HasType Γ { kind := .comma, text := ",", loc, children := [l, r] } ty'
  | assign (loc loc' : Loc) (x : String) (value : Tree) (ty ty' : Ty) (isArray : Bool) :
    Γ.lookup? x = some (.var ty isArray) → HasType Γ value ty' → ty.accepts ty' →
    HasType Γ { kind := .assign, text := "=", loc, children := [.nameAt x loc', value] } ty
  | assignItem (loc loc' loc'' : Loc) (x : String) (i value : Tree) (ty ty' : Ty) :
    Γ.lookup? x = some (.var ty true) → HasType Γ i .int → HasType Γ value ty' → ty.accepts ty' →
    HasType Γ { kind := .assign, text := "=", loc, children :=
      [{ kind := .index, text := "Index", loc := loc', children := [.nameAt x loc'', i] }, value] }
        ty
  | call (loc loc' : Loc) (f : String) (args : List Tree) (ty : Ty) (params : List (Ty × Bool)) :
    Γ.lookup? f = some (.function ty params) → HasArgs Γ params args →
    HasType Γ { kind := .call, text := "Call", loc, children := .nameAt f loc' :: args } ty
  | index (loc : Loc) (base i : Tree) (ty : Ty) : HasType Γ base ty → isSuffixable base.kind →
    HasType Γ i .int → Indexable Γ base →
    HasType Γ { kind := .index, text := "Index", loc, children := [base, i] } ty

/-- Arguments that fit parameters. -/
inductive HasArgs (Γ : Scopes) : List (Ty × Bool) → List Tree → Prop
  | nil : HasArgs Γ [] []
  | cons (ty ty' : Ty) (isArray : Bool) (params : List (Ty × Bool)) (arg : Tree)
      (args : List Tree) :
    HasType Γ arg ty' → ty.accepts ty' → HasShape Γ arg isArray → HasArgs Γ params args →
    HasArgs Γ ((ty, isArray) :: params) (arg :: args)

end

variable (N : String → Prop)

/-- A declared name, its initial value or size, and the scopes behind it. -/
inductive Declares (ty : Ty) (Γ : Scopes) : Tree → Scopes → Prop
  | plain (x : String) (loc : Loc) (Γ' : Scopes) : N x → Γ.declare? x (.var ty false) = some Γ' →
    Declares ty Γ { kind := .declarator, text := x, loc } Γ'
  | initial (x : String) (loc : Loc) (e : Tree) (ty' : Ty) (Γ' : Scopes) : N x → HasType Γ e ty' →
    ty.accepts ty' → Γ.declare? x (.var ty false) = some Γ' →
    Declares ty Γ { kind := .declarator, text := x, loc, children := [e] } Γ'
  | array (x : String) (loc : Loc) (e : Tree) (Γ' : Scopes) : N x → HasType Γ e .int →
    Γ.declare? x (.var ty true) = some Γ' →
    Declares ty Γ { kind := .declarator, text := x, isArray := true, loc, children := [e] } Γ'

inductive DeclaresAll (ty : Ty) : Scopes → List Tree → Scopes → Prop
  | nil (Γ : Scopes) : DeclaresAll ty Γ [] Γ
  | cons (Γ Γ' Γ'' : Scopes) (d : Tree) (ds : List Tree) : Declares N ty Γ d Γ' →
      DeclaresAll ty Γ' ds Γ'' →
    DeclaresAll ty Γ (d :: ds) Γ''

/-- A condition of a `for` loop, which may be left out. -/
inductive OptionalInt (Γ : Scopes) : Tree → Prop
  | omitted (loc : Loc) : OptionalInt Γ (.omitted loc)
  | expr (e : Tree) : HasType Γ e .int → OptionalInt Γ e

/-- A step of a `for` loop, which may be left out. -/
inductive OptionalExpr (Γ : Scopes) : Tree → Prop
  | omitted (loc : Loc) : OptionalExpr Γ (.omitted loc)
  | expr (e : Tree) (ty : Ty) : HasType Γ e ty → OptionalExpr Γ e

mutual

/-- A statement and the scopes behind it, given the type to return and whether a loop is around. -/
inductive Typed (ret : Option Ty) : Bool → Scopes → Tree → Scopes → Prop
  | omitted (loop : Bool) (Γ : Scopes) (loc : Loc) : Typed ret loop Γ (.omitted loc) Γ
  | block (loop : Bool) (Γ : Scopes) (t : Tree) : TypedBlock ret loop Γ t → Typed ret loop Γ t Γ
  | declaration (loop : Bool) (Γ Γ' : Scopes) (loc : Loc) (ty : Tree) (ds : List Tree) :
    (Ty.ofTree ty).IsValue → DeclaresAll N (.ofTree ty) Γ ds Γ' →
    Typed ret loop Γ { kind := .declaration, text := "VarDeclList", loc, children := ty :: ds } Γ'
  | exprStmt (loop : Bool) (Γ : Scopes) (loc : Loc) (e : Tree) (ty : Ty) : HasType Γ e ty →
    Typed ret loop Γ { kind := .exprStmt, text := "ExprStmt", loc, children := [e] } Γ
  | returnStmt (loop : Bool) (Γ : Scopes) (loc : Loc) (e : Tree) (ty ty' : Ty) : ret = some ty →
    HasType Γ e ty' → ty.accepts ty' →
    Typed ret loop Γ { kind := .returnStmt, text := "Return", loc, children := [e] } Γ
  | breakStmt (Γ : Scopes) (loc : Loc) :
      Typed ret true Γ { kind := .breakStmt, text := "Break", loc } Γ
  | continueStmt (Γ : Scopes) (loc : Loc) :
    Typed ret true Γ { kind := .continueStmt, text := "Continue", loc } Γ
  | conditional (loop : Bool) (Γ : Scopes) (loc : Loc) (c body : Tree) (rest : List Tree) :
    HasType Γ c .int → TypedBlock ret loop Γ body → TypedBranches ret loop Γ rest →
    Typed ret loop Γ { kind := .conditional, text := "If", loc, children := c :: body :: rest } Γ
  | whileLoop (loop : Bool) (Γ : Scopes) (loc : Loc) (c body : Tree) : HasType Γ c .int →
    TypedBlock ret true Γ body →
    Typed ret loop Γ { kind := .whileLoop, text := "While", loc, children := [c, body] } Γ
  | doWhile (loop : Bool) (Γ : Scopes) (loc : Loc) (body c : Tree) : TypedBlock ret true Γ body →
    HasType Γ c .int →
    Typed ret loop Γ { kind := .doWhile, text := "DoWhile", loc, children := [body, c] } Γ
  | forLoop (loop : Bool) (Γ Γ' : Scopes) (loc : Loc) (first c step body : Tree) :
    Typed ret loop ([] :: Γ) first Γ' → OptionalInt Γ' c → OptionalExpr Γ' step →
    TypedBlock ret true Γ' body →
    Typed ret loop Γ { kind := .forLoop, text := "For", loc, children := [first, c, step, body] } Γ

/-- A block, whose names are not visible behind it. -/
inductive TypedBlock (ret : Option Ty) : Bool → Scopes → Tree → Prop
  | mk (loop : Bool) (Γ Γ' : Scopes) (loc : Loc) (ts : List Tree) :
      TypedAll ret loop ([] :: Γ) ts Γ' →
    TypedBlock ret loop Γ { kind := .block, text := "Block", loc, children := ts }

inductive TypedAll (ret : Option Ty) : Bool → Scopes → List Tree → Scopes → Prop
  | nil (loop : Bool) (Γ : Scopes) : TypedAll ret loop Γ [] Γ
  | cons (loop : Bool) (Γ Γ' Γ'' : Scopes) (t : Tree) (ts : List Tree) : Typed ret loop Γ t Γ' →
    TypedAll ret loop Γ' ts Γ'' → TypedAll ret loop Γ (t :: ts) Γ''

/-- What stands behind the first block of a conditional. -/
inductive TypedBranches (ret : Option Ty) : Bool → Scopes → List Tree → Prop
  | nil (loop : Bool) (Γ : Scopes) : TypedBranches ret loop Γ []
  | last (loop : Bool) (Γ : Scopes) (body : Tree) : TypedBlock ret loop Γ body →
    TypedBranches ret loop Γ [body]
  | elseIf (loop : Bool) (Γ : Scopes) (loc : Loc) (c body : Tree) (ts : List Tree) :
      HasType Γ c .int →
    TypedBlock ret loop Γ body → TypedBranches ret loop Γ ts →
    TypedBranches ret loop Γ ({ kind := .elseIf, text := "ElseIf", loc, children := [c, body] } ::
      ts)

end

inductive TypedParams : Scopes → List Tree → Scopes → Prop
  | nil (Γ : Scopes) : TypedParams Γ [] Γ
  | cons (Γ Γ' Γ'' : Scopes) (x : String) (isArray : Bool) (loc : Loc) (ty : Tree)
      (ps : List Tree) : N x →
    (Ty.ofTree ty).IsValue → Γ.declare? x (.var (.ofTree ty) isArray) = some Γ' →
      TypedParams Γ' ps Γ'' →
    TypedParams Γ ({ kind := .parameter, text := x, isArray, loc, children := [ty] } :: ps) Γ''

/-- A function. Its parameters stand in a scope of their own around its body. -/
inductive TypedFunction (Γ : Scopes) : Tree → Prop
  | mk (f : String) (loc : Loc) (ty : Tree) (ps : List Tree) (body : Tree) (Γ' : Scopes) : N f →
    (Ty.ofTree ty).IsValue → TypedParams N ([] :: Γ) ps Γ' →
    TypedBlock N (some (.ofTree ty)) false Γ' body →
    TypedFunction Γ { kind := .function, text := f, loc, children := ty :: (ps ++ [body]) }

inductive TypedItems : Scopes → List Tree → Prop
  | nil (Γ : Scopes) : TypedItems Γ []
  | function (Γ : Scopes) (t : Tree) (ts : List Tree) : TypedFunction N Γ t → TypedItems Γ ts →
    TypedItems Γ (t :: ts)
  | stmt (Γ Γ' : Scopes) (t : Tree) (ts : List Tree) : t.kind ≠ .function →
      Typed N none false Γ t Γ' →
    TypedItems Γ' ts → TypedItems Γ (t :: ts)

inductive DeclaresFunctions : Scopes → List Tree → Scopes → Prop
  | nil (Γ : Scopes) : DeclaresFunctions Γ [] Γ
  | cons (Γ Γ' Γ'' : Scopes) (f : Tree) (fs : List Tree) :
    Γ.declare? f.text (.ofChildren f.children) = some Γ' → DeclaresFunctions Γ' fs Γ'' →
    DeclaresFunctions Γ (f :: fs) Γ''

/-- A program. All functions are declared before anything else is looked at. -/
def TypedProgram (t : Tree) : Prop :=
  ∃ Γ, DeclaresFunctions [Scopes.builtins] (t.children.filter fun c => c.kind == .function) Γ ∧
    TypedItems N Γ t.children

/-! ## The parts of expressions and functions -/

variable {N}

theorem HasArgs.length_eq {params : List (Ty × Bool)} {args : List Tree} : HasArgs Γ params args →
    args.length = params.length
  | .nil => rfl
  | .cons _ _ _ _ _ _ _ _ _ hargs => congrArg (· + 1) hargs.length_eq

theorem HasType.kind_ne_empty {e : Tree} (h : HasType Γ e ty) : e.kind ≠ .empty := by
  cases h <;> exact nofun

theorem TypedBlock.kind_eq {ret : Option Ty} {loop : Bool} (h : TypedBlock N ret loop Γ t) :
    t.kind = .block := by
  obtain ⟨⟩ := h
  rfl

theorem parametersOf_function {ty body : Tree} (hty : ty.kind = .typeName)
    (hps : ∀ p ∈ ps, p.kind = .parameter) (hbody : body.kind = .block) :
    parametersOf (ty :: (ps ++ [body])) = ps := by
  have hall : ps.filter (fun c => c.kind == .parameter) = ps := by
    rw [filter_eq_self]
    intro p hp
    rw [hps p hp]
    rfl
  simp [parametersOf, hty, hbody, hall]

theorem bodyOf?_function (ty : Tree) {body : Tree} (ps : List Tree) (hbody : body.kind = .block) :
    bodyOf? (ty :: (ps ++ [body])) = some body := by
  rw [bodyOf?, ← cons_append, getLast?_concat]
  simp [hbody]

theorem kind_of_isValue (h : (Ty.ofTree t).IsValue) : t.kind = .typeName := by
  by_cases hk : t.kind = .typeName
  · exact hk
  · exact absurd (if_neg hk) h.2

/-! ## Scopes without errors -/

/-- What a name without errors stands for. -/
def Entry.Known : Entry → Prop
  | .var ty _ => ty.IsValue
  | .function ty params => ty ≠ .unknown ∧ ∀ p ∈ params, p.1.IsValue

/-- Scopes in which no name has an error. -/
def Scopes.Known (Γ : Scopes) : Prop := ∀ x e, Γ.lookup? x = some e → e.Known

/-- Scopes without variables. -/
def Scopes.FunctionsOnly (Γ : Scopes) : Prop :=
  ∀ x e, Γ.lookup? x = some e → ∃ ty params, e = .function ty params

theorem isValue_of_isNumeric (h : ty.isNumeric) : ty.IsValue := by
  cases ty <;> first | exact ⟨Ty.noConfusion, Ty.noConfusion⟩ | cases h

theorem unaryTy_isValue {op : String} (h : unaryTy op ty = .ok ty') : ty.IsValue ∧ ty'.IsValue := by
  unfold unaryTy at h
  split at h
  · cases h
  · next hnum =>
    cases h
    have hty := isValue_of_isNumeric (by simpa using hnum)
    refine ⟨hty, ?_⟩
    split
    · exact ⟨Ty.noConfusion, Ty.noConfusion⟩
    · exact hty

theorem binaryTy_isValue {op : String} {ty'' : Ty} (h : binaryTy op ty ty' = .ok ty'') :
    ty.IsValue ∧ ty'.IsValue ∧ ty''.IsValue := by
  have hnum (h : ty.isNumeric && ty'.isNumeric) : ty.IsValue ∧ ty'.IsValue := by
    rw [Bool.and_eq_true] at h
    exact ⟨isValue_of_isNumeric h.1, isValue_of_isNumeric h.2⟩
  have hstr (h : ty == .string && ty' == .string) : ty.IsValue ∧ ty'.IsValue := by
    rw [Bool.and_eq_true, beq_iff_eq, beq_iff_eq] at h
    rw [h.1, h.2]
    exact ⟨⟨Ty.noConfusion, Ty.noConfusion⟩, Ty.noConfusion, Ty.noConfusion⟩
  have both : (ty.IsValue ∧ ty'.IsValue) ∧ ty''.IsValue := by
    unfold binaryTy at h
    dsimp only at h
    split at h
    · split at h
      · next hok =>
        cases h
        refine ⟨?_, Ty.noConfusion, Ty.noConfusion⟩
        rcases Bool.or_eq_true_iff.mp hok with hok | hok
        · exact hnum hok
        · exact hstr (Bool.and_eq_true_iff.mp hok).1
      · cases h
    · split at h
      · next hok =>
        cases h
        exact ⟨hstr (Bool.and_eq_true_iff.mp hok).1, Ty.noConfusion, Ty.noConfusion⟩
      · split at h
        · next hok =>
          cases h
          refine ⟨hnum hok, ?_⟩
          split <;> exact ⟨Ty.noConfusion, Ty.noConfusion⟩
        · cases h
  exact ⟨both.1.1, both.1.2, both.2⟩

theorem isValue_of_accepts (h : ty.accepts ty') (hty : ty.IsValue) : ty'.IsValue := by
  unfold Ty.accepts at h
  rw [Bool.or_eq_true, beq_iff_eq, Bool.and_eq_true, beq_iff_eq, beq_iff_eq] at h
  rcases h with rfl | ⟨-, rfl⟩
  · exact hty
  · exact ⟨Ty.noConfusion, Ty.noConfusion⟩

/-- **Typed expressions have no errors.** -/
theorem HasType.ne_unknown (hΓ : Γ.Known) {t : Tree} {ty : Ty} : HasType Γ t ty → ty ≠ .unknown
  | .number text _ => by
    unfold literalTy
    split <;> exact Ty.noConfusion
  | .string .. => Ty.noConfusion
  | .var x _ _ _ hx => (hΓ x _ hx).2
  | .unary _ _ _ _ _ _ hty => (unaryTy_isValue hty).2.2
  | .binary _ _ _ _ _ _ _ _ _ hty => (binaryTy_isValue hty).2.2.2
  | .comma _ _ _ _ _ _ hr => hr.ne_unknown hΓ
  | .assign _ _ x _ _ _ _ hx _ _ => (hΓ x _ hx).2
  | .assignItem _ _ _ x _ _ _ _ hx _ _ _ => (hΓ x _ hx).2
  | .call _ _ f _ _ _ hf _ => (hΓ f _ hf).1
  | .index _ _ _ _ hbase _ _ _ => hbase.ne_unknown hΓ

theorem Scopes.lookup?_declare? {e : Entry} (h : Γ.declare? x e = some Γ')
    (y : String) : Γ'.lookup? y = if y = x then some e else Γ.lookup? y := by
  unfold Scopes.declare? at h
  cases Γ with
  | nil => cases h
  | cons s Γ =>
    dsimp only at h
    split at h
    · cases h
    · cases h
      by_cases hy : y = x
      · simp [Scopes.lookup?, hy]
      · simp [Scopes.lookup?, findSome?_cons, lookup_cons, beq_eq_false_iff_ne.mpr hy, hy]

theorem Scopes.Known.declare {e : Entry} (hΓ : Γ.Known) (h : Γ.declare? x e = some Γ')
    (he : e.Known) : Γ'.Known := by
  intro y e' hy
  rw [Scopes.lookup?_declare? h] at hy
  split at hy
  · cases hy
    exact he
  · exact hΓ y e' hy

theorem Scopes.Known.enter (hΓ : Γ.Known) : Scopes.Known ([] :: Γ) := hΓ

/-! ## Scopes with more variables -/

/-- Scopes in which new names are only those of variables. -/
def Scopes.Adds (Γ Γ' : Scopes) : Prop :=
  ∀ x e, Γ'.lookup? x = some e → Γ.lookup? x = some e ∨ ∃ ty isArray, e = .var ty isArray ∧
    ty.IsValue

namespace Scopes.Adds

variable {Γ Γ' Γ'' : Scopes}

theorem refl (Γ : Scopes) : Γ.Adds Γ := fun _ _ h => .inl h

theorem trans (h : Γ.Adds Γ') (h' : Γ'.Adds Γ'') : Γ.Adds Γ'' := by
  intro x e hx
  rcases h' x e hx with hx | hx
  · exact h x e hx
  · exact .inr hx

theorem declare {isArray : Bool} (h : Γ.declare? x (.var ty isArray) = some Γ') (hty : ty.IsValue) :
    Γ.Adds Γ' := by
  intro y e hy
  rw [Scopes.lookup?_declare? h] at hy
  split at hy
  · exact .inr ⟨ty, isArray, (Option.some.inj hy).symm, hty⟩
  · exact .inl hy

end Scopes.Adds

section Adds

variable {Γ Γ' : Scopes}

theorem Declares.adds {d : Tree} (h : Declares N ty Γ d Γ') (hty : ty.IsValue) : Γ.Adds Γ' := by
  cases h with
  | plain _ _ _ _ hd | initial _ _ _ _ _ _ _ _ hd | array _ _ _ _ _ _ hd => exact .declare hd hty

theorem DeclaresAll.adds {ds : List Tree} (h : DeclaresAll N ty Γ ds Γ') (hty : ty.IsValue) :
    Γ.Adds Γ' := by
  induction h with
  | nil Γ => exact .refl Γ
  | cons _ _ _ _ _ hd _ ih => exact (hd.adds hty).trans ih

theorem Typed.adds {ret : Option Ty} {loop : Bool} (h : Typed N ret loop Γ t Γ') : Γ.Adds Γ' := by
  cases h with
  | declaration _ _ _ _ _ _ hty hds => exact hds.adds hty
  | _ => exact .refl Γ

theorem TypedParams.adds (h : TypedParams N Γ ps Γ') : Γ.Adds Γ' := by
  induction h with
  | nil Γ => exact .refl Γ
  | cons _ _ _ _ _ _ _ _ _ hty hd _ ih => exact (Scopes.Adds.declare hd hty).trans ih

end Adds

/-! ## The functions of a program -/

theorem TypedParams.kind_eq (h : TypedParams N Γ ps Γ') : ∀ p ∈ ps, p.kind = .parameter := by
  induction h with
  | nil => exact forall_mem_nil _
  | cons _ _ _ _ _ _ _ _ _ _ _ _ ih => exact forall_mem_cons.mpr ⟨rfl, ih⟩

theorem TypedFunction.parts (h : TypedFunction N Γ t) :
    t.kind = .function ∧ (Ty.ofFirst t.children).IsValue ∧
      ∃ body Γ', bodyOf? t.children = some body ∧
      body ∈ t.children ∧ TypedParams N ([] :: Γ) (parametersOf t.children) Γ' ∧
      TypedBlock N (some (.ofFirst t.children)) false Γ' body := by
  obtain ⟨f, loc, ty, ps, body, Γ', -, hty, hps, hbody⟩ := h
  have hblock := hbody.kind_eq
  have hparams := parametersOf_function (kind_of_isValue hty) hps.kind_eq hblock
  exact ⟨rfl, hty, body, Γ', bodyOf?_function ty ps hblock, by simp, by rwa [hparams], hbody⟩

theorem DeclaresFunctions.lookup?_eq {scope : Scope} {fs : List Tree}
    (h : DeclaresFunctions [scope] fs Γ) :
    (∀ f ∈ fs, scope.lookup f.text = none ∧ fs.find? (fun g => g.text == f.text) = some f) ∧
    ∀ x, Γ.lookup? x = ((fs.find? fun f => f.text == x).map fun f => .ofChildren f.children).or
      (scope.lookup x) := by
  induction fs generalizing scope with
  | nil =>
    cases h
    refine ⟨forall_mem_nil _, fun x => ?_⟩
    simp [Scopes.lookup?]
  | cons f fs ih =>
    cases h with
    | cons _ Γ' _ _ _ hf hfs =>
      unfold Scopes.declare? at hf
      dsimp only at hf
      split at hf
      · cases hf
      · next hnew =>
        cases hf
        obtain ⟨hnone, hlookup⟩ := ih hfs
        have hfirst : scope.lookup f.text = none := Option.not_isSome_iff_eq_none.mp hnew
        -- a later function of the same name could not have been declared
        have hother : ∀ g ∈ fs, g.text ≠ f.text := by
          intro g hg heq
          have := (hnone g hg).1
          simp [heq] at this
        refine ⟨forall_mem_cons.mpr ⟨⟨hfirst, by simp⟩, fun g hg => ?_⟩, fun x => ?_⟩
        · obtain ⟨hg', hfind⟩ := hnone g hg
          rw [lookup_cons, beq_eq_false_iff_ne.mpr (hother g hg)] at hg'
          rw [find?_cons, beq_eq_false_iff_ne.mpr (Ne.symm (hother g hg))]
          exact ⟨hg', hfind⟩
        · rw [hlookup, lookup_cons, find?_cons]
          by_cases hx : x = f.text
          · subst hx
            have hmissing : fs.find? (fun g => g.text == f.text) = none := by simpa using hother
            simp [hmissing]
          · rw [beq_eq_false_iff_ne.mpr hx, beq_eq_false_iff_ne.mpr (Ne.symm hx)]

theorem DeclaresFunctions.nodup {scope : Scope} {fs : List Tree}
    (h : DeclaresFunctions [scope] fs Γ) :
    (fs.map Tree.text).Nodup := by
  induction fs generalizing scope with
  | nil => exact nodup_nil
  | cons f fs ih =>
    cases h with
    | cons _ Γ' _ _ _ hf hfs =>
      rw [Scopes.declare?, Option.ite_none_left_eq_some] at hf
      obtain ⟨-, hf⟩ := hf
      obtain rfl := Option.some.inj hf
      refine nodup_cons.mpr ⟨fun hmem => ?_, ih hfs⟩
      obtain ⟨g, hg, heq⟩ := mem_map.mp hmem
      have hnone := (hfs.lookup?_eq.1 g hg).1
      simp [heq] at hnone

theorem Scopes.lookup_builtins (x : String) :
    Scopes.builtins.lookup x = (Builtin.ofName? x).map Entry.ofBuiltin := by
  unfold Scopes.builtins Builtin.ofName?
  induction Builtin.all with
  | nil => rfl
  | cons b bs ih =>
    rw [map_cons, lookup_cons, find?_cons, ih, BEq.comm]
    cases b.name == x <;> rfl

theorem Entry.ofBuiltin_known (b : Builtin) : (Entry.ofBuiltin b).Known := by
  cases b <;> simp [Entry.Known, Entry.ofBuiltin, Builtin.returns, Builtin.params, Ty.IsValue]

theorem TypedParams.isValue (h : TypedParams N Γ ps Γ') : ∀ p ∈ ps, (parameterTy p).IsValue := by
  induction h with
  | nil => exact forall_mem_nil _
  | cons _ _ _ _ _ _ _ _ _ hty _ _ ih => exact forall_mem_cons.mpr ⟨hty, ih⟩

theorem TypedFunction.entry_known (h : TypedFunction N Γ t) :
    (Entry.ofChildren t.children).Known := by
  obtain ⟨-, hty, _, _, -, -, hps, -⟩ := h.parts
  refine ⟨hty.2, fun p hp => ?_⟩
  obtain ⟨q, hq, rfl⟩ := mem_map.mp hp
  exact hps.isValue q hq

theorem TypedItems.exists_typedFunction {ts : List Tree} (h : TypedItems N Γ ts) :
    ∀ c ∈ ts, c.kind = .function → ∃ Γ', TypedFunction N Γ' c := by
  induction h with
  | nil => exact fun _ h => absurd h not_mem_nil
  | function Γ c ts hc _ ih =>
    intro c' hc' hk
    rcases mem_cons.mp hc' with rfl | hc'
    · exact ⟨Γ, hc⟩
    · exact ih c' hc' hk
  | stmt Γ Γ' c ts hk' _ _ ih =>
    intro c' hc' hk
    rcases mem_cons.mp hc' with rfl | hc'
    · exact absurd hk hk'
    · exact ih c' hc' hk

end Stacklet
