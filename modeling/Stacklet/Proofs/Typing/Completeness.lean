import Stacklet.Proofs.Typing.Soundness
/-!
# Typed programs have no errors

* `HasType.expression_eq`, `Typed.statement_eq`, `TypedFunction.function_eq`: what has a derivation
  in the typing rules is checked without errors. The checks give the types and the scopes of the
  derivation and change nothing else.
* `Checker.typeErrors_eq_empty_iff`: the check of a program finds no errors if and only if the
  program is typed.
* `unaryTy_eq_ok_iff`, `binaryTy_eq_ok_iff`: the rules for operands, written out.
-/

namespace Stacklet

open Checker

variable {ret : Option Ty} {Γ Γ' : Scopes} {op : String} {t : Tree} {ty ty' : Ty}

variable {N : String → Prop} {s s' : Checker.State}

namespace Checker

variable {α β : Type}

theorem bind_of_eq {x : Checker α} {a : α} (h : x s = (a, s')) (f : α → Checker β) :
    (x >>= f) s = f a s' := by
  rw [bind_apply, h]

theorem discard_of_eq {x : Checker α} {a : α} (h : x s = (a, s')) : discard x s = ((), s') := by
  rw [show discard x s = ((), (x s).2) from rfl, h]

theorem lookup_bind (x : String) (f : Option Entry → Checker β) :
    (lookup x >>= f) s = f (s.scopes.lookup? x) s := rfl

/-! ## Single checks -/

theorem nameTy_eq {x : String} {isArray : Bool} (h : s.scopes.lookup? x = some (.var ty isArray))
    (loc : Loc) : nameTy loc x s = (ty, s) := by
  rw [nameTy, lookup_bind, h]
  rfl

theorem resultTy_eq {r : Except TypeError Ty} (h : r = .ok ty) (loc : Loc) :
    resultTy loc r s = (ty, s) := by
  rw [h]
  rfl

theorem requireAccepted_eq (h : ty.accepts ty') (loc : Loc) (e : TypeError) :
    requireAccepted loc ty ty' e s = ((), s) := by
  unfold requireAccepted
  rw [if_pos (.inr (.inr h))]
  rfl

theorem requireInt_eq (loc : Loc) (e : Ty → TypeError) : requireInt loc .int e s = ((), s) := rfl

theorem requireIndexable_eq {base : Tree} (h : Indexable s.scopes base) :
    requireIndexable base s = ((), s) := by
  unfold requireIndexable
  split
  · next hk =>
    rw [lookup_bind]
    rcases hx : s.scopes.lookup? base.text with _ | ⟨ty, _ | _⟩ | _
    · rfl
    · obtain rfl := h hk ty hx
      rfl
    · rfl
    · rfl
  · rfl

theorem requireShape_eq {arg : Tree} {wantsArray : Bool} (h : HasShape s.scopes arg wantsArray)
    (e : TypeError) :
    requireShape arg e wantsArray s = ((), s) := by
  unfold requireShape
  split
  · next hk =>
    rw [lookup_bind]
    rcases hx : s.scopes.lookup? arg.text with _ | ⟨ty, isArray⟩ | _
    · rfl
    · dsimp only
      rw [if_pos (h hk ty isArray hx)]
      rfl
    · rfl
  · rfl

theorem checkArgument_eq {arg : Tree} {wantsArray : Bool} (hacc : ty.accepts ty')
    (hshape : HasShape s.scopes arg wantsArray) (f : String) (position : Nat) :
    checkArgument f position arg ty' (some (ty, wantsArray)) s = ((), s) :=
  (bind_of_eq (requireAccepted_eq hacc _ _) _).trans (requireShape_eq hshape _)

theorem callee?_eq {f : String} {params : List (Ty × Bool)}
    (h : s.scopes.lookup? f = some (.function ty params)) (loc : Loc) :
    callee? (.nameAt f loc) s = (some (ty, params), s) := by
  unfold callee? Tree.nameAt
  rw [if_pos rfl, lookup_bind, h]
  rfl

theorem assignmentTy_eq {target : Tree} (hbase : stringBase? target s = (none, s))
    (hacc : ty.accepts ty') (loc : Loc) : assignmentTy loc target ty ty' s = (ty, s) :=
  (bind_of_eq hbase _).trans (bind_of_eq (requireAccepted_eq hacc _ _) _)

theorem stringBase?_item {x : String} (h : s.scopes.lookup? x = some (.var ty true))
    (loc loc' : Loc) (i : Tree) :
    stringBase? ⟨.index, "Index", false, loc, [.nameAt x loc', i]⟩ s = (none, s) := by
  unfold stringBase? Tree.nameAt
  dsimp only
  rw [lookup_bind, h]
  cases ty <;> rfl

end Checker

/-! ## Expressions -/

mutual

/-- **Typed expressions are checked without errors**, and the check gives their type. -/
theorem HasType.expression_eq {t : Tree} {ty : Ty} :
    HasType s.scopes t ty → expression t s = (ty, s)
  | .number text loc => by
    unfold expression
    rfl
  | .string text loc => by
    unfold expression
    rfl
  | .var x loc ty isArray hx => by
    unfold Tree.nameAt expression
    exact nameTy_eq hx loc
  | .unary op loc e ty ty' he hty => by
    unfold expression
    refine (bind_of_eq he.expression_eq _).trans ?_
    rw [if_neg (unaryTy_isValue hty).1.2]
    exact resultTy_eq hty loc
  | .binary op loc l r ty ty' ty'' hl hr hty => by
    unfold expression
    refine (bind_of_eq hl.expression_eq _).trans ((bind_of_eq hr.expression_eq _).trans ?_)
    rw [if_neg (not_or.mpr ⟨(binaryTy_isValue hty).1.2, (binaryTy_isValue hty).2.1.2⟩)]
    exact resultTy_eq hty loc
  | .comma loc l r ty ty' hl hr => by
    unfold expression lastTy lastTy lastTy
    exact (bind_of_eq hl.expression_eq _).trans (bind_of_eq hr.expression_eq _)
  | .assign loc loc' x value ty ty' isArray hx hv hacc => by
    have htarget : expression (.nameAt x loc') s = (ty, s) := by
      unfold Tree.nameAt expression
      exact nameTy_eq hx loc'
    unfold expression
    refine (bind_of_eq htarget _).trans ((bind_of_eq hv.expression_eq _).trans ?_)
    exact assignmentTy_eq rfl hacc loc
  | .assignItem loc loc' loc'' x i value ty ty' hx hi hv hacc => by
    have hbase : expression (.nameAt x loc'') s = (ty, s) := by
      unfold Tree.nameAt expression
      exact nameTy_eq hx loc''
    have hindexable : Indexable s.scopes (.nameAt x loc'') := fun _ ty' h => by
      rw [show (Tree.nameAt x loc'').text = x from rfl, hx] at h
      cases h
    have htarget : expression ⟨.index, "Index", false, loc', [.nameAt x loc'', i]⟩ s =
        (ty, s) := by
      unfold expression
      refine (bind_of_eq hbase _).trans ((bind_of_eq hi.expression_eq _).trans ?_)
      exact (bind_of_eq (requireInt_eq _ _) _).trans (bind_of_eq (requireIndexable_eq hindexable) _)
    unfold expression
    refine (bind_of_eq htarget _).trans ((bind_of_eq hv.expression_eq _).trans ?_)
    exact assignmentTy_eq (stringBase?_item hx loc' loc'' i) hacc loc
  | .call loc loc' f args ty params hf hargs => by
    unfold expression
    refine (bind_of_eq (callee?_eq hf loc') _).trans ?_
    dsimp only
    rw [if_pos hargs.length_eq]
    exact bind_of_eq (hargs.arguments_eq f 1) _
  | .index loc base i ty hb _ hi hindexable => by
    unfold expression
    refine (bind_of_eq hb.expression_eq _).trans ((bind_of_eq hi.expression_eq _).trans ?_)
    exact (bind_of_eq (requireInt_eq _ _) _).trans (bind_of_eq (requireIndexable_eq hindexable) _)

theorem HasArgs.arguments_eq {params : List (Ty × Bool)} {args : List Tree} :
    HasArgs s.scopes params args →
    ∀ (f : String) (position : Nat), arguments f position params args s = ((), s)
  | .nil, f, position => by
    unfold arguments
    rfl
  | .cons ty ty' isArray params arg args harg hacc hshape hargs, f, position => by
    unfold arguments
    refine (bind_of_eq harg.expression_eq _).trans
      ((bind_of_eq (checkArgument_eq hacc hshape f position) _).trans ?_)
    exact hargs.arguments_eq f (position + 1)

end

/-! ## Statements -/

theorem HasType.condition_eq {c : Tree} (h : HasType s.scopes c .int) (construct : Construct) :
    condition construct c s = ((), s) := bind_of_eq h.expression_eq _

theorem OptionalInt.condition_eq {c : Tree} (h : OptionalInt s.scopes c) :
    condition .forLoop c s = ((), s) := by
  cases h with
  | omitted loc =>
    unfold condition Tree.omitted expression
    rfl
  | expr _ h => exact h.condition_eq .forLoop

theorem OptionalExpr.expression_eq {e : Tree} (h : OptionalExpr s.scopes e) :
    discard (expression e) s = ((), s) := by
  cases h with
  | omitted loc =>
    unfold Tree.omitted expression
    rfl
  | expr _ _ h => exact discard_of_eq h.expression_eq

theorem declareVar_eq (h : s.scopes.declare? t.text (.var ty t.isArray) = some Γ) :
    declareVar t ty s = ((), s.withScopes Γ) := by
  have hdeclare : declare t.text (.var ty t.isArray) s = (true, s.withScopes Γ) := by
    rw [declare_apply, h]
    rfl
  exact bind_of_eq hdeclare _

theorem Declares.declarator_eq {d : Tree} (h : Declares N ty s.scopes d Γ) :
    declarator ty d s = ((), s.withScopes Γ) := by
  cases h with
  | plain x loc _ _ hd => exact declareVar_eq (t := ⟨.declarator, x, false, loc, []⟩) hd
  | initial x loc e ty' _ _ he hacc hd =>
    refine (bind_of_eq he.expression_eq _).trans
      ((bind_of_eq (requireAccepted_eq hacc _ _) _).trans ?_)
    exact declareVar_eq (t := ⟨.declarator, x, false, loc, [e]⟩) hd
  | array x loc e _ _ he hd =>
    refine (bind_of_eq he.expression_eq _).trans ?_
    exact declareVar_eq (t := ⟨.declarator, x, true, loc, [e]⟩) hd

theorem DeclaresAll.declarators_eq {ds : List Tree} (h : DeclaresAll N ty s.scopes ds Γ) :
    ds.forM (declarator ty) s = ((), s.withScopes Γ) := by
  induction ds generalizing s with
  | nil =>
    cases h
    rfl
  | cons d ds ih =>
    cases h with
    | cons _ Γ' _ _ _ hd hds =>
      exact (bind_of_eq hd.declarator_eq _).trans (ih (s := s.withScopes Γ') hds)

def Checker.State.inLoop (s : Checker.State) : Checker.State :=
  { s with loopDepth := s.loopDepth + 1 }

theorem inLoop_eq {x : Checker Unit} (h : x s.inLoop = ((), s.inLoop)) : inLoop x s = ((), s) := by
  have happ :
    inLoop x s = ((), { (x s.inLoop).2 with loopDepth := (x s.inLoop).2.loopDepth - 1 }) := rfl
  rw [happ, h]
  rfl

theorem Scopes.Adds.known (h : Γ.Adds Γ') (hΓ : Γ.Known) : Γ'.Known := by
  intro x e hx
  rcases h x e hx with hx | ⟨ty, isArray, rfl, hty⟩
  · exact hΓ x e hx
  · exact hty

theorem requireLoop_eq (h : s.Ready ret true) (loc : Loc) (e : TypeError) :
    requireLoop loc e s = ((), s) := by
  have hdepth : s.loopDepth ≠ 0 := of_decide_eq_true h.loop_eq.symm
  unfold requireLoop
  rw [get_bind_apply, if_neg hdepth]
  rfl

theorem returnValue_eq {loop : Bool} (h : s.Ready ret loop) {e : Tree}
    (hret : ret = some ty) (he : HasType s.scopes e ty') (hacc : ty.accepts ty') (loc : Loc) :
    returnValue loc [e] s = ((), s) := by
  have hin : s.inFunction = true ∧ s.returnType = ty := by
    have heq := h.ret_eq
    rw [hret] at heq
    split at heq
    · next hin => exact ⟨hin, (Option.some.inj heq).symm⟩
    · cases heq
  unfold returnValue
  rw [get_bind_apply, if_neg (by simp [hin.1]), get_bind_apply]
  refine (bind_of_eq he.expression_eq _).trans ?_
  rw [if_neg (h.isValue hin.1).1, hin.2]
  exact requireAccepted_eq hacc _ _

theorem TypedBlock.branchStatements_eq {loop : Bool} {body : Tree}
    (h : TypedBlock N ret loop Γ body) (rest : List Tree) :
    branchStatements (body :: rest) = statement body >>= fun _ => branchStatements rest := by
  cases h with
  | mk =>
    rw [branchStatements]
    intro _ _ _ _ _ h
    cases h

mutual

/-- **Typed statements are checked without errors**, and behind them are the scopes of the
derivation. -/
theorem Typed.statement_eq :
    ∀ {t : Tree} {ret : Option Ty} {loop : Bool} {Γ : Scopes} {s : Checker.State},
    Typed N ret loop s.scopes t Γ → s.Ready ret loop → statement t s = ((), s.withScopes Γ)
  | _, _, _, _, s, .omitted _ _ loc, _ => by
    unfold Tree.omitted statement
    rfl
  | _, _, _, _, s, .block _ _ _ hb, h => hb.statement_eq h
  | _, _, _, _, s, .declaration _ _ _ _ _ _ _ hds, _ => by
    unfold statement
    exact hds.declarators_eq
  | _, _, _, _, s, .exprStmt _ _ _ _ _ he, _ => by
    unfold statement
    exact discard_of_eq he.expression_eq
  | _, _, _, _, s, .returnStmt _ _ loc _ _ _ hret he hacc, h => by
    unfold statement
    exact returnValue_eq h hret he hacc loc
  | _, _, _, _, s, .breakStmt _ loc, h => by
    unfold statement
    exact requireLoop_eq h loc _
  | _, _, _, _, s, .continueStmt _ loc, h => by
    unfold statement
    exact requireLoop_eq h loc _
  | _, _, _, _, s, .conditional _ _ _ _ _ _ hc hbody hrest, h => by
    unfold statement
    refine (bind_of_eq (hc.condition_eq _) _).trans ?_
    rw [hbody.branchStatements_eq]
    exact (bind_of_eq (hbody.statement_eq h) _).trans (hrest.branchStatements_eq h)
  | _, _, _, _, s, .whileLoop _ _ _ _ _ hc hbody, h => by
    unfold statement
    refine (bind_of_eq (hc.condition_eq _) _).trans (inLoop_eq ?_)
    unfold statements statements
    exact bind_of_eq (hbody.statement_eq (s := s.inLoop) h.inLoop) _
  | _, _, _, _, s, .doWhile _ _ _ _ _ hbody hc, h => by
    unfold statement
    refine (bind_of_eq (inLoop_eq (hbody.statement_eq (s := s.inLoop) h.inLoop)) _).trans ?_
    exact hc.condition_eq _
  | _, _, _, _, s, .forLoop _ _ Γ' _ _ _ _ _ hfirst hc hstep hbody, h => by
    have hready := h.withScopes h.known.enter
    have hready' := h.withScopes (hfirst.adds.known hready.known)
    unfold statement
    refine inScope_eq (Γ := Γ') ?_
    unfold forStatements
    refine (bind_of_eq (hfirst.statement_eq (s := s.withScopes _) hready) _).trans ?_
    refine (bind_of_eq (hc.condition_eq (s := s.withScopes Γ')) _).trans ?_
    refine (bind_of_eq (hstep.expression_eq (s := s.withScopes Γ')) _).trans ?_
    exact inLoop_eq (hbody.statement_eq (s := (s.withScopes Γ').inLoop) hready'.inLoop)

theorem TypedBlock.statement_eq : ∀ {t : Tree} {ret : Option Ty} {loop : Bool} {s : Checker.State},
    TypedBlock N ret loop s.scopes t → s.Ready ret loop → statement t s = ((), s)
  | _, _, _, s, .mk _ _ Γ' _ _ hts, h => by
    unfold statement
    exact inScope_eq (hts.statements_eq (s := s.withScopes _) (h.withScopes h.known.enter))

theorem TypedAll.statements_eq :
    ∀ {ts : List Tree} {ret : Option Ty} {loop : Bool} {Γ : Scopes} {s : Checker.State},
    TypedAll N ret loop s.scopes ts Γ → s.Ready ret loop → statements ts s = ((), s.withScopes Γ)
  | _, _, _, _, s, .nil _ _, _ => by
    unfold statements
    rfl
  | _, _, _, _, s, .cons _ _ Γ' _ _ _ ht hts, h => by
    unfold statements
    refine (bind_of_eq (ht.statement_eq h) _).trans ?_
    exact hts.statements_eq (s := s.withScopes Γ') (h.withScopes (ht.adds.known h.known))

theorem TypedBranches.branchStatements_eq :
    ∀ {ts : List Tree} {ret : Option Ty} {loop : Bool} {s : Checker.State},
    TypedBranches N ret loop s.scopes ts → s.Ready ret loop → branchStatements ts s = ((), s)
  | _, _, _, s, .nil _ _, _ => by
    unfold branchStatements
    rfl
  | _, _, _, s, .last _ _ _ hbody, h => by
    rw [hbody.branchStatements_eq]
    unfold branchStatements
    exact bind_of_eq (hbody.statement_eq h) _
  | _, _, _, s, .elseIf _ _ _ _ _ _ hc hbody hts, h => by
    unfold branchStatements
    refine (bind_of_eq (hc.condition_eq _) _).trans ?_
    unfold statements statements
    refine (bind_of_eq (bind_of_eq (hbody.statement_eq h) _) _).trans ?_
    exact hts.branchStatements_eq h

end

/-! ## Functions and programs -/

theorem TypedParams.declareVars_eq {ps : List Tree} (h : TypedParams N s.scopes ps Γ) :
    ps.forM (fun p => declareVar p (parameterTy p)) s = ((), s.withScopes Γ) := by
  induction ps generalizing s with
  | nil =>
    cases h
    rfl
  | cons p ps ih =>
    cases h with
    | cons _ Γ' _ x isArray loc ty _ _ _ hd hps =>
      refine (bind_of_eq (declareVar_eq ?_) _).trans (ih (s := s.withScopes Γ') hps)
      exact hd

def Checker.State.enterFunction (s : Checker.State) (returns : Ty) : Checker.State :=
  { s with inFunction := true, undeclared := [], returnType := returns }

theorem Checker.State.Outside.enterFunction (h : s.Outside) {returns : Ty} (hty : returns.IsValue) :
    (s.enterFunction returns).Ready (some returns) false :=
  ⟨rfl, h.ready.known, rfl, fun _ => hty, h.ready.loop_eq⟩

/-- **Typed functions are checked without errors.** -/
theorem TypedFunction.function_eq (ht : TypedFunction N s.scopes t) (h : s.Outside) :
    function t s = ((), s) := by
  obtain ⟨-, hty, body, Γ', hbody?, -, hps, hbody⟩ := ht.parts
  have hready := h.enterFunction hty
  have hinside : inScope (do
      (parametersOf t.children).forM fun p => declareVar p (parameterTy p)
      statement body) (s.enterFunction (.ofFirst t.children)) =
        ((), s.enterFunction (.ofFirst t.children)) := by
    refine inScope_eq (Γ := Γ') ?_
    refine (bind_of_eq (hps.declareVars_eq (s := (s.enterFunction _).withScopes _)) _).trans ?_
    exact hbody.statement_eq (s := (s.enterFunction _).withScopes Γ')
      (hready.withScopes (hps.adds.known hready.known.enter))
  have happ : function t s = ((), { ((inScope do
      (parametersOf t.children).forM fun p => declareVar p (parameterTy p)
      statement body) (s.enterFunction (.ofFirst t.children))).2 with
        inFunction := false, returnType := .void }) := by
    unfold function
    rw [hbody?]
    rfl
  rw [happ, hinside]
  obtain ⟨⟩ := s
  obtain rfl := h.inFunction_eq
  obtain rfl := h.returnType_eq
  obtain rfl := h.ready.undeclared_eq
  rfl

theorem item_eq_function (h : t.kind = .function) : item t = function t := if_pos h

theorem item_eq_statement (h : t.kind ≠ .function) : item t = statement t := if_neg h

theorem TypedItems.items_eq {ts : List Tree} (hts : TypedItems N s.scopes ts) (h : s.Outside) :
    ∃ Γ, ts.forM item s = ((), s.withScopes Γ) := by
  induction ts generalizing s with
  | nil => exact ⟨s.scopes, rfl⟩
  | cons t ts ih =>
    cases hts with
    | function _ _ _ ht hts =>
      obtain ⟨Γ, hΓ⟩ := ih hts h
      have hitem : item t s = ((), s) := by
        rw [item_eq_function ht.parts.1]
        exact ht.function_eq h
      exact ⟨Γ, (bind_of_eq hitem _).trans hΓ⟩
    | stmt _ Γ' _ _ hk ht hts =>
      obtain ⟨Γ, hΓ⟩ := ih (s := s.withScopes Γ') hts (h.withScopes (ht.adds.known h.ready.known))
      have hitem : item t s = ((), s.withScopes Γ') := by
        rw [item_eq_statement hk]
        exact ht.statement_eq h.ready
      exact ⟨Γ, (bind_of_eq hitem _).trans hΓ⟩

theorem DeclaresFunctions.declareFunctions_eq {fs : List Tree}
    (h : DeclaresFunctions s.scopes fs Γ) :
    fs.forM declareFunction s = ((), s.withScopes Γ) := by
  induction fs generalizing s with
  | nil =>
    cases h
    rfl
  | cons f fs ih =>
    cases h with
    | cons _ Γ' _ _ _ hf hfs =>
      have hdeclare : declare f.text (.ofChildren f.children) s = (true, s.withScopes Γ') := by
        rw [declare_apply, hf]
        rfl
      have hfirst : declareFunction f s = ((), s.withScopes Γ') := bind_of_eq hdeclare _
      exact (bind_of_eq hfirst _).trans (ih (s := s.withScopes Γ') hfs)

theorem DeclaresFunctions.known {fs : List Tree} (h : DeclaresFunctions Γ fs Γ')
    (hfs : ∀ f ∈ fs, (Entry.ofChildren f.children).Known) (hΓ : Γ.Known) : Γ'.Known := by
  induction h with
  | nil => exact hΓ
  | cons _ _ _ f fs hf _ ih =>
    obtain ⟨hf', hfs⟩ := List.forall_mem_cons.mp hfs
    exact ih hfs (hΓ.declare hf hf')

theorem TypedItems.known {ts : List Tree} (h : TypedItems N Γ' ts)
    (hf : DeclaresFunctions Γ (ts.filter fun c => c.kind == .function) Γ') (hΓ : Γ.Known) :
    Γ'.Known := by
  refine hf.known (fun f hmem => ?_) hΓ
  obtain ⟨hmem, hk⟩ := List.mem_filter.mp hmem
  obtain ⟨_, htyped⟩ := h.exists_typedFunction f hmem (beq_iff_eq.mp hk)
  exact htyped.entry_known

/-- The state in which a program is checked. -/
def Checker.State.start : Checker.State := { scopes := [Scopes.builtins] }

theorem Checker.State.start_outside : State.start.Outside :=
  ⟨⟨rfl, builtins_known, rfl, fun h => absurd h Bool.false_ne_true, rfl⟩, rfl, rfl⟩

/-- **Typed programs have no errors.** -/
theorem TypedProgram.typeErrors_eq (h : TypedProgram N t) : t.typeErrors = #[] := by
  obtain ⟨Γ, hfunctions, hitems⟩ := h
  have hknown : Γ.Known := hitems.known hfunctions builtins_known
  have hdeclare := hfunctions.declareFunctions_eq (s := State.start)
  obtain ⟨Γ', hchecked⟩ := hitems.items_eq (s := State.start.withScopes Γ)
    (State.start_outside.withScopes hknown)
  have hprogram : program t State.start = ((), State.start.withScopes Γ') :=
    (bind_of_eq hdeclare _).trans hchecked
  show (program t State.start).2.errors = #[]
  rw [hprogram]
  rfl

/-- **The checker decides typing.** A program of the shape that parsing gives has no errors if and
only if it has a derivation in the typing rules. -/
theorem Checker.typeErrors_eq_empty_iff (ht : ∀ c ∈ t.children, IsItem N IsTypeWord c) :
    t.typeErrors = #[] ↔ TypedProgram N t := ⟨program_typed ht, TypedProgram.typeErrors_eq⟩

/-! ## The rules for operands -/

/-- The types that are counted with. -/
def Ty.Numeric (ty : Ty) : Prop := ty = .int ∨ ty = .double

theorem isNumeric_iff : ty.isNumeric = true ↔ ty.Numeric := by
  cases ty <;> simp [Ty.isNumeric, Ty.Numeric]

theorem accepts_iff : ty.accepts ty' = true ↔ ty' = ty ∨ (ty' = .int ∧ ty = .double) := by
  rw [Ty.accepts, Bool.or_eq_true, Bool.and_eq_true, beq_iff_eq, beq_iff_eq, beq_iff_eq]
  exact or_congr eq_comm and_comm

/-- The types of a sign or a negation: of its operand, and of the result. -/
inductive UnaryRule : String → Ty → Ty → Prop
  | negation {ty : Ty} : ty.Numeric → UnaryRule "!" ty .int
  | sign {op : String} {ty : Ty} : op ≠ "!" → ty.Numeric → UnaryRule op ty ty

/-- The operators that compare. -/
def Comparison (op : String) : Prop := op ∈ ["<", "<=", ">", ">=", "==", "!="]

/-- The types of an operation with two operands: of the operands, and of the result. -/
inductive BinaryRule : String → Ty → Ty → Ty → Prop
  | compare {op : String} {l r : Ty} : Comparison op → l.Numeric → r.Numeric →
      BinaryRule op l r .int
  | compareStrings {op : String} : op = "==" ∨ op = "!=" → BinaryRule op .string .string .int
  | concatenate : BinaryRule "+" .string .string .string
  | ints {op : String} : ¬ Comparison op → BinaryRule op .int .int .int
  | doubles {op : String} {l r : Ty} : ¬ Comparison op → l.Numeric → r.Numeric → l = .double ∨
      r = .double →
    BinaryRule op l r .double

theorem unaryTy_eq_ok_iff : unaryTy op ty = .ok ty' ↔ UnaryRule op ty ty' := by
  constructor
  · intro h
    unfold unaryTy at h
    split at h
    · cases h
    · next hnum =>
      have hnum : ty.Numeric := isNumeric_iff.mp (by simpa using hnum)
      cases h
      split
      · next hop => exact hop ▸ .negation hnum
      · next hop => exact .sign hop hnum
  · intro h
    cases h with
    | negation hnum => simp [unaryTy, isNumeric_iff.mpr hnum]
    | sign hop hnum => simp [unaryTy, isNumeric_iff.mpr hnum, hop]

theorem isComparison_iff : isComparison op = true ↔ Comparison op := List.contains_iff_mem

theorem binaryTy_eq_ok_iff {l r : Ty} : binaryTy op l r = .ok ty ↔ BinaryRule op l r ty := by
  have hnumeric : (l.isNumeric && r.isNumeric) = true ↔ l.Numeric ∧ r.Numeric := by
    rw [Bool.and_eq_true, isNumeric_iff, isNumeric_iff]
  have hstrings : (l == .string && r == .string) = true ↔ l = .string ∧ r = .string := by
    rw [Bool.and_eq_true, beq_iff_eq, beq_iff_eq]
  constructor
  · intro h
    unfold binaryTy at h
    dsimp only at h
    split at h
    · next hop =>
      split at h
      · next hok =>
        cases h
        rcases Bool.or_eq_true_iff.mp hok with hok | hok
        · exact .compare (isComparison_iff.mp hop) (hnumeric.mp hok).1 (hnumeric.mp hok).2
        · rw [Bool.and_eq_true, hstrings] at hok
          obtain ⟨⟨rfl, rfl⟩, heq⟩ := hok
          exact .compareStrings (by simpa [isEquality] using heq)
      · cases h
    · next hop =>
      split at h
      · next hok =>
        cases h
        rw [Bool.and_eq_true, hstrings, beq_iff_eq] at hok
        obtain ⟨⟨rfl, rfl⟩, rfl⟩ := hok
        exact .concatenate
      · split at h
        · next hok =>
          obtain ⟨hl, hr⟩ := hnumeric.mp hok
          have hop : ¬ Comparison op := hop ∘ isComparison_iff.mpr
          cases h
          split
          · next hd => exact .doubles hop hl hr hd
          · next hd =>
            rw [not_or] at hd
            obtain rfl := hl.resolve_right hd.1
            obtain rfl := hr.resolve_right hd.2
            exact .ints hop
        · cases h
  · intro h
    cases h with
    | compare hop hl hr =>
      simp [binaryTy, isComparison_iff.mpr hop, isNumeric_iff.mpr hl, isNumeric_iff.mpr hr]
    | compareStrings hop =>
      have hcompare : isComparison op = true := by rcases hop with rfl | rfl <;> decide
      have hequal : isEquality op = true := by simpa [isEquality] using hop
      simp [binaryTy, hcompare, hequal]
    | concatenate => rfl
    | ints hop =>
      have hcompare : isComparison op = false := Bool.eq_false_iff.mpr (hop ∘ isComparison_iff.mp)
      simp [binaryTy, hcompare, Ty.isNumeric]
    | doubles hop hl hr hd =>
      have hcompare : isComparison op = false := Bool.eq_false_iff.mpr (hop ∘ isComparison_iff.mp)
      have hother : (l == .string && r == .string) = false := by
        rcases hl with rfl | rfl <;> rfl
      simp [binaryTy, hcompare, hother, isNumeric_iff.mpr hl, isNumeric_iff.mpr hr, hd]

end Stacklet
