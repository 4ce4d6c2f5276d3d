import Stacklet.Pipeline
import Stacklet.Proofs.Typing.Frames
import Stacklet.Proofs.Typing.Rules
/-!
# Programs without errors are typed

* `Checker.Passes`: what is known if a check finds no errors. Such a check leaves the state as it
  was.
* `expression_passes`, `statement_goes`: a check that finds no errors gives a derivation in the
  typing rules.
* `compile_typed`: accepted sources are typed programs.
-/

namespace Stacklet

open List

variable {Γ : Scopes} {t : Tree} {ty ty' : Ty}

namespace Checker

variable {α β : Type} {N T : String → Prop} {s : State}

/-- If a check finds no errors, then it leaves the state alone and its result has the property
`P`. -/
def Passes (x : Checker α) (s : State) (P : α → Prop) : Prop :=
  (x s).2.errors = #[] → ∃ a, P a ∧ x s = (a, s)

namespace Passes

variable {P : α → Prop} {Q : β → Prop} {x : Checker α} {f : α → Checker β}

theorem pure {a : α} (h : P a) : Passes (Pure.pure a) s P := fun _ => ⟨a, h, rfl⟩

theorem bind' (hsteady : ∀ a, Steady (f a)) (hx : Passes x s P) (hf : ∀ a, P a → Passes (f a) s Q) :
    Passes (x >>= f) s Q := by
  intro h
  obtain ⟨a, ha, hxs⟩ := hx (errors_of_bind h)
  have happ : (x >>= f) s = f a s := by rw [bind_apply, hxs]
  rw [happ] at h ⊢
  exact hf a ha h

theorem bind [hsteady : ∀ a, Steady (f a)] (hx : Passes x s P) (hf : ∀ a, P a → Passes (f a) s Q) :
    Passes (x >>= f) s Q := bind' hsteady hx hf

theorem mono {P' : α → Prop} (hx : Passes x s P) (h : ∀ a, P a → P' a) : Passes x s P' := fun he =>
  let ⟨a, ha, hxs⟩ := hx he
  ⟨a, h a ha, hxs⟩

theorem report (loc : Loc) (e : TypeError) {P : Unit → Prop} : Passes (Checker.report loc e) s P :=
  fun h =>
  absurd h (errors_report_ne loc e s)

theorem reportThen {g : Unit → Checker β} [∀ u, Steady (g u)] (loc : Loc) (e : TypeError) :
    Passes (Checker.report loc e >>= g) s Q := fun h =>
  absurd (errors_of_bind h) (errors_report_ne loc e s)

theorem look {g : State → Checker β} (h : Passes (g s) s Q) : Passes (get >>= g) s Q := h

theorem lookup {name : String} {g : Option Entry → Checker β}
    (h : Passes (g (s.scopes.lookup? name)) s Q) :
    Passes (Checker.lookup name >>= g) s Q := h

end Passes

/-! ## Single checks -/

theorem resultTy_passes (loc : Loc) (r : Except TypeError Ty) :
    Passes (resultTy loc r) s fun ty => r = .ok ty := by
  cases r with
  | ok ty => exact .pure rfl
  | error e => exact .reportThen loc e

theorem nameTy_passes (loc : Loc) (x : String) (hs : s.undeclared = []) :
    Passes (nameTy loc x) s fun ty => ∃ isArray, s.scopes.lookup? x = some (.var ty isArray) := by
  refine .lookup ?_
  split
  · next ty isArray hx => exact .pure ⟨isArray, hx⟩
  · exact .reportThen loc _
  · -- the name was not reported before, so it is reported now
    refine .look ?_
    simp only [hs, contains_nil]
    intro h
    exact absurd h (errors_report_ne loc (.undeclaredVariable x)
      { s with undeclared := x :: s.undeclared })

theorem requireInt_passes (loc : Loc) (e : Ty → TypeError) (hty : ty ≠ .unknown) :
    Passes (requireInt loc ty e) s fun _ => ty = .int := by
  unfold requireInt
  split
  · next hint => exact .pure (hint.resolve_right hty)
  · exact .report loc _

theorem requireAccepted_passes (loc : Loc) (e : TypeError) (hty : ty ≠ .unknown)
    (hty' : ty' ≠ .unknown) : Passes (requireAccepted loc ty ty' e) s fun _ => ty.accepts ty' := by
  unfold requireAccepted
  split
  · next hacc => exact .pure ((hacc.resolve_left hty).resolve_left hty')
  · exact .report loc _

theorem requireIndexable_passes (base : Tree) :
    Passes (requireIndexable base) s fun _ => Indexable s.scopes base := by
  unfold requireIndexable Indexable
  split
  · refine .lookup ?_
    split
    · next ty hx =>
      split
      · next hty => exact .pure (by simp [hx, hty])
      · exact .report _ _
    · next hx => exact .pure fun _ ty hty => absurd hty (hx ty)
  · next hk => exact .pure fun h => absurd h hk

theorem requireShape_passes (arg : Tree) (e : TypeError) (wantsArray : Bool) :
    Passes (requireShape arg e wantsArray) s fun _ => HasShape s.scopes arg wantsArray := by
  unfold requireShape HasShape
  split
  · refine .lookup ?_
    split
    · next ty isArray hx =>
      split
      · next ha => exact .pure (by simp [hx, ha])
      · exact .report _ _
    · next hx => exact .pure fun _ ty isArray hty => absurd hty (hx ty isArray)
  · next hk => exact .pure fun h => absurd h hk

theorem callee?_passes (f : Tree) :
    Passes (callee? f) s fun r => f.kind = .identifier ∧ ∃ ty params, r = some (ty, params) ∧
      s.scopes.lookup? f.text = some (.function ty params) := by
  unfold callee?
  split
  · next hk =>
    refine .lookup ?_
    split
    · next ty params hx => exact .pure ⟨hk, ty, params, rfl, hx⟩
    · exact .reportThen _ _
    · exact .reportThen _ _
  · exact .reportThen _ _

theorem stringBase?_passes (target : Tree) :
    Passes (stringBase? target) s fun r => r = none → ∀ base i rest, target.kind = .index →
      target.children = base :: i :: rest →
        s.scopes.lookup? base.text ≠ some (.var .string false) := by
  unfold stringBase?
  split
  · next base rest hk hc =>
    refine .lookup ?_
    split
    · exact .pure fun h => (by cases h)
    · next hx =>
      refine .pure fun _ base' i rest' _ hc' => ?_
      rw [hc] at hc'
      obtain rfl := (cons.inj hc').1
      exact hx
  · next hne => exact .pure fun _ base i rest hk hc => absurd hc (hne base (i :: rest) hk)

theorem assignmentTy_passes (loc : Loc) (target : Tree) (hty : ty ≠ .unknown)
    (hty' : ty' ≠ .unknown) :
    Passes (assignmentTy loc target ty ty') s fun r => r = ty ∧ ty.accepts ty' ∧
      ∀ base i rest, target.kind = .index → target.children = base :: i :: rest →
        s.scopes.lookup? base.text ≠ some (.var .string false) := by
  refine .bind' (fun base? => by split <;> infer_instance) (stringBase?_passes target)
    fun base? hbase => ?_
  split
  · exact .reportThen _ _
  · exact (requireAccepted_passes loc _ hty hty').bind fun _ hacc => .pure ⟨rfl, hacc, hbase rfl⟩

/-! ## Expressions -/

theorem exists_eq_nameAt (h : IsExpr N t) (hk : t.kind = .identifier) :
    ∃ x loc, t = .nameAt x loc := by
  cases h with
  | identifier x loc => exact ⟨x, loc, rfl⟩
  | _ => cases hk

theorem hasType_assign (loc : Loc) {target value : Tree} (ht : IsExpr N target)
    (ha : isAssignable target) (htarget : HasType Γ target ty) (hvalue : HasType Γ value ty')
    (hacc : ty.accepts ty') (hstring : ∀ base i rest, target.kind = .index →
      target.children = base :: i :: rest → Γ.lookup? base.text ≠ some (.var .string false)) :
    HasType Γ ⟨.assign, "=", false, loc, [target, value]⟩ ty := by
  cases ht with
  | identifier x loc' =>
    cases htarget with
    | var _ _ _ isArray hx => exact .assign loc loc' x value ty ty' isArray hx hvalue hacc
  | index loc' base i hb _ hi =>
    have hk : base.kind = .identifier := by simpa [isAssignable] using ha
    obtain ⟨x, loc'', rfl⟩ := exists_eq_nameAt hb hk
    cases htarget with
    | index _ _ _ _ hbase _ hint hindex =>
      cases hbase with
      | var _ _ _ isArray hx =>
        cases isArray with
        | true => exact .assignItem loc loc' loc'' x i value ty ty' hx hint hvalue hacc
        | false =>
          obtain rfl := hindex rfl ty hx
          exact absurd hx (hstring _ i [] rfl rfl)
  | _ => cases ha

mutual

/-- **Expressions without errors are typed.** -/
theorem expression_passes (hs : s.undeclared = []) (hΓ : s.scopes.Known) {t : Tree} :
    IsExpr N t → Passes (expression t) s (HasType s.scopes t)
  | .number text loc => by
    unfold expression
    exact .pure (.number text loc)
  | .string text loc => by
    unfold expression
    exact .pure (.string text loc)
  | .identifier x loc _ => by
    unfold expression
    exact (nameTy_passes loc x hs).mono fun ty ⟨isArray, hx⟩ => .var x loc ty isArray hx
  | .unary op loc e he => by
    unfold expression
    refine (expression_passes hs hΓ he).bind fun ty hty => ?_
    rw [if_neg (hty.ne_unknown hΓ)]
    exact (resultTy_passes loc _).mono fun ty' h => .unary op loc e ty ty' hty h
  | .binary op loc l r hl hr => by
    unfold expression
    refine (expression_passes hs hΓ hl).bind fun ty hty =>
      (expression_passes hs hΓ hr).bind fun ty' hty' => ?_
    rw [if_neg (not_or.mpr ⟨hty.ne_unknown hΓ, hty'.ne_unknown hΓ⟩)]
    exact (resultTy_passes loc _).mono fun ty'' h => .binary op loc l r ty ty' ty'' hty hty' h
  | .comma loc l r hl hr => by
    unfold expression lastTy lastTy lastTy
    refine (expression_passes hs hΓ hl).bind fun ty hty =>
      (expression_passes hs hΓ hr).bind fun ty' hty' => ?_
    exact .pure (.comma loc l r ty ty' hty hty')
  | .assign loc target value ht hv => by
    unfold expression
    dsimp only
    split
    · next ha =>
      refine (expression_passes hs hΓ ht).bind fun ty hty =>
        (expression_passes hs hΓ hv).bind fun ty' hty' => ?_
      refine (assignmentTy_passes loc target (hty.ne_unknown hΓ) (hty'.ne_unknown hΓ)).mono ?_
      rintro _ ⟨rfl, hacc, hstring⟩
      exact hasType_assign loc ht ha hty hty' hacc hstring
    · exact .reportThen _ _
  | .call loc f args hf _ hargs => by
    unfold expression
    refine .bind' (fun callee => by split <;> infer_instance) (callee?_passes f)
      fun callee hcallee => ?_
    obtain ⟨hk, ty, params, rfl, hlookup⟩ := hcallee
    obtain ⟨x, loc', rfl⟩ := exists_eq_nameAt hf hk
    dsimp only
    split
    · next hlen =>
      have hparams := (hΓ x _ hlookup).2
      refine (arguments_passes hs hΓ hargs x 1 params hlen hparams).bind fun _ hargs => ?_
      exact .pure (.call loc loc' x args ty params hlookup hargs)
    · exact .reportThen _ _
  | .index loc base i hb hk hi => by
    unfold expression
    refine (expression_passes hs hΓ hb).bind fun ty hty =>
      (expression_passes hs hΓ hi).bind fun ty' hty' => ?_
    refine (requireInt_passes i.loc _ (hty'.ne_unknown hΓ)).bind fun _ hint => ?_
    refine (requireIndexable_passes base).bind fun _ hindex => .pure ?_
    exact .index loc base i ty hty hk (hint ▸ hty') hindex

theorem arguments_passes (hs : s.undeclared = []) (hΓ : s.scopes.Known) {args : List Tree} :
    AreExprs N args →
    ∀ (f : String) (position : Nat) (params : List (Ty × Bool)),
      args.length = params.length → (∀ p ∈ params, p.1.IsValue) →
      Passes (arguments f position params args) s fun _ => HasArgs s.scopes params args
  | .nil, f, position, params, hlen, _ => by
    unfold arguments
    obtain rfl := eq_nil_of_length_eq_zero hlen.symm
    exact .pure .nil
  | .cons arg args ha hargs, f, position, params, hlen, hparams => by
    unfold arguments
    match params with
    | [] => cases hlen
    | (ty, isArray) :: params =>
      have ⟨hty, hrest⟩ := forall_mem_cons.mp hparams
      refine (expression_passes hs hΓ ha).bind fun ty' hty' => ?_
      have hcheck : Passes (checkArgument f position arg ty' (some (ty, isArray))) s fun _ =>
          ty.accepts ty' ∧ HasShape s.scopes arg isArray :=
        (requireAccepted_passes _ _ hty.2 (hty'.ne_unknown hΓ)).bind fun _ hacc =>
          (requireShape_passes arg _ isArray).mono fun _ hshape => ⟨hacc, hshape⟩
      refine hcheck.bind fun _ ⟨hacc, hshape⟩ => ?_
      refine (arguments_passes hs hΓ hargs f (position + 1) params (Nat.succ.inj hlen) hrest).mono
        fun _ h => ?_
      exact .cons ty ty' isArray params arg args hty' hacc hshape h

end

/-! ## Statements -/

def State.withScopes (s : State) (Γ : Scopes) : State := { s with scopes := Γ }

theorem inScope_eq {x : Checker Unit} [Steady x]
    (h : x (s.withScopes ([] :: s.scopes)) = ((), s.withScopes Γ)) : inScope x s = ((), s) := by
  have happ : inScope x s = ((), s.withScopes Γ.tail) :=
    congrArg (fun p : Unit × State => ((), p.2.withScopes p.2.scopes.tail)) h
  have htail := scopes_inScope x s
  rw [happ] at htail ⊢
  exact congrArg (fun Γ => ((), s.withScopes Γ)) htail

/-- If a check finds no errors, then it changes nothing but the scopes, and the new ones have the
property `P`. -/
def Goes (x : Checker Unit) (s : State) (P : Scopes → Prop) : Prop :=
  (x s).2.errors = #[] → ∃ Γ, P Γ ∧ x s = ((), s.withScopes Γ)

namespace Goes

variable {P Q : Scopes → Prop} {x y : Checker Unit}

theorem of_passes {R : α → Prop} {z : Checker α} (h : Passes z s R) :
    Goes (discard z) s fun Γ => Γ = s.scopes ∧ ∃ a, R a := by
  intro he
  obtain ⟨a, ha, hz⟩ := h he
  refine ⟨s.scopes, ⟨rfl, a, ha⟩, ?_⟩
  rw [show discard z s = ((), (z s).2) from rfl, hz]
  rfl

theorem pure (h : P s.scopes) : Goes (Pure.pure ()) s P := fun _ => ⟨s.scopes, h, rfl⟩

theorem seq [Grows y] (hx : Goes x s P) (hy : ∀ Γ, P Γ → Goes y (s.withScopes Γ) Q) :
    Goes (x >>= fun _ => y) s Q := by
  intro h
  obtain ⟨Γ, hΓ, hxs⟩ := hx (errors_of_bind (f := fun _ => y) h)
  have happ : (x >>= fun _ => y) s = y (s.withScopes Γ) := by rw [bind_apply, hxs]
  rw [happ] at h ⊢
  exact hy Γ hΓ h

theorem mono (hx : Goes x s P) (h : ∀ Γ, P Γ → Q Γ) : Goes x s Q := fun he =>
  let ⟨Γ, hΓ, hxs⟩ := hx he
  ⟨Γ, h Γ hΓ, hxs⟩

theorem after {R : α → Prop} {z : Checker α} {f : α → Checker Unit} [∀ a, Steady (f a)]
    (hz : Passes z s R) (hf : ∀ a, R a → Goes (f a) s Q) : Goes (z >>= f) s Q := by
  intro h
  obtain ⟨a, ha, hzs⟩ := hz (errors_of_bind h)
  have happ : (z >>= f) s = f a s := by rw [bind_apply, hzs]
  rw [happ] at h ⊢
  exact hf a ha h

theorem inScope [Steady x] (hx : Goes x (s.withScopes ([] :: s.scopes)) P) :
    Goes (Checker.inScope x) s fun Γ => Γ = s.scopes ∧ ∃ Γ', P Γ' := by
  intro h
  obtain ⟨Γ, hΓ, hxs⟩ := hx h
  exact ⟨s.scopes, ⟨rfl, Γ, hΓ⟩, inScope_eq hxs⟩

theorem inLoop (hx : Goes x { s with loopDepth := s.loopDepth + 1 } P) :
    Goes (Checker.inLoop x) s P := by
  intro h
  obtain ⟨Γ, hΓ, hxs⟩ := hx h
  refine ⟨Γ, hΓ, ?_⟩
  have happ : Checker.inLoop x s = ((), { (x { s with loopDepth := s.loopDepth + 1 }).2 with
    loopDepth := (x { s with loopDepth := s.loopDepth + 1 }).2.loopDepth - 1 }) := rfl
  rw [happ, hxs]
  rfl

end Goes

theorem declareVar_goes (t : Tree) (ty : Ty) :
    Goes (declareVar t ty) s fun Γ => s.scopes.declare? t.text (.var ty t.isArray) = some Γ := by
  have happ : declareVar t ty s = (if (declare t.text (.var ty t.isArray) s).1 then Pure.pure ()
      else report t.loc (.duplicateVariable t.text)) (declare t.text (.var ty t.isArray) s).2 := rfl
  intro h
  rw [happ, declare_apply] at h ⊢
  cases hd : s.scopes.declare? t.text (.var ty t.isArray) with
  | none =>
    rw [hd] at h
    exact absurd h (errors_report_ne _ _ _)
  | some Γ => exact ⟨Γ, rfl, rfl⟩

/-- What is known where a statement is checked. -/
structure State.Ready (s : State) (ret : Option Ty) (loop : Bool) : Prop where
  undeclared_eq : s.undeclared = []
  known : s.scopes.Known
  ret_eq : ret = if s.inFunction then some s.returnType else none
  isValue : s.inFunction → s.returnType.IsValue
  loop_eq : loop = decide (s.loopDepth ≠ 0)

namespace State.Ready

variable {ret : Option Ty} {loop : Bool}

theorem withScopes (h : s.Ready ret loop) (hΓ : Γ.Known) : (s.withScopes Γ).Ready ret loop :=
  ⟨h.undeclared_eq, hΓ, h.ret_eq, h.isValue, h.loop_eq⟩

theorem inLoop (h : s.Ready ret loop) :
    State.Ready { s with loopDepth := s.loopDepth + 1 } ret true :=
  ⟨h.undeclared_eq, h.known, h.ret_eq, h.isValue, by simp⟩

end State.Ready

theorem declarator_goes {d : Tree} (hd : IsDeclarator N d) (hty : ty.IsValue)
    (hs : s.undeclared = []) (hΓ : s.scopes.Known) :
    Goes (declarator ty d) s fun Γ => Declares N ty s.scopes d Γ ∧ Γ.Known := by
  cases hd with
  | plain x loc hx =>
    refine (declareVar_goes _ ty).mono fun Γ h => ⟨.plain x loc Γ hx h, hΓ.declare h hty⟩
  | initial x loc e hx he =>
    refine .after (expression_passes hs hΓ he) fun ty' hty' => ?_
    refine .after (requireAccepted_passes _ _ hty.2 (hty'.ne_unknown hΓ)) fun _ hacc => ?_
    exact (declareVar_goes _ ty).mono fun Γ h =>
      ⟨.initial x loc e ty' Γ hx hty' hacc h, hΓ.declare h hty⟩
  | array x loc e hx he =>
    refine .after (expression_passes hs hΓ he) fun ty' hty' => ?_
    refine .after (requireInt_passes _ _ (hty'.ne_unknown hΓ)) fun _ hint => ?_
    exact (declareVar_goes _ ty).mono fun Γ h =>
      ⟨.array x loc e Γ hx (hint ▸ hty') h, hΓ.declare h hty⟩

theorem declarators_goes {ds : List Tree} (hds : ∀ d ∈ ds, IsDeclarator N d) (hty : ty.IsValue)
    (hs : s.undeclared = []) (hΓ : s.scopes.Known) :
    Goes (ds.forM (declarator ty)) s fun Γ => DeclaresAll N ty s.scopes ds Γ ∧ Γ.Known := by
  induction ds generalizing s with
  | nil => exact .pure ⟨.nil s.scopes, hΓ⟩
  | cons d ds ih =>
    obtain ⟨hd, hds⟩ := forall_mem_cons.mp hds
    have hfirst := declarator_goes hd hty hs hΓ
    refine .seq hfirst fun Γ ⟨hΓ', hknown⟩ => ?_
    refine (ih (s := s.withScopes Γ) hds hs hknown).mono fun Γ'' ⟨hΓ'', hknown'⟩ => ?_
    exact ⟨.cons s.scopes Γ Γ'' d ds hΓ' hΓ'', hknown'⟩

theorem condition_passes {c : Tree} (hc : IsExpr N c) (construct : Construct)
    (hs : s.undeclared = []) (hΓ : s.scopes.Known) :
    Passes (condition construct c) s fun _ => HasType s.scopes c .int := by
  refine (expression_passes hs hΓ hc).bind fun ty hty => ?_
  exact (requireInt_passes c.loc _ (hty.ne_unknown hΓ)).mono fun _ hint => hint ▸ hty

theorem optionalInt_passes {c : Tree} (hc : IsOptional N c) (hs : s.undeclared = [])
    (hΓ : s.scopes.Known) :
    Passes (condition .forLoop c) s fun _ => OptionalInt s.scopes c := by
  cases hc with
  | omitted loc => exact .pure (.omitted loc)
  | expr _ he => exact (condition_passes he .forLoop hs hΓ).mono fun _ h => .expr c h

theorem optionalExpr_passes {e : Tree} (he : IsOptional N e) (hs : s.undeclared = [])
    (hΓ : s.scopes.Known) :
    Passes (expression e) s fun _ => OptionalExpr s.scopes e := by
  cases he with
  | omitted loc => exact .pure (.omitted loc)
  | expr _ he => exact (expression_passes hs hΓ he).mono fun ty h => .expr e ty h

section

variable {loop : Bool} {ret : Option Ty} (h : s.Ready ret loop) (loc : Loc)

include h

theorem requireLoop_goes (e : TypeError) : Passes (requireLoop loc e) s fun _ => loop = true := by
  refine .look ?_
  split
  · exact .report loc e
  · next hdepth => exact .pure (by rw [h.loop_eq]; simpa using hdepth)

theorem returnValue_passes {e : Tree}
    (he : IsExpr N e) :
    Passes (returnValue loc [e]) s fun _ => ∃ ty ty', ret = some ty ∧ HasType s.scopes e ty' ∧
    ty.accepts ty' := by
  refine .look ?_
  dsimp only
  split
  · exact .report loc _
  · next hin =>
    have hin : s.inFunction = true := by simpa using hin
    refine .look ?_
    refine (expression_passes h.undeclared_eq h.known he).bind fun ty' hty' => ?_
    rw [if_neg (h.isValue hin).1]
    refine (requireAccepted_passes _ _ (h.isValue hin).2 (hty'.ne_unknown h.known)).mono
      fun _ hacc => ?_
    exact ⟨s.returnType, ty', by rw [h.ret_eq, if_pos hin], hty', hacc⟩

theorem returnNothing_passes : Passes (returnValue loc []) s fun _ => False := by
  refine .look ?_
  dsimp only
  split
  · exact .report loc _
  · next hin =>
    have hin : s.inFunction = true := by simpa using hin
    refine .look ?_
    rw [if_neg (h.isValue hin).1]
    exact .report loc _

end

theorem branchStatements_block {body : Tree} (h : IsBlock N T body) (rest : List Tree) :
    branchStatements (body :: rest) = statement body >>= fun _ => branchStatements rest := by
  cases h with
  | mk loc ts =>
    rw [branchStatements]
    intro _ _ _ _ _ h
    cases h

theorem isValue_ofTree (h : IsType IsTypeWord t) : (Ty.ofTree t).IsValue := by
  obtain ⟨text, loc, htext⟩ := h
  simp only [IsTypeWord, mem_cons, not_mem_nil, or_false] at htext
  rcases htext with rfl | rfl | rfl | rfl <;> simp [Ty.ofTree, Ty.IsValue]

theorem declaration_goes (ht : IsDeclaration N IsTypeWord t) {ret : Option Ty} {loop : Bool}
    (h : s.Ready ret loop) :
    Goes (statement t) s fun Γ => Typed N ret loop s.scopes t Γ ∧ Γ.Known := by
  obtain ⟨loc, ty, d, ds, htype, hd, hds⟩ := ht
  unfold statement
  have hty := isValue_ofTree htype
  have hall : ∀ d' ∈ d :: ds, IsDeclarator N d' := forall_mem_cons.mpr ⟨hd, hds⟩
  refine (declarators_goes hall hty h.undeclared_eq h.known).mono fun Γ ⟨hΓ, hknown⟩ => ?_
  exact ⟨.declaration loop s.scopes Γ loc ty (d :: ds) hty hΓ, hknown⟩

theorem first_goes (ht : IsFirst N IsTypeWord t) {ret : Option Ty} {loop : Bool}
    (h : s.Ready ret loop) :
    Goes (statement t) s fun Γ => Typed N ret loop s.scopes t Γ ∧ Γ.Known := by
  cases ht with
  | omitted loc =>
    unfold statement
    exact .pure ⟨.omitted loop s.scopes loc, h.known⟩
  | declaration _ ht => exact declaration_goes ht h
  | expr loc e he =>
    unfold statement
    refine (Goes.of_passes (expression_passes h.undeclared_eq h.known he)).mono ?_
    rintro _ ⟨rfl, ty, hty⟩
    exact ⟨.exprStmt loop s.scopes loc e ty hty, h.known⟩

mutual

/-- **Statements without errors are typed.** -/
theorem statement_goes {t : Tree} :
    IsStmt N IsTypeWord t → ∀ {s : State} {ret : Option Ty} {loop : Bool},
    s.Ready ret loop → Goes (statement t) s fun Γ => Typed N ret loop s.scopes t Γ ∧ Γ.Known
  | .block t ht, s, ret, loop, h => by
    refine (block_goes ht h).mono ?_
    rintro _ ⟨rfl, hblock⟩
    exact ⟨.block loop s.scopes t hblock, h.known⟩
  | .declaration t ht, s, ret, loop, h => declaration_goes ht h
  | .exprStmt loc e he, s, ret, loop, h => first_goes (.expr loc e he) h
  | .returnNothing loc, s, ret, loop, h => by
    unfold statement
    refine (Goes.of_passes (returnNothing_passes h loc)).mono ?_
    rintro _ ⟨_, _, hfalse⟩
    exact hfalse.elim
  | .returnValue loc e he, s, ret, loop, h => by
    unfold statement
    refine (Goes.of_passes (returnValue_passes h loc he)).mono ?_
    rintro _ ⟨rfl, _, ty, ty', hret, hty', hacc⟩
    exact ⟨.returnStmt loop s.scopes loc e ty ty' hret hty' hacc, h.known⟩
  | .breakStmt loc, s, ret, loop, h => by
    unfold statement
    refine (Goes.of_passes (requireLoop_goes h loc _)).mono ?_
    rintro _ ⟨rfl, _, rfl⟩
    exact ⟨.breakStmt s.scopes loc, h.known⟩
  | .continueStmt loc, s, ret, loop, h => by
    unfold statement
    refine (Goes.of_passes (requireLoop_goes h loc _)).mono ?_
    rintro _ ⟨rfl, _, rfl⟩
    exact ⟨.continueStmt s.scopes loc, h.known⟩
  | .conditional loc c body rest hc hbody hrest, s, ret, loop, h => by
    unfold statement
    refine .after (condition_passes hc _ h.undeclared_eq h.known) fun _ hint => ?_
    rw [branchStatements_block hbody]
    refine .seq (block_goes hbody h) ?_
    rintro _ ⟨rfl, hblock⟩
    refine (branches_goes hrest h).mono ?_
    rintro _ ⟨rfl, hbranches⟩
    exact ⟨.conditional loop s.scopes loc c body rest hint hblock hbranches, h.known⟩
  | .whileLoop loc c body hc hbody, s, ret, loop, h => by
    unfold statement
    refine .after (condition_passes hc _ h.undeclared_eq h.known) fun _ hint => ?_
    have hbodies : Goes (statements [body]) { s with loopDepth := s.loopDepth + 1 } fun Γ =>
        Γ = s.scopes ∧ TypedBlock N ret true s.scopes body := by
      unfold statements statements
      refine .seq (block_goes hbody h.inLoop) ?_
      rintro _ ⟨rfl, hblock⟩
      exact .pure ⟨rfl, hblock⟩
    refine (Goes.inLoop hbodies).mono ?_
    rintro _ ⟨rfl, hblock⟩
    exact ⟨.whileLoop loop s.scopes loc c body hint hblock, h.known⟩
  | .doWhile loc body c hbody hc, s, ret, loop, h => by
    unfold statement
    refine .seq (Goes.inLoop (block_goes hbody h.inLoop)) ?_
    rintro _ ⟨rfl, hblock⟩
    refine (Goes.of_passes (condition_passes hc _ h.undeclared_eq h.known)).mono ?_
    rintro _ ⟨rfl, _, hint⟩
    exact ⟨.doWhile loop s.scopes loc body c hblock hint, h.known⟩
  | .forLoop loc first c step body hfirst hc hstep hbody, s, ret, loop, h => by
    unfold statement forStatements
    have hparts : Goes (do
        statement first
        condition .forLoop c
        discard (expression step)
        inLoop (statement body)) (s.withScopes ([] :: s.scopes)) fun Γ =>
          Typed N ret loop ([] :: s.scopes) first Γ ∧ OptionalInt Γ c ∧ OptionalExpr Γ step ∧
            TypedBlock N ret true Γ body := by
      refine .seq (first_goes hfirst (h.withScopes h.known.enter)) fun Γ ⟨hΓ, hknown⟩ => ?_
      have h' := h.withScopes hknown
      refine .after (optionalInt_passes hc h'.undeclared_eq h'.known) fun _ hint => ?_
      refine .seq (.of_passes (optionalExpr_passes hstep h'.undeclared_eq h'.known)) ?_
      rintro _ ⟨rfl, _, hexpr⟩
      refine (Goes.inLoop (block_goes hbody h'.inLoop)).mono ?_
      rintro _ ⟨rfl, hblock⟩
      exact ⟨hΓ, hint, hexpr, hblock⟩
    refine (Goes.inScope hparts).mono ?_
    rintro _ ⟨rfl, Γ, hfirst, hint, hexpr, hblock⟩
    exact ⟨.forLoop loop s.scopes Γ loc first c step body hfirst hint hexpr hblock, h.known⟩

theorem block_goes {t : Tree} :
    IsBlock N IsTypeWord t → ∀ {s : State} {ret : Option Ty} {loop : Bool},
    s.Ready ret loop → Goes (statement t) s fun Γ => Γ = s.scopes ∧ TypedBlock N ret loop s.scopes t
  | .mk loc ts hts, s, ret, loop, h => by
    unfold statement
    refine (Goes.inScope (statements_goes hts (h.withScopes h.known.enter))).mono ?_
    rintro _ ⟨rfl, Γ', hΓ'⟩
    exact ⟨rfl, .mk loop s.scopes Γ' loc ts hΓ'⟩

theorem statements_goes {ts : List Tree} :
    AreStmts N IsTypeWord ts → ∀ {s : State} {ret : Option Ty} {loop : Bool},
    s.Ready ret loop → Goes (statements ts) s (TypedAll N ret loop s.scopes ts)
  | .nil, s, ret, loop, h => by
    unfold statements
    exact .pure (.nil loop s.scopes)
  | .cons t ts ht hts, s, ret, loop, h => by
    unfold statements
    refine .seq (statement_goes ht h) fun Γ ⟨hΓ, hknown⟩ => ?_
    refine (statements_goes hts (h.withScopes hknown)).mono fun Γ' hΓ' => ?_
    exact .cons loop s.scopes Γ Γ' t ts hΓ hΓ'

theorem branches_goes {ts : List Tree} :
    AreBranches N IsTypeWord ts → ∀ {s : State} {ret : Option Ty} {loop : Bool},
    s.Ready ret loop → Goes (branchStatements ts) s fun Γ => Γ = s.scopes ∧
    TypedBranches N ret loop s.scopes ts
  | .nil, s, ret, loop, h => by
    unfold branchStatements
    exact .pure ⟨rfl, .nil loop s.scopes⟩
  | .last body hbody, s, ret, loop, h => by
    rw [branchStatements_block hbody]
    unfold branchStatements
    refine .seq (block_goes hbody h) ?_
    rintro _ ⟨rfl, hblock⟩
    exact .pure ⟨rfl, .last loop s.scopes body hblock⟩
  | .elseIf loc c body ts hc hbody hts, s, ret, loop, h => by
    unfold branchStatements
    refine .after (condition_passes hc _ h.undeclared_eq h.known) fun _ hint => ?_
    have hbodies : Goes (statements [body]) s fun Γ => Γ = s.scopes ∧
        TypedBlock N ret loop s.scopes body := by
      unfold statements statements
      refine .seq (block_goes hbody h) ?_
      rintro _ ⟨rfl, hblock⟩
      exact .pure ⟨rfl, hblock⟩
    refine .seq hbodies ?_
    rintro _ ⟨rfl, hblock⟩
    refine (branches_goes hts h).mono ?_
    rintro _ ⟨rfl, hbranches⟩
    exact ⟨rfl, .elseIf loop s.scopes loc c body ts hint hblock hbranches⟩

end

/-! ## Functions and programs -/

theorem params_goes {ps : List Tree} (hps : ∀ p ∈ ps, IsParameter N IsTypeWord p)
    (hΓ : s.scopes.Known) :
    Goes (ps.forM fun p => declareVar p (parameterTy p)) s fun Γ => TypedParams N s.scopes ps Γ ∧
    Γ.Known := by
  induction ps generalizing s with
  | nil => exact .pure ⟨.nil s.scopes, hΓ⟩
  | cons p ps ih =>
    obtain ⟨hp, hrest⟩ := forall_mem_cons.mp hps
    obtain ⟨x, isArray, loc, ty, hx, htype⟩ := hp
    have hty := isValue_ofTree htype
    refine .seq (declareVar_goes _ _) fun Γ hΓ' => ?_
    refine (ih (s := s.withScopes Γ) hrest (hΓ.declare hΓ' hty)).mono fun Γ'' ⟨hΓ'', hknown⟩ => ?_
    exact ⟨.cons s.scopes Γ Γ'' x isArray loc ty ps hx hty hΓ' hΓ'', hknown⟩

/-- What is known between functions. -/
structure State.Outside (s : State) : Prop where
  ready : s.Ready none false
  inFunction_eq : s.inFunction = false
  returnType_eq : s.returnType = .void

theorem State.Outside.withScopes (h : s.Outside) (hΓ : Γ.Known) : (s.withScopes Γ).Outside :=
  ⟨h.ready.withScopes hΓ, h.inFunction_eq, h.returnType_eq⟩

theorem function_goes (ht : IsFunction N IsTypeWord t) (h : s.Outside) :
    Goes (function t) s fun Γ => Γ = s.scopes ∧ TypedFunction N s.scopes t := by
  obtain ⟨f, loc, ty, ps, body, hf, htype, hps, hbody⟩ := ht
  have hty := isValue_ofTree htype
  have hkinds : ∀ p ∈ ps, p.kind = .parameter := fun p hp => (hps p hp).kind_eq
  have hblock := hbody.kind_eq
  have hparams := parametersOf_function (kind_of_isValue hty) hkinds hblock
  have hbody? := bodyOf?_function ty ps hblock
  let s₁ : State := { s with inFunction := true, undeclared := [], returnType := .ofTree ty }
  have h₁ : s₁.Ready (some (.ofTree ty)) false :=
    ⟨rfl, h.ready.known, rfl, fun _ => hty, h.ready.loop_eq⟩
  have hinside : Goes (inScope do
      ps.forM fun p => declareVar p (parameterTy p)
      statement body) s₁ fun Γ => Γ = s.scopes ∧ ∃ _ : Scopes, TypedFunction N s.scopes
        ⟨.function, f, false, loc, ty :: (ps ++ [body])⟩ := by
    refine Goes.inScope (.seq (params_goes hps h₁.known.enter) fun Γ hparams => ?_)
    obtain ⟨hΓ, hknown⟩ := hparams
    refine (block_goes hbody (h₁.withScopes hknown)).mono ?_
    rintro _ ⟨rfl, htyped⟩
    exact .mk f loc ty ps body _ hf hty hΓ htyped
  intro he
  have happ : function ⟨.function, f, false, loc, ty :: (ps ++ [body])⟩ s =
      ((), { ((inScope do
        ps.forM fun p => declareVar p (parameterTy p)
        statement body) s₁).2 with inFunction := false, returnType := .void }) := by
    unfold function
    rw [hparams, hbody?]
    rfl
  rw [happ] at he ⊢
  obtain ⟨Γ, ⟨rfl, _, htyped⟩, hrun⟩ := hinside he
  refine ⟨s.scopes, ⟨rfl, htyped⟩, ?_⟩
  rw [hrun]
  obtain ⟨⟩ := s
  obtain rfl := h.inFunction_eq
  obtain rfl := h.returnType_eq
  obtain rfl := h.ready.undeclared_eq
  rfl

theorem kind_ne_function (h : IsStmt N T t) : t.kind ≠ .function := by
  cases h with
  | block _ hb => obtain ⟨⟩ := hb; exact nofun
  | declaration _ hd => obtain ⟨⟩ := hd; exact nofun
  | _ => exact nofun

theorem items_goes {ts : List Tree} (hts : ∀ t ∈ ts, IsItem N IsTypeWord t) (h : s.Outside) :
    Goes (ts.forM item) s fun _ => TypedItems N s.scopes ts := by
  induction ts generalizing s with
  | nil => exact .pure (.nil s.scopes)
  | cons t ts ih =>
    obtain ⟨ht, hts⟩ := forall_mem_cons.mp hts
    cases ht with
    | function ht =>
      have hk : t.kind = .function := by obtain ⟨⟩ := ht; rfl
      have hitem : item t = function t := if_pos hk
      have hfirst : Goes (item t) s fun Γ => Γ = s.scopes ∧ TypedFunction N s.scopes t :=
        hitem ▸ function_goes ht h
      refine .seq hfirst ?_
      rintro _ ⟨rfl, htyped⟩
      exact (ih hts h).mono fun _ hitems => .function s.scopes t ts htyped hitems
    | stmt ht =>
      have hk := kind_ne_function ht
      have hitem : item t = statement t := if_neg hk
      have hfirst : Goes (item t) s fun Γ => Typed N none false s.scopes t Γ ∧ Γ.Known :=
        hitem ▸ statement_goes ht h.ready
      refine .seq hfirst fun Γ ⟨hΓ, hknown⟩ => ?_
      exact (ih hts (h.withScopes hknown)).mono fun _ hitems => .stmt s.scopes Γ t ts hk hΓ hitems

theorem declareFunction_goes (t : Tree) :
    Goes (declareFunction t) s fun Γ => s.scopes.declare? t.text (.ofChildren t.children) =
      some Γ := by
  have happ : declareFunction t s =
    (if (declare t.text (.ofChildren t.children) s).1 then Pure.pure ()
      else report t.loc (.duplicateFunction t.text)) (declare t.text (.ofChildren t.children)
        s).2 := rfl
  intro h
  rw [happ, declare_apply] at h ⊢
  cases hd : s.scopes.declare? t.text (.ofChildren t.children) with
  | none =>
    rw [hd] at h
    exact absurd h (errors_report_ne _ _ _)
  | some Γ => exact ⟨Γ, rfl, rfl⟩

theorem declareFunctions_goes {fs : List Tree} (hfs : ∀ f ∈ fs, IsFunction N IsTypeWord f)
    (hΓ : s.scopes.Known) :
    Goes (fs.forM declareFunction) s fun Γ => DeclaresFunctions s.scopes fs Γ ∧ Γ.Known := by
  induction fs generalizing s with
  | nil => exact .pure ⟨.nil s.scopes, hΓ⟩
  | cons f fs ih =>
    obtain ⟨hf, hrest⟩ := forall_mem_cons.mp hfs
    have hknown : (Entry.ofChildren f.children).Known := by
      obtain ⟨x, loc, ty, ps, body, -, htype, hps, hbody⟩ := hf
      have hkinds : ∀ p ∈ ps, p.kind = .parameter := fun p hp => (hps p hp).kind_eq
      have hblock := hbody.kind_eq
      have hty := isValue_ofTree htype
      refine ⟨hty.2, fun p hp => ?_⟩
      rw [parametersOf_function (kind_of_isValue hty) hkinds hblock] at hp
      obtain ⟨q, hq, rfl⟩ := mem_map.mp hp
      obtain ⟨_, _, _, ty', _, htype'⟩ := hps q hq
      exact isValue_ofTree htype'
    refine .seq (declareFunction_goes f) fun Γ hΓ' => ?_
    refine (ih (s := s.withScopes Γ) hrest (hΓ.declare hΓ' hknown)).mono
      fun Γ'' ⟨hΓ'', hknown⟩ => ?_
    exact ⟨.cons s.scopes Γ Γ'' f fs hΓ' hΓ'', hknown⟩

theorem builtins_known : Scopes.Known [Scopes.builtins] := by
  intro x e h
  have h' : Scopes.builtins.lookup x = some e := by simpa [Scopes.lookup?] using h
  rw [Scopes.lookup_builtins, Option.map_eq_some_iff] at h'
  obtain ⟨b, -, rfl⟩ := h'
  exact Entry.ofBuiltin_known b

/-- **Programs without errors are typed.** -/
theorem program_typed (ht : ∀ c ∈ t.children, IsItem N IsTypeWord c) (h : t.typeErrors = #[]) :
    TypedProgram N t := by
  let s₀ : State := { scopes := [Scopes.builtins] }
  have hfunctions : ∀ f ∈ t.children.filter (fun c => c.kind == .function),
      IsFunction N IsTypeWord f := by
    intro f hf
    obtain ⟨hmem, hk⟩ := mem_filter.mp hf
    cases ht f hmem with
    | function hf => exact hf
    | stmt hs => exact absurd (beq_iff_eq.mp hk) (kind_ne_function hs)
  have hout : s₀.Outside :=
    ⟨⟨rfl, builtins_known, rfl, fun h => absurd h Bool.false_ne_true, rfl⟩, rfl, rfl⟩
  have hgo : Goes (program t) s₀ fun _ => TypedProgram N t := by
    refine .seq (declareFunctions_goes hfunctions hout.ready.known) fun Γ ⟨hΓ, hknown⟩ => ?_
    exact (items_goes ht (hout.withScopes hknown)).mono fun _ hitems => ⟨Γ, hΓ, hitems⟩
  exact (hgo h).choose_spec.1

end Checker

/-- **Accepted sources are typed programs**, and their code is that of the tree. -/
theorem compile_typed {source : String} {p : Program} (h : compile source = .ok p) :
    TypedProgram IsName (parse source).1 ∧ p = (parse source).1.lower := by
  unfold compile at h
  dsimp only at h
  split at h
  · split at h
    · next herrors =>
      refine ⟨Checker.program_typed ?_ (Array.isEmpty_iff.mp herrors), (Except.ok.inj h).symm⟩
      exact parse_isItem standIns_source (Token.scan_fits source)
    · cases h
  · cases h

end Stacklet
