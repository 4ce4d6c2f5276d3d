import Stacklet.Proofs.Typing.Parametric
/-!
# What checks leave alone

* `Checker.State.Extends`: the errors grow at their end, names are only added to the innermost
  scope, and what is known about the function and the loops around stays.
* `Checker.Steady`: checks that keep to this. `steady_congruence`: all checks of expressions and
  statements do, whatever the tree is.
-/

namespace Stacklet.Checker

variable {α β : Type} {s s' s'' : State}

/-- What `x` stands for in the innermost scope. -/
def innermost? (Γ : Scopes) (x : String) : Option Entry := Γ.head?.bind (·.lookup x)

/-- What is left of a state behind a check. -/
structure State.Extends (s s' : State) : Prop where
  errors_grow : s.errors.toList <+: s'.errors.toList
  scopes_eq : ∃ new : Scope, s'.scopes = s.scopes.modifyHead (new ++ ·)
  entries_kept : ∀ x e, innermost? s.scopes x = some e → innermost? s'.scopes x = some e
  inFunction_eq : s'.inFunction = s.inFunction
  loopDepth_eq : s'.loopDepth = s.loopDepth
  returnType_eq : s'.returnType = s.returnType

namespace State.Extends

theorem of_scopes_eq (he : s.errors.toList <+: s'.errors.toList) (hs : s'.scopes = s.scopes)
    (hf : s'.inFunction = s.inFunction) (hl : s'.loopDepth = s.loopDepth)
    (hr : s'.returnType = s.returnType) :
    s.Extends s' where
  errors_grow := he
  scopes_eq := ⟨[], by rw [hs]; cases s.scopes <;> rfl⟩
  entries_kept x e h := by rwa [hs]
  inFunction_eq := hf
  loopDepth_eq := hl
  returnType_eq := hr

theorem refl (s : State) : s.Extends s := .of_scopes_eq List.prefix_rfl rfl rfl rfl rfl

theorem trans (h : s.Extends s') (h' : s'.Extends s'') : s.Extends s'' := by
  obtain ⟨new, hnew⟩ := h.scopes_eq
  obtain ⟨new', hnew'⟩ := h'.scopes_eq
  refine ⟨h.errors_grow.trans h'.errors_grow, ⟨new' ++ new, ?_⟩,
    fun x e hx => h'.entries_kept x e (h.entries_kept x e hx),
    h'.inFunction_eq.trans h.inFunction_eq, h'.loopDepth_eq.trans h.loopDepth_eq,
      h'.returnType_eq.trans h.returnType_eq⟩
  rw [hnew', hnew]
  cases s.scopes with
  | nil => rfl
  | cons scope outer => simp

end State.Extends

/-- A check that keeps to `State.Extends`. -/
class Steady (x : Checker α) : Prop where
  extend : ∀ s : State, s.Extends (x s).2

theorem bind_apply (x : Checker α) (f : α → Checker β) (s : State) :
    (x >>= f) s = f (x s).1 (x s).2 := rfl

instance (a : α) : Steady (pure a : Checker α) := ⟨State.Extends.refl⟩

instance Steady.bind {x : Checker α} {f : α → Checker β} [hx : Steady x] [hf : ∀ a, Steady (f a)] :
    Steady (x >>= f) where
  extend s := (hx.extend s).trans ((hf (x s).1).extend (x s).2)

instance (x : Checker α) [Steady x] : Steady (discard x) where
  extend s := Steady.extend (x := x) s

instance : Steady (get : Checker State) := ⟨State.Extends.refl⟩

instance (p : Prop) [Decidable p] (x y : Checker α) [Steady x]
    [Steady y] : Steady (if p then x else y) := by
  split <;> infer_instance

instance (f : β → Checker Unit) (l : List β) [∀ b, Steady (f b)] : Steady (l.forM f) := by
  induction l with
  | nil => exact inferInstanceAs (Steady (pure ()))
  | cons b l ih => exact inferInstanceAs (Steady (f b >>= fun _ => l.forM f))

instance (loc : Loc) (e : TypeError) : Steady (report loc e) where
  extend s := by
    have happ : (report loc e s).2.errors.toList = s.errors.toList ++ [⟨loc, e⟩] :=
      Array.toList_push
    exact .of_scopes_eq ⟨_, happ.symm⟩ rfl rfl rfl rfl

instance (name : String) : Steady (lookup name) := by unfold lookup; infer_instance

theorem declare_apply (name : String) (e : Entry) (s : State) :
    declare name e s = (s.scopes.declare? name e).elim (false, s) fun scopes =>
      (true, { s with scopes }) := by
  rw [declare, get_bind_apply]
  cases s.scopes.declare? name e <;> rfl

theorem declare?_eq_some {Γ Γ' : Scopes} {x : String} {e : Entry} (h : Γ.declare? x e = some Γ') :
    ∃ scope outer, Γ = scope :: outer ∧ scope.lookup x = none ∧
    Γ' = ((x, e) :: scope) :: outer := by
  cases Γ with
  | nil => cases h
  | cons scope outer =>
    unfold Scopes.declare? at h
    dsimp only at h
    split at h
    · cases h
    · next hfree =>
        exact ⟨scope, outer, rfl, Option.not_isSome_iff_eq_none.mp hfree, (Option.some.inj h).symm⟩

instance (name : String) (e : Entry) : Steady (declare name e) where
  extend s := by
    rw [declare_apply]
    cases h : s.scopes.declare? name e with
    | none => exact .refl s
    | some scopes =>
      obtain ⟨scope, outer, hs, hfree, rfl⟩ := declare?_eq_some h
      refine ⟨List.prefix_rfl, ⟨[(name, e)], by rw [hs]; rfl⟩, fun x e' hx => ?_, rfl, rfl, rfl⟩
      have hx : scope.lookup x = some e' := by rwa [hs] at hx
      have hne : x ≠ name := by
        rintro rfl
        rw [hfree] at hx
        cases hx
      show ((name, e) :: scope).lookup x = some e'
      rwa [List.lookup_cons, beq_false_of_ne hne]

instance (t : Tree) (ty : Ty) : Steady (declareVar t ty) := by unfold declareVar; infer_instance

theorem scopes_inScope (x : Checker Unit) [Steady x] (s : State) :
    (inScope x s).2.scopes = s.scopes := by
  obtain ⟨new, hnew⟩ := (Steady.extend (x := x) { s with scopes := [] :: s.scopes }).scopes_eq
  exact congrArg List.tail hnew

instance (x : Checker Unit) [Steady x] : Steady (inScope x) where
  extend s := by
    have h : { s with scopes := [] :: s.scopes }.Extends
        (x { s with scopes := [] :: s.scopes }).2 :=
      Steady.extend _
    exact .of_scopes_eq h.errors_grow (scopes_inScope x s) h.inFunction_eq h.loopDepth_eq
      h.returnType_eq

instance (x : Checker Unit) [Steady x] : Steady (inLoop x) where
  extend s := by
    have h : { s with loopDepth := s.loopDepth + 1 }.Extends
        (x { s with loopDepth := s.loopDepth + 1 }).2 :=
      Steady.extend _
    exact ⟨h.errors_grow, h.scopes_eq, h.entries_kept, h.inFunction_eq,
      congrArg (· - 1) h.loopDepth_eq, h.returnType_eq⟩

instance (loc : Loc) (ty : Ty) (e : Ty → TypeError) : Steady (requireInt loc ty e) := by
  unfold requireInt; infer_instance

instance (loc : Loc) (ty ty' : Ty) (e : TypeError) : Steady (requireAccepted loc ty ty' e) := by
  unfold requireAccepted; infer_instance

instance (loc : Loc) (r : Except TypeError Ty) : Steady (resultTy loc r) := by
  cases r <;> unfold resultTy <;> infer_instance

instance (names : List String) :
    Steady (modify fun s => { s with undeclared := names ++ s.undeclared }) where
  extend _ := .of_scopes_eq List.prefix_rfl rfl rfl rfl rfl

instance (loc : Loc) (name : String) : Steady (nameTy loc name) := by
  have hnote : Steady (modify fun s => { s with undeclared := name :: s.undeclared }) :=
    inferInstanceAs (Steady (modify fun s => { s with undeclared := [name] ++ s.undeclared }))
  refine @Steady.bind _ _ _ _ inferInstance fun e => ?_
  split <;> infer_instance

instance (arg : Tree) (e : TypeError) (wantsArray : Bool) :
    Steady (requireShape arg e wantsArray) := by
  unfold requireShape
  split
  · refine @Steady.bind _ _ _ _ inferInstance fun e => ?_
    split <;> infer_instance
  · infer_instance

/-! ## Expressions and statements -/

theorem steady_congruence : Congruence Eq fun x _ => Steady x where
  pure_rel _ := inferInstance
  bind_rel hx hf := @Steady.bind _ _ _ _ hx hf
  around_rel _ _ hf := @Steady.bind _ _ _ _ inferInstance fun _ => hf _ _ _
  lookup_rel _ := inferInstance
  declare_rel _ _ := inferInstance
  inScope_rel {x _} (_ : Steady x) := inferInstanceAs (Steady (inScope x))
  inLoop_rel {x _} (_ : Steady x) := inferInstanceAs (Steady (inLoop x))
  report_rel _ _ := inferInstance
  nameTy_rel _ _ := inferInstance

section Trees

variable (t : Tree) (ts : List Tree) (loc : Loc) (ty ty' : Ty)

instance : Steady (assignmentTy loc t ty ty') :=
  steady_congruence.assignmentTy_rel rfl (.refl t) ty ty'

instance : Steady (requireIndexable t) := steady_congruence.requireIndexable_rel (.refl t)

instance : Steady (callee? t) := steady_congruence.callee?_rel (.refl t)

instance (f : String) (position : Nat) (p : Option (Ty × Bool)) :
    Steady (checkArgument f position t ty p) :=
  steady_congruence.checkArgument_rel (.refl t) f position ty p

instance : Steady (expression t) := steady_congruence.expression_rel (.refl t)

instance : Steady (lastTy ty ts) := steady_congruence.lastTy_rel (.refl ts) ty

instance (f : String) (position : Nat) (params : List (Ty × Bool)) :
    Steady (arguments f position params ts) :=
  steady_congruence.arguments_rel (.refl ts) f position params

instance : Steady (declarator ty t) := steady_congruence.declarator_rel (.refl t) ty

instance (c : Construct) : Steady (condition c t) := steady_congruence.condition_rel (.refl t) c

instance : Steady (statement t) := steady_congruence.statement_rel (.refl t)

instance : Steady (statements ts) := steady_congruence.statements_rel (.refl ts)

instance : Steady (branchStatements ts) := steady_congruence.branchStatements_rel (.refl ts)

instance : Steady (forStatements ts) := steady_congruence.forStatements_rel (.refl ts)

instance : Steady (insideFunction t) := steady_congruence.insideFunction_rel (.refl t)

instance : Steady (declareFunction t) := steady_congruence.declareFunction_rel (.refl t)

end Trees

/-! ## Checks without errors -/

/-- A check that adds errors only at the end. -/
class Grows (x : Checker α) : Prop where
  errors_grow : ∀ s : State, s.errors.toList <+: (x s).2.errors.toList

instance (x : Checker α) [Steady x] : Grows x := ⟨fun s => (Steady.extend s).errors_grow⟩

instance Grows.bind {x : Checker α} {f : α → Checker β} [hx : Grows x] [hf : ∀ a, Grows (f a)] :
    Grows (x >>= f) where
  errors_grow s := (hx.errors_grow s).trans ((hf (x s).1).errors_grow (x s).2)

instance (f : β → Checker Unit) (l : List β) [∀ b, Grows (f b)] : Grows (l.forM f) := by
  induction l with
  | nil => exact inferInstanceAs (Grows (pure ()))
  | cons b l ih => exact inferInstanceAs (Grows (f b >>= fun _ => l.forM f))

theorem Grows.modify {f : State → State} (h : ∀ s, (f s).errors = s.errors) : Grows (modify f) where
  errors_grow s := by
    show s.errors.toList <+: (f s).errors.toList
    exact (h s).symm ▸ List.prefix_rfl

instance (t : Tree) : Grows (function t) := by
  refine @Grows.bind _ _ _ _ (.modify fun _ => rfl) fun _ => ?_
  refine @Grows.bind _ _ _ _ (inferInstanceAs (Grows (insideFunction t))) fun _ => ?_
  exact .modify fun _ => rfl

instance (t : Tree) : Grows (item t) := by
  unfold item
  split <;> infer_instance

/-- If no errors are found in the end, none were found on the way. -/
theorem errors_of_bind {x : Checker α} {f : α → Checker β} [∀ a, Grows (f a)] {s : State}
    (h : ((x >>= f) s).2.errors = #[]) : (x s).2.errors = #[] := by
  have hp := Grows.errors_grow (x := f (x s).1) (x s).2
  rw [bind_apply] at h
  rw [h, List.prefix_nil] at hp
  exact Array.toList_eq_nil_iff.mp hp

theorem errors_report_ne (loc : Loc) (e : TypeError) (s : State) :
    (report loc e s).2.errors ≠ #[] :=
  Array.push_ne_empty

end Stacklet.Checker
