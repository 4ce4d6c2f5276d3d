import Stacklet.Proofs.Typing.Completeness
/-!
# Computations in tandem

* `Tandem`: computations that lead from related states to related states, with related results.
  There is one rule for each way to put computations together.
* `Checker.Stable`: relations between states that the single steps of checks keep. Checks that go on
  in tandem are related by a congruence then (`Checker.Stable.congruence`).
-/

namespace Stacklet

/-- Computations that lead from related states to related states, with related results. -/
def Tandem {σ α β : Type} (S : σ → σ → Prop) (R : α → β → Prop) (x : StateM σ α)
    (x' : StateM σ β) : Prop :=
  ∀ s s' : σ, S s s' → R (x s).1 (x' s').1 ∧ S (x s).2 (x' s').2

namespace Tandem

variable {σ α α' β β' : Type} {S : σ → σ → Prop} {R : α → α' → Prop} {Q : β → β' → Prop}

theorem pure {a : α} {a' : α'} (h : R a a') : Tandem S R (Pure.pure a) (Pure.pure a') :=
  fun _ _ hs => ⟨h, hs⟩

theorem bind {x : StateM σ α} {x' : StateM σ α'} {f : α → StateM σ β} {f' : α' → StateM σ β'}
    (hx : Tandem S R x x') (hf : ∀ a a', R a a' → Tandem S Q (f a) (f' a')) :
    Tandem S Q (x >>= f) (x' >>= f') := by
  intro s s' hs
  obtain ⟨hR, hs'⟩ := hx s s' hs
  exact hf _ _ hR _ _ hs'

theorem bindEq {x x' : StateM σ α} {f : α → StateM σ β} {f' : α → StateM σ β'}
    (hx : Tandem S Eq x x') (hf : ∀ a, Tandem S Q (f a) (f' a)) :
    Tandem S Q (x >>= f) (x' >>= f') :=
  hx.bind fun a _ h => h ▸ hf a

theorem read : Tandem S S (get : StateM σ σ) get := fun _ _ hs => ⟨hs, hs⟩

theorem change {g g' : σ → σ} (h : ∀ s s', S s s' → S (g s) (g' s')) :
    Tandem S Eq (modify g : StateM σ Unit) (modify g') :=
  fun s s' hs => ⟨rfl, h s s' hs⟩

theorem ite {p : Prop} [Decidable p] {x y : StateM σ α} {x' y' : StateM σ α'} (hx : Tandem S R x x')
    (hy : Tandem S R y y') :
    Tandem S R (if p then x else y) (if p then x' else y') := by
  split
  · exact hx
  · exact hy

theorem forM {M : Loc → Loc → Prop} {f f' : Tree → StateM σ Unit}
    (h : ∀ t t', Tree.Like M t t' → Tandem S Eq (f t) (f' t')) {ts ts' : List Tree}
    (hts : Tree.AllLike M ts ts') : Tandem S Eq (ts.forM f) (ts'.forM f') := by
  induction hts with
  | nil => exact .pure rfl
  | cons ht _ ih => exact (h _ _ ht).bindEq fun _ => ih

end Tandem

namespace Checker

/-- States that are equal but for the errors and the undeclared names. -/
structure State.Alike (s s' : State) : Prop where
  scopes_eq : s'.scopes = s.scopes
  inFunction_eq : s'.inFunction = s.inFunction
  loopDepth_eq : s'.loopDepth = s.loopDepth
  returnType_eq : s'.returnType = s.returnType

/-- What the check of a name does if it is not declared. -/
def State.note (s : State) (loc : Loc) (x : String) : State :=
  if s.undeclared.contains x then s
  else { s with undeclared := x :: s.undeclared,
                errors := s.errors.push ⟨loc, .undeclaredVariable x⟩ }

theorem nameTy_of_none {s : State} {x : String} (h : s.scopes.lookup? x = none) (loc : Loc) :
    nameTy loc x s = (.unknown, s.note loc x) := by
  rw [nameTy, lookup_bind, h]
  dsimp only
  rw [get_bind_apply, State.note]
  cases s.undeclared.contains x <;> rfl

/-- A relation between states that single steps of checks keep, if they are made at places that `M`
relates. -/
structure Stable (M : Loc → Loc → Prop) (S : State → State → Prop) : Prop where
  alike {s s' : State} : S s s' → s.Alike s'
  withScopes {s s' : State} : S s s' → ∀ Γ, S (s.withScopes Γ) (s'.withScopes Γ)
  withDepth {s s' : State} : S s s' → ∀ n, S { s with loopDepth := n } { s' with loopDepth := n }
  report {s s' : State} {loc loc' : Loc} {e : TypeError} : S s s' → M loc loc' →
    e.isLasting = true →
    S (report loc e s).2 (report loc' e s').2
  note {s s' : State} {loc loc' : Loc} : S s s' → M loc loc' →
    ∀ x, S (s.note loc x) (s'.note loc' x)

/-- **Checks go on in tandem** if their single steps do. -/
theorem Stable.congruence {M : Loc → Loc → Prop} {S : State → State → Prop} (h : Stable M S) :
    Congruence M (Tandem S Eq) where
  pure_rel _ := .pure rfl
  bind_rel hx hf := hx.bindEq hf
  around_rel _ _ hf := Tandem.read.bind fun s s' hs => by
    rw [(h.alike hs).inFunction_eq, (h.alike hs).returnType_eq, (h.alike hs).loopDepth_eq]
    exact hf _ _ _
  lookup_rel x s s' hs := ⟨congrArg (Scopes.lookup? · x) (h.alike hs).scopes_eq.symm, hs⟩
  declare_rel x e s s' hs := by
    rw [declare_apply, declare_apply, (h.alike hs).scopes_eq]
    cases s.scopes.declare? x e with
    | none => exact ⟨rfl, hs⟩
    | some Γ => exact ⟨rfl, h.withScopes hs Γ⟩
  inScope_rel hx := by
    refine (Tandem.change fun s s' hs => ?_).bindEq fun _ => hx.bindEq fun _ =>
      .change fun s s' hs => ?_
    · rw [(h.alike hs).scopes_eq]
      exact h.withScopes hs _
    · rw [(h.alike hs).scopes_eq]
      exact h.withScopes hs _
  inLoop_rel hx := by
    refine (Tandem.change fun s s' hs => ?_).bindEq fun _ => hx.bindEq fun _ =>
      .change fun s s' hs => ?_
    · rw [(h.alike hs).loopDepth_eq]
      exact h.withDepth hs _
    · rw [(h.alike hs).loopDepth_eq]
      exact h.withDepth hs _
  report_rel hloc he _ _ hs := ⟨rfl, h.report hs hloc he⟩
  nameTy_rel x hloc s s' hs := by
    have hscopes := (h.alike hs).scopes_eq
    rcases hx : s.scopes.lookup? x with _ | e
    · rw [nameTy_of_none hx, nameTy_of_none (hscopes ▸ hx)]
      exact ⟨rfl, h.note hs hloc x⟩
    · rw [nameTy, nameTy, lookup_bind, lookup_bind, hscopes, hx]
      cases e with
      | var ty isArray => exact ⟨rfl, hs⟩
      | function ty params => exact ⟨rfl, h.report hs hloc rfl⟩

end Checker

end Stacklet
