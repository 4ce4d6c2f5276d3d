import Mathlib.Data.List.Forall2
import Stacklet.Proofs.Typing.Tandem
/-!
# Checks of like trees

* `Checker.State.Like`: states that differ in the places of their errors only, and these are
  related.
* `Checker.program_tandem`: the checks of like trees go on in tandem.
* **`Tree.Like.typeErrors`**: like trees have the same errors, at related places.
-/

namespace Stacklet

namespace Checker

variable {M : Loc → Loc → Prop} {t t' : Tree}

/-- Equal causes at related places. -/
def SameCause {ε : Type} (M : Loc → Loc → Prop) (e e' : Located ε) : Prop :=
  e'.cause = e.cause ∧ M e.loc e'.loc

/-- States that differ in the places of their errors only. -/
def State.Like (M : Loc → Loc → Prop) (s s' : State) : Prop :=
  ∃ es, s' = { s with errors := es } ∧ List.Forall₂ (SameCause M) s.errors.toList es.toList

theorem State.Like.change {s s' : State} (h : s.Like M s') {g : State → State}
    (hg : ∀ s es, g { s with errors := es } = { g s with errors := es }) : (g s).Like M (g s') := by
  obtain ⟨es, rfl, hes⟩ := h
  have hself : g s = { g s with errors := s.errors } := hg s s.errors
  have herrors : (g s).errors = s.errors := by rw [hself]
  exact ⟨es, hg s es, herrors ▸ hes⟩

theorem State.Like.report {s s' : State} (h : s.Like M s') {loc loc' : Loc} (hloc : M loc loc')
    (e : TypeError) :
    (report loc e s).2.Like M (report loc' e s').2 := by
  obtain ⟨es, rfl, hes⟩ := h
  refine ⟨es.push ⟨loc', e⟩, rfl, ?_⟩
  show List.Forall₂ (SameCause M) (s.errors.push ⟨loc, e⟩).toList _
  rw [Array.toList_push, Array.toList_push]
  exact List.rel_append hes (.cons ⟨rfl, hloc⟩ .nil)

theorem stable_like : Stable M (State.Like M) where
  alike := by
    rintro s _ ⟨es, rfl, -⟩
    exact ⟨rfl, rfl, rfl, rfl⟩
  withScopes h Γ := h.change (g := (·.withScopes Γ)) (by intros; rfl)
  withDepth h n := h.change (g := fun s => { s with loopDepth := n }) (by intros; rfl)
  report h hloc _ := h.report hloc _
  note {s s' loc loc'} h hloc x := by
    have hnoted := (h.change (g := fun s => { s with undeclared := x :: s.undeclared })
      (by intros; rfl)).report hloc
      (.undeclaredVariable x)
    have hsame : s'.undeclared = s.undeclared := by
      obtain ⟨es, rfl, -⟩ := h
      rfl
    unfold State.note
    rw [hsame]
    split
    · exact h
    · exact hsame ▸ hnoted

theorem change_tandem {g : State → State}
    (hg : ∀ s es, g { s with errors := es } = { g s with errors := es }) :
    Tandem (State.Like M) Eq (modify g : Checker Unit) (modify g) :=
  .change fun _ _ hs => hs.change hg

theorem function_tandem (ht : Tree.Like M t t') :
    Tandem (State.Like M) Eq (function t) (function t') := by
  unfold function
  rw [ht.children.ofFirst_eq]
  refine (change_tandem (by intros; rfl)).bindEq fun _ => ?_
  exact Tandem.bindEq (stable_like.congruence.insideFunction_rel ht) fun _ =>
    change_tandem (by intros; rfl)

theorem item_tandem (ht : Tree.Like M t t') : Tandem (State.Like M) Eq (item t) (item t') := by
  unfold item
  rw [ht.kind_eq]
  exact .ite (function_tandem ht) (stable_like.congruence.statement_rel ht)

theorem program_tandem (ht : Tree.Like M t t') :
    Tandem (State.Like M) Eq (program t) (program t') :=
  (Tandem.forM (fun _ _ => stable_like.congruence.declareFunction_rel) ht.functions).bindEq fun _ =>
    .forM (fun _ _ => item_tandem) ht.children

end Checker

/-- **Like trees have the same typing errors**, at related places. -/
theorem Tree.Like.typeErrors {M : Loc → Loc → Prop} {t t' : Tree} (h : Tree.Like M t t') :
    List.Forall₂ (Checker.SameCause M) t.typeErrors.toList t'.typeErrors.toList := by
  obtain ⟨-, es, hstate, herrors⟩ :=
    Checker.program_tandem h { scopes := [Scopes.builtins] } { scopes := [Scopes.builtins] }
    ⟨#[], rfl, .nil⟩
  have hes : t'.typeErrors = es := congrArg Checker.State.errors hstate
  rw [hes]
  exact herrors

end Stacklet
