import Stacklet.Proofs.Values.Expression
/-!
# Forms of values along control

* `Outline.Flows.inf`: two assertions at each place fit together if both do so.
* `FunctionIn.flows_values`: what is asserted about values fits together around statements.
* `FunctionIn.leads_values_arguments`: the arguments of a function are stored as its parameters.
* `TypedTree.exists_assertions_values`: so there are assertions about the values of a program.
-/

namespace Stacklet

open Emit Activation List
open Stacklet.Tree hiding lower

variable {loc : Loc} {j : Nat} {body cond : Tree}

/-! ## Two assertions at each place -/

section Inf

variable {X : Type} {a b : Outline X} {T : Tracking X} {here : List Nat} {t : Tree}
  {A A' B B' C C' : X → Prop}

/-- Nothing is needed. -/
def Tracking.free (T : Tracking X) : Tracking X := { T with needs := fun _ _ => True }

theorem Tracking.Tests.inf (h : T.free.Tests A B C) (h' : T.Tests A' B' C') :
    T.Tests (fun x => A x ∧ A' x) (fun x => B x ∧ B' x) fun x => C x ∧ C' x := by
  intro i l x x' hx hacts
  obtain ⟨hB, hC⟩ := h i l x x' hx.1 hacts
  obtain ⟨hB', hC'⟩ := h' i l x x' hx.2 hacts
  exact ⟨⟨hB, hB'⟩, hC, hC'⟩

namespace Outline

theorem le_inf_of (h : A ≤ B) (h' : A' ≤ B') : (fun x => A x ∧ A' x) ≤ fun x => B x ∧ B' x :=
  fun x hx => ⟨h x hx.1, h' x hx.2⟩

theorem next_inf (j : Nat) :
    (a.inf b).next here t j = fun x => a.next here t j x ∧ b.next here t j x := by
  unfold next
  split <;> rfl

theorem Alternative.inf (h : a.Alternative T.free here t B C) (h' : b.Alternative T here t B' C') :
    (a.inf b).Alternative T here t (fun x => B x ∧ B' x) fun x => C x ∧ C' x := by
  obtain ⟨kind, text, isArray, loc, children⟩ := t
  cases kind with
  | elseIf => exact ⟨le_inf_of h.1 h'.1, h.2.1.inf h'.2.1, le_inf_of h.2.2 h'.2.2⟩
  | _ => exact le_inf_of h h'

theorem Exits.inf (h : a.Exits here t j) (h' : b.Exits here t j) : (a.inf b).Exits here t j := by
  intro p part u hp
  obtain ⟨hbreak, hcontinue⟩ := h p part u hp
  obtain ⟨hbreak', hcontinue'⟩ := h' p part u hp
  exact ⟨fun hu => le_inf_of (hbreak hu) (hbreak' hu),
    fun hu => le_inf_of (hcontinue hu) (hcontinue' hu)⟩

/-- **Two assertions at each place fit together** if both do so. -/
theorem Flows.inf (h : a.Flows T.free here t) (h' : b.Flows T here t) :
    (a.inf b).Flows T here t := by
  obtain ⟨kind, text, isArray, loc, children⟩ := t
  cases kind with
  | block | declaration =>
    refine ⟨?_, fun j hj => ?_⟩
    · rw [next_inf]
      exact le_inf_of h.1 h'.1
    · rw [next_inf]
      exact le_inf_of (h.2 j hj) (h'.2 j hj)
  | exprStmt => exact ⟨le_inf_of h.1 h'.1, le_inf_of h.2 h'.2⟩
  | returnStmt => exact ⟨le_inf_of h.1 h'.1, fun x hx => h'.2 x hx.2⟩
  | conditional =>
    obtain ⟨hstart, htest, hbody, hrest⟩ := h
    obtain ⟨hstart', htest', hbody', hrest'⟩ := h'
    refine ⟨le_inf_of hstart hstart', ?_, le_inf_of hbody hbody', fun j c hc => ?_⟩
    · rw [next_inf]
      exact htest.inf htest'
    · rw [next_inf]
      exact (hrest j c hc).inf (hrest' j c hc)
  | whileLoop =>
    obtain ⟨hstart, htest, hbody, hexits⟩ := h
    obtain ⟨hstart', htest', hbody', hexits'⟩ := h'
    exact ⟨le_inf_of hstart hstart', htest.inf htest', le_inf_of hbody hbody', hexits.inf hexits'⟩
  | doWhile =>
    obtain ⟨hstart, hbody, htest, hexits⟩ := h
    obtain ⟨hstart', hbody', htest', hexits'⟩ := h'
    exact ⟨le_inf_of hstart hstart', le_inf_of hbody hbody', htest.inf htest', hexits.inf hexits'⟩
  | forLoop =>
    match children with
    | [_, c, step, _] =>
      obtain ⟨hstart, hfirst, htest, hbody, hstep, hexits⟩ := h
      obtain ⟨hstart', hfirst', htest', hbody', hstep', hexits'⟩ := h'
      refine ⟨le_inf_of hstart hstart', le_inf_of hfirst hfirst', ?_, le_inf_of hbody hbody', ?_,
        hexits.inf hexits'⟩
      · split at htest
        · next hc =>
          rw [if_pos hc] at htest' ⊢
          exact le_inf_of htest htest'
        · next hc =>
          rw [if_neg hc] at htest' ⊢
          exact htest.inf htest'
      · split at hstep
        · next hs =>
          rw [if_pos hs] at hstep' ⊢
          exact le_inf_of hstep hstep'
        · next hs =>
          rw [if_neg hs] at hstep' ⊢
          exact le_inf_of hstep hstep'
    | [] | [_] | [_, _] | [_, _, _] | _ :: _ :: _ :: _ :: _ :: _ => trivial
  | breakStmt | continueStmt | empty => exact le_inf_of h h'
  | _ => trivial

end Outline

end Inf

/-! ## Operands around statements -/

section Operands

variable {S : Shaping} {t c u : Tree} {k : Nat} {p : List Nat} {part : Tree.Part}
  {I : Locals → Prop}
  {N : String → Prop} {ret : Option Ty} {loop : Bool} {Γ : Scopes}

theorem Tracking.tests_values (f : Form) :
    (Tracking.values S t k I).Tests (Poised (fun _ => True) [f]) (Poised (fun _ => True) [])
      (Poised (fun _ => True) []) := by
  rintro i l x x' ⟨-, vs, hstack, hvs⟩ hacts
  cases hvs with | cons _ hvs =>
  cases hvs
  suffices h : Poised (fun _ => True) [] x' from ⟨h, h⟩
  cases hacts with | effect _ stack stack' base ls ls' heffect =>
  obtain rfl : stack = _ :: base := hstack
  cases heffect
  exact ⟨trivial, [], rfl, .nil⟩

theorem Role.Suits.not_isExpression {r : Role} (h : r.Suits part u) (hpart : part ≠ .expression) :
    r.isExpression = false := by
  cases h <;> first | rfl | exact absurd rfl hpart

namespace Outline

theorem operands_next (hbehind : (t.roleAt p).isExpression = false)
    (hchild : ∀ c, u.children[j]? = some c → (t.roleAt (p ++ [j])).isExpression = false) :
    (operands S t).next p u j = Poised (fun _ => True) [] := by
  unfold next
  split
  · next hlen => exact (operands_statement (hchild _ (getElem?_eq_getElem hlen))).1
  · exact (operands_statement hbehind).2

end Outline

section Statements

theorem Tree.isExpression_eq_false (hr : t.roleAt p = .statement) :
    (t.roleAt p).isExpression = false := by
  rw [hr]
  rfl

variable (hp : partAt? (k :: p) .program t = some (part, u)) (hr : t.roleAt (k :: p) = .statement)

include hp

theorem Tree.flows_operands_block {ts : List Tree}
    (hr : t.roleAt (k :: p) = .statement ∨ ∃ done, t.roleAt (k :: p) = .branch done)
    (hu : u = ⟨.block, "Block", false, loc, ts⟩) :
    (Outline.operands S t).Flows (.values S t k I) (k :: p) u := by
  subst hu
  have hself : (t.roleAt (k :: p)).isExpression = false := by
    rcases hr with hr | ⟨done, hr⟩ <;> rw [hr] <;> rfl
  have hchild (j : Nat) (c : Tree) (hc : ts[j]? = some c) :
      (t.roleAt ((k :: p) ++ [j])).isExpression = false := by
    have hrole : t.roleAt ((k :: p) ++ [j]) = .statement := by
      rw [roleAt_snoc hp hc]
      rcases hr with hr | ⟨done, hr⟩
      · rw [hr]
        exact (ahead_block loc _ ts j).role_eq
      · rw [hr, ahead_branch]
        exact (ahead_block loc _ ts j).role_eq
    rw [hrole]
    rfl
  refine ⟨?_, fun j hj => ?_⟩
  · rw [(Outline.operands_statement hself).1, Outline.operands_next hself (hchild 0)]
  · rw [(Outline.operands_statement (hchild j _ (getElem?_eq_getElem hj))).2,
      Outline.operands_next hself (hchild (j + 1))]

include hr

theorem Tree.flows_operands_declaration {ty : Tree} {ds : List Tree}
    (hu : u = ⟨.declaration, "VarDeclList", false, loc, ty :: ds⟩) :
    (Outline.operands S t).Flows (.values S t k I) (k :: p) u := by
  subst hu
  have hself := isExpression_eq_false hr
  have hchild (j : Nat) (c : Tree) (hc : (ty :: ds)[j + 1]? = some c) :
      (t.roleAt ((k :: p) ++ [j + 1])).isExpression = false := by
    rw [roleAt_child hp hr hc (ahead_declaration loc _ ty ds j)]
    rfl
  refine ⟨?_, fun j hj => ?_⟩
  · rw [(Outline.operands_statement hself).1, Outline.operands_next hself (hchild 0)]
  · rw [(Outline.operands_statement (hchild j _ (getElem?_eq_getElem hj))).2,
      Outline.operands_next hself (hchild (j + 1))]

theorem Tree.flows_operands_exprStmt {e : Tree}
    (hu : u = ⟨.exprStmt, "ExprStmt", false, loc, [e]⟩) :
    (Outline.operands S t).Flows (.values S t k I) (k :: p) u := by
  subst hu
  have hself := isExpression_eq_false hr
  obtain ⟨hahead, hbehind⟩ := Outline.operands_statement (S := S) hself
  obtain ⟨hahead₀, hbehind₀⟩ := Outline.operands_root (S := S) hself
    (roleAt_child hp hr (i := 0) rfl (ahead_exprStmt loc _ e))
  exact ⟨by rw [hahead, hahead₀], by rw [hbehind, hbehind₀, if_pos rfl]⟩

variable (ht : FunctionIn IsName t k c)

include ht

theorem FunctionIn.flows_operands_conditional {rest : List Tree}
    (hu : u = ⟨.conditional, "If", false, loc, cond :: body :: rest⟩) :
    (Outline.operands S t).Flows (.values S t k I) (k :: p) u := by
  subst hu
  have hself := isExpression_eq_false hr
  obtain ⟨hahead, hbehind⟩ := Outline.operands_statement (S := S) hself
  obtain ⟨hahead₀, hbehind₀⟩ := Outline.operands_root (S := S) hself
    (roleAt_child hp hr (i := 0) rfl (ahead_conditional_test loc _ cond body rest))
  obtain ⟨hahead₁, hbehind₁⟩ := Outline.operands_statement (S := S) <| isExpression_eq_false <|
    roleAt_child hp hr (i := 1) rfl (ahead_conditional_body loc _ cond body rest)
  have hrole (j : Nat) (c : Tree) (hc : (cond :: body :: rest)[j + 2]? = some c) :=
    roleAt_child hp hr hc (ahead_conditional_rest loc _ cond body rest j)
  have hnext (j : Nat) : (Outline.operands S t).next (k :: p)
      ⟨.conditional, "If", false, loc, cond :: body :: rest⟩ (j + 2) = Poised (fun _ => True) [] :=
    Outline.operands_next hself fun c hc => by rw [hrole j c hc]; rfl
  refine ⟨by rw [hahead, hahead₀], ?_, by rw [hbehind, hbehind₁], fun j c hc => ?_⟩
  · rw [hbehind₀, hahead₁, hnext, if_neg (by simp)]
    exact Tracking.tests_values _
  · rw [hnext, hbehind]
    have hat := partAt?_snoc hp hc rfl
    obtain ⟨hahead₂, hbehind₂⟩ :=
      Outline.operands_statement (S := S) (p := (k :: p) ++ [j + 2]) (by rw [hrole j c hc]; rfl)
    cases ht.reach hat with | branch _ _ _ _ hbranch =>
    cases hbranch with
    | last _ _ _ hblock =>
      obtain ⟨⟩ := hblock
      exact hbehind₂.le
    | elseIf _ _ loc' cond' body' =>
      obtain ⟨hahead₃, hbehind₃⟩ :=
        Outline.operands_root (S := S) (p := (k :: p) ++ [j + 2]) (by rw [hrole j _ hc]; rfl)
        (roleAt_child hat (hrole j _ hc) (i := 0) rfl (ahead_elseIf_test loc' _ cond' body' _))
      obtain ⟨hahead₄, hbehind₄⟩ :=
        Outline.operands_statement (S := S) <| isExpression_eq_false <|
          roleAt_child hat (hrole j _ hc) (i := 1) rfl (ahead_elseIf_body loc' _ cond' body' _)
      refine ⟨by rw [hahead₂, hahead₃], ?_, hbehind₄.le⟩
      rw [hbehind₃, hahead₄, if_neg (by simp)]
      exact Tracking.tests_values _

omit hr in
theorem FunctionIn.exits_operands (hpart : part = .statement)
    (hbehind : (Outline.operands S t).behind (k :: p) = Poised (fun _ => True) [])
    (hnext : (Outline.operands S t).ahead ((k :: p) ++ [j]) = Poised (fun _ => True) []) :
    (Outline.operands S t).Exits (k :: p) u j := by
  subst hpart
  intro q part' w hq
  have hat : partAt? ((k :: p) ++ q) .program t = some (part', w) := by
    rw [partAt?_append, hp]
    exact hq
  have hahead (hw : w.kind = .breakStmt ∨ w.kind = .continueStmt) :
      (Outline.operands S t).ahead ((k :: p) ++ q) = Poised (fun _ => True) [] := by
    refine (Outline.operands_statement ((ht.exists_code hat).1.not_isExpression ?_)).1
    rintro rfl
    cases ht.reach hat with | expression _ _ _ _ _ he =>
    cases he <;> rcases hw with hw | hw <;> cases hw
  rw [hbehind, hnext]
  exact ⟨fun hw => (hahead (.inl hw)).le, fun hw => (hahead (.inr hw)).le⟩

theorem FunctionIn.flows_operands_whileLoop (hpart : part = .statement)
    (hu : u = ⟨.whileLoop, "While", false, loc, [cond, body]⟩) :
    (Outline.operands S t).Flows (.values S t k I) (k :: p) u := by
  subst hu
  have hself := isExpression_eq_false hr
  obtain ⟨hahead, hbehind⟩ := Outline.operands_statement (S := S) hself
  obtain ⟨hahead₀, hbehind₀⟩ := Outline.operands_root (S := S) hself
    (roleAt_child hp hr (i := 0) rfl (ahead_whileLoop_test loc _ cond body))
  obtain ⟨hahead₁, hbehind₁⟩ := Outline.operands_statement (S := S) <| isExpression_eq_false <|
    roleAt_child hp hr (i := 1) rfl (ahead_whileLoop_body loc _ cond body)
  refine ⟨by rw [hahead, hahead₀], ?_, by rw [hbehind₁, hahead₀],
    ht.exits_operands hp hpart hbehind hahead₀⟩
  rw [hbehind₀, hahead₁, hbehind, if_neg (by simp)]
  exact Tracking.tests_values _

theorem FunctionIn.flows_operands_doWhile (hpart : part = .statement)
    (hu : u = ⟨.doWhile, "DoWhile", false, loc, [body, cond]⟩) :
    (Outline.operands S t).Flows (.values S t k I) (k :: p) u := by
  subst hu
  have hself := isExpression_eq_false hr
  obtain ⟨hahead, hbehind⟩ := Outline.operands_statement (S := S) hself
  obtain ⟨hahead₀, hbehind₀⟩ := Outline.operands_statement (S := S) <| isExpression_eq_false <|
    roleAt_child hp hr (i := 0) rfl (ahead_doWhile_body loc _ cond body)
  obtain ⟨hahead₁, hbehind₁⟩ := Outline.operands_root (S := S) hself
    (roleAt_child hp hr (i := 1) rfl (ahead_doWhile_test loc _ cond body))
  refine ⟨by rw [hahead, hahead₀], by rw [hbehind₀, hahead₁], ?_,
    ht.exits_operands hp hpart hbehind hahead₁⟩
  rw [hbehind₁, hahead₀, hbehind, if_neg (by simp)]
  exact Tracking.tests_values _

theorem FunctionIn.flows_operands_forLoop {first step : Tree} (hpart : part = .statement)
    (hu : u = ⟨.forLoop, "For", false, loc, [first, cond, step, body]⟩) :
    (Outline.operands S t).Flows (.values S t k I) (k :: p) u := by
  subst hu
  have hself := isExpression_eq_false hr
  obtain ⟨hahead, hbehind⟩ := Outline.operands_statement (S := S) hself
  obtain ⟨hahead₀, hbehind₀⟩ := Outline.operands_statement (S := S) <| isExpression_eq_false <|
    roleAt_child hp hr (i := 0) rfl (ahead_forLoop_first loc _ first cond step body)
  obtain ⟨hahead₁, hbehind₁⟩ := Outline.operands_root (S := S) hself
    (roleAt_child hp hr (i := 1) rfl (ahead_forLoop_test loc _ first cond step body))
  obtain ⟨hahead₂, hbehind₂⟩ := Outline.operands_root (S := S) hself
    (roleAt_child hp hr (i := 2) rfl (ahead_forLoop_step loc _ first cond step body))
  obtain ⟨hahead₃, hbehind₃⟩ := Outline.operands_statement (S := S) <| isExpression_eq_false <|
    roleAt_child hp hr (i := 3) rfl (ahead_forLoop_body loc _ first cond step body)
  refine ⟨by rw [hahead, hahead₀], by rw [hbehind₀, hahead₁], ?_, by rw [hbehind₃, hahead₂], ?_,
    ht.exits_operands hp hpart hbehind hahead₂⟩
  · rw [hahead₁, hahead₃, hbehind₁, hbehind, if_neg (by simp : ¬ Demand.value = .effect)]
    split
    · exact le_rfl
    · exact Tracking.tests_values _
  · rw [hahead₁, hahead₂, hbehind₂, if_pos rfl, ite_self]

theorem FunctionIn.flows_operands_returnStmt {e : Tree} (ho : t.Orderly S)
    (hpart : part = .statement) (hu : u = ⟨.returnStmt, "Return", false, loc, [e]⟩) :
    (Outline.operands S t).Flows (.values S t k fun _ => True) (k :: p) u := by
  subst hu hpart
  have hself := isExpression_eq_false hr
  have hreturns : (t.loweredAt (k :: p)).returnType = .ofFirst c.children :=
    (ht.around_function hp ⟨nofun, nofun⟩).returnType_eq
  have hrole := roleAt_child hp hr (i := 0) rfl (ahead_returnStmt loc _ e)
  rw [hreturns] at hrole
  obtain ⟨hahead₀, hbehind₀⟩ := Outline.operands_root (S := S) hself hrole
  rw [if_neg (Demand.ofDouble_ne_effect _)] at hbehind₀
  have hat : partAt? (k :: (p ++ [0])) .program t = some (.expression, e) := partAt?_snoc hp rfl rfl
  have haccepts : (Ty.ofFirst c.children).accepts (t.valueTy (k :: (p ++ [0]))) := by
    cases ht.reach hp with | statement _ _ _ _ hs hu =>
    obtain ⟨hin, hty⟩ := ht.checkedAt_function hp ⟨nofun, nofun⟩
    have hret := hs.ret_eq
    cases hu with
    | block _ _ _ hblock => cases hblock
    | returnStmt _ _ _ _ ty ty' hsome he hacc =>
      subst hsome
      have hret : some ty = if (t.checkedAt (k :: p)).inFunction
          then some (t.checkedAt (k :: p)).returnType else none := hret
      rw [hin, if_pos rfl, hty] at hret
      cases hret
      refine accepts_valueTy hat hrole ?_ hacc
      rw [← cons_append, checkedAt_append hp, Checker.reach_cons rfl]
      exact he
  have hshape := apply_of_everywhere ho.keepsShapes ht hp
  rw [keepsShapesAt, hp] at hshape
  refine ⟨by rw [(Outline.operands_statement hself).1, hahead₀],
    fun x hx => ⟨fun c' hc' => ?_, trivial⟩⟩
  cases ht.child_eq.symm.trans hc'
  rw [hbehind₀] at hx
  obtain ⟨-, vs, hstack, hvs⟩ := hx
  cases hvs with | cons hv hvs =>
  cases hvs
  exact ⟨_, hstack, hv.fits hshape haccepts⟩

end Statements

/-- **What is asserted about values fits together** around statements. -/
theorem FunctionIn.flows_values (ht : FunctionIn IsName t k c) (ho : t.Orderly S)
    (hp : partAt? (k :: p) .program t = some (part, u)) (hinner : part.IsInner)
    (hparam : part ≠ .parameter) :
    (Outline.values S t).Flows (.values S t k fun _ => True) (k :: p) u := by
  refine .inf (ht.flows_visible hp hinner ?_ hparam fun _ => trivial) ?_
  · rintro i l v x x' hacts hv
    cases hacts with | effect _ _ _ _ _ _ heffect =>
    cases heffect
    exact hv
  have hsuits := (ht.exists_code hp).1
  cases ht.reach hp with
  | program => exact absurd rfl hinner.1
  | function | item => exact absurd rfl hinner.2
  | parameter => exact absurd rfl hparam
  | branch _ _ _ _ hu =>
    cases hu with
    | last _ _ _ hb =>
      obtain ⟨⟩ := hb
      refine flows_operands_block hp (.inr ?_) rfl
      generalize t.roleAt (k :: p) = r at hsuits
      cases hsuits with | branch done => exact ⟨done, rfl⟩
    | elseIf => trivial
  | declarator _ _ _ _ _ _ _ hd => cases hd <;> trivial
  | expression _ _ _ _ _ he => cases he <;> trivial
  | statement _ _ _ _ _ hu =>
    have hr := hsuits.eq_statement
    cases hu with
    | omitted | breakStmt | continueStmt =>
      obtain ⟨hahead, hbehind⟩ := Outline.operands_statement (S := S) (isExpression_eq_false hr)
      exact (hahead.trans hbehind.symm).le
    | block _ _ _ hb =>
      obtain ⟨⟩ := hb
      exact flows_operands_block hp (.inl hr) rfl
    | declaration => exact flows_operands_declaration hp hr rfl
    | exprStmt => exact flows_operands_exprStmt hp hr rfl
    | returnStmt => exact ht.flows_operands_returnStmt hp hr ho rfl rfl
    | conditional => exact ht.flows_operands_conditional hp hr rfl
    | whileLoop => exact ht.flows_operands_whileLoop hp hr rfl rfl
    | doWhile => exact ht.flows_operands_doWhile hp hr rfl rfl
    | forLoop => exact ht.flows_operands_forLoop hp hr rfl rfl

end Operands

/-! ## Arguments and results -/

section Functions

/-- What was never stored is zero, also where a variable from outside is expected. -/
theorem Tree.Variable.has_zero_outer (x : String) : ((outer x).form S t k).Has .zero := by
  rw [form]
  split
  · next ty isArray _ =>
    cases isArray with
    | false => exact Value.fits_zero (.inl S.single_outer)
    | true => exact Value.fits_zero (.inr S.unset_outer)
  · exact Value.fits_zero (.inl rfl)

/-- A call of the function with the number `k` begins with its arguments and without variables. -/
def Activation.Begins (S : Shaping) (t : Tree) (k : Nat) (x : Activation) : Prop :=
  ∀ c, t.children[k]? = some c → Poised (· = []) (c.paramForms S).reverse x

variable {S : Shaping} {t c body : Tree} {k b : Nat} (ht : FunctionIn IsName t k c)
  (hb : c.children[b]? = some body) (hblock : body.kind = .block)

include ht hb hblock

theorem FunctionIn.mem_scopeAt_body {d : Tree.Declaration} : d ∈ (t.scopeAt [k, b]).flatten ↔
    ∃ j q, (parametersOf c.children)[j]? = some q ∧
    ⟨[k, j + 1], q.text, parameterTy q, q.isArray⟩ = d := by
  have hparams : (c.children.take b).tail = parametersOf c.children := by
    obtain ⟨Γ, hfunction⟩ := ht.typedFunction
    rw [hfunction.body_index hb hblock]
    obtain ⟨f, loc, ty, ps, last, Γ', -, hty, hps, hlast⟩ := hfunction
    have hlast' : last.kind = .block := by
      obtain ⟨⟩ := hlast
      rfl
    rw [parametersOf_function (kind_of_isValue hty) hps.kind_eq hlast', take_succ_cons, tail_cons,
      take_left]
  have hscope : t.scopeAt [k, b] = scopeAhead [k] c b (t.scopeAt [k]) := scopeAt_snoc ht.at_item hb
  rw [hscope, scopeAhead, ht.isFunction, flatten_singleton, hparams, mem_declared]
  rfl

/-- **Arguments are stored as parameters.** Variables from outside are not set yet. -/
theorem FunctionIn.leads_values_arguments (Λ : String → Activation → Prop) (i : Nat) :
    (Tracking.values S t k fun _ => True).Leads Λ i (Begins S t k)
      (t.argumentStores k (parametersOf c.children).length)
      ((Outline.values S t).ahead [k, b]) := by
  obtain ⟨hat, hrole, -⟩ := ht.at_body hb hblock
  rw [(Outline.values_statement (by rw [hrole]; rfl)).1]
  -- what holds while the arguments with numbers less than `j` are on the stack
  let J (j : Nat) (ls : Locals) : Prop :=
    ∀ v, t.VisibleAhead [k, b] v → (∀ m, m < j → v.slot t ≠ t.slotAt [k, m + 1]) →
      v.IsFormed S t k ls
  have hrow (j : Nat) (hj : j ≤ (parametersOf c.children).length) (i : Nat) :
      (Tracking.values S t k fun _ => True).Leads Λ i
        (Poised (J j) ((c.paramForms S).take j).reverse)
        (t.argumentStores k j) (Poised (t.Formed S [k, b]) []) := by
    induction j generalizing i with
    | zero =>
      refine .nil ?_
      rintro x ⟨hJ, hx⟩
      exact ⟨fun v hv => hJ v hv fun m hm => absurd hm (Nat.not_lt_zero m), hx⟩
    | succ j ih =>
      obtain ⟨q, hq⟩ : ∃ q, (parametersOf c.children)[j]? = some q := ⟨_, getElem?_eq_getElem hj⟩
      have hform : (c.paramForms S)[j]? = some ⟨parameterTy q, S.own q.isArray⟩ := by
        rw [paramForms, getElem?_map, hq]
        rfl
      have hstores : t.argumentStores k (j + 1) = .store (t.slotAt [k, j + 1]) ::
          t.argumentStores k j := by
        rw [argumentStores, range_succ, map_append, reverse_append]
        rfl
      rw [hstores, take_add_one, hform, reverse_append]
      refine .cons (leads_store (fun _ _ => trivial) fun ls v h hv w hw hslots => ?_)
        (ih (Nat.le_of_lt hj) (i + 1))
      rw [Tree.Variable.IsFormed]
      by_cases hslot : w.slot t = t.slotAt [k, j + 1]
      · obtain rfl : w = .declared ⟨[k, j + 1], q.text, parameterTy q, q.isArray⟩ :=
          ht.slot_injOn hat ⟨Tree.Part.noConfusion, Tree.Part.noConfusion⟩ hw
            ((ht.mem_scopeAt_body hb hblock).mpr ⟨j, q, hq, rfl⟩) hslot
        rw [hslot, Locals.load_store_self]
        exact hv
      · rw [Locals.store, Locals.load_alter_ne _ _ hslot]
        refine h w hw fun m hm => ?_
        rcases Nat.lt_succ_iff_lt_or_eq.mp hm with hm | rfl
        · exact hslots m hm
        · exact hslot
  refine (hrow _ (Nat.le_refl _) i).mono_left fun x hx => ?_
  rw [take_of_length_le (by simp [paramForms])]
  obtain ⟨hnone, hstack⟩ := hx c ht.child_eq
  refine ⟨fun v hv hslots => ?_, hstack⟩
  rw [Tree.Variable.IsFormed, hnone]
  cases v with
  | declared d =>
    obtain ⟨j, q, hq, rfl⟩ := (ht.mem_scopeAt_body hb hblock).mp hv
    exact absurd rfl (hslots j (List.getElem?_eq_some_iff.mp hq).1)
  | outer x => exact Tree.Variable.has_zero_outer x

theorem FunctionIn.leads_values_end (Λ : String → Activation → Prop) (i : Nat) :
    (Tracking.values S t k fun _ => True).Leads Λ i ((Outline.values S t).behind [k, b])
      [zeroInstr (.ofFirst c.children), .ret] fun _ => False := by
  obtain ⟨-, hrole, -⟩ := ht.at_body hb hblock
  obtain ⟨v, hv, hty⟩ := Value.exists_zeroInstr (.ofFirst c.children)
  rw [(Outline.values_statement (by rw [hrole]; rfl)).2]
  refine .cons (leads_constant (f := c.resultForm S) (fun _ _ => trivial) hv
    (Value.Fits.of_hasTy hty S.stored_result))
    (.ret fun x hx => ⟨fun c' hc' => ?_, trivial⟩)
  cases ht.child_eq.symm.trans hc'
  obtain ⟨-, vs, hstack, hvs⟩ := hx
  cases hvs with | cons hv hvs =>
  cases hvs
  exact ⟨_, hstack, hv⟩

end Functions

/-- **There are assertions about the values of a program** if its values are in order. -/
theorem TypedTree.exists_assertions_values {S : Shaping} {t : Tree} (ht : TypedTree IsName t)
    (ho : t.Orderly S) : ∃ P : Assertions t Activation,
      P.tracking = (fun k => .values S t k fun _ => True) ∧ P.entry = Begins S t ∧
      P.outline = .values S t :=
  ht.exists_assertions (fun _ _ _ _ hf hb hblock => hf.leads_values_arguments hb hblock)
    (fun _ _ _ _ _ hf hp hinner hparam => hf.flows_values ho hp hinner hparam)
    (fun _ _ _ _ _ hf hp hplain => hf.computes_values ho (fun _ _ => trivial) hp hplain)
    fun _ _ _ _ hf hb hblock => hf.leads_values_end hb hblock

end Stacklet
