import Stacklet.Proofs.Values.Places
/-!
# Operands and variables of a running call

* `Activation`: the stack and the variables of a running call. `Tracking.values`: what instructions
  do to them, and which values calls and returns need.
* `Activation.Poised`: the forms of the operands of a call, and something that holds of its
  variables.
* `leads_constant`, `leads_binary`, `leads_call`, …: how instructions lead from forms to forms.
-/

namespace Stacklet

open Emit

/-- What is tracked of a running call: the stack with what lies under the operands of the call, and
the variables. -/
structure Activation where
  stack : List Value
  base : List Value
  locals : Locals

section Definitions

variable (S : Shaping) (t c : Tree) (k : Nat)

/-- The forms of the arguments of a function. -/
def Tree.paramForms : List Form :=
  (parametersOf c.children).map fun p => ⟨parameterTy p, S.own p.isArray⟩

/-- The form of what a function returns. -/
def Tree.resultForm : Form := ⟨.ofFirst c.children, S.result⟩

namespace Activation

/-- What an instruction does. A call of a function of the program takes its arguments and leaves its
result. -/
inductive Acts : Instr → Activation → Activation → Prop
  | effect (instr : Instr) (stack stack' base : List Value) (ls ls' : Locals) :
      Effect instr stack ls stack' ls' →
    Acts instr ⟨stack, base, ls⟩ ⟨stack', base, ls'⟩
  | call (c : Tree) (args rest base : List Value) (ls : Locals) (v : Value) : c ∈ t.functions →
    Builtin.ofName? c.text = none → args.length = (parametersOf c.children).length →
      (c.resultForm S).Has v →
    Acts (.call c.text) ⟨args ++ rest, base, ls⟩ ⟨v :: rest, base, ls⟩

/-- What an instruction needs: a call of a function has arguments for it, and a return from the
function with the number `k` has a result and no other operands. -/
def Needs : Instr → Activation → Prop
  | .call f, x => Builtin.ofName? f = none → ∀ c ∈ t.functions, c.text = f →
      ∃ args rest, x.stack = args ++ rest ∧ List.Forall₂ Form.Has (c.paramForms S).reverse args
  | .ret, x => ∀ c, t.children[k]? = some c → ∃ v, x.stack = v :: x.base ∧ (c.resultForm S).Has v
  | _, _ => True

/-- The operands of a call have forms, and something holds of its variables. -/
def Poised (J : Locals → Prop) (fs : List Form) (x : Activation) : Prop :=
  J x.locals ∧ ∃ vs, x.stack = vs ++ x.base ∧ List.Forall₂ Form.Has fs vs

end Activation

/-- The operands and the variables of a call of the function with the number `k` are tracked. All
instructions need something to hold of the variables. -/
def Tracking.values (I : Locals → Prop) : Tracking Activation where
  acts _ := Activation.Acts S t
  needs instr x := Activation.Needs S t k instr x ∧ I x.locals

end Definitions

/-- What an instruction pushes on the stack without looking at anything. -/
def Instr.constant? : Instr → Option Value
  | .pushInt n => some (.int n)
  | .pushDouble x => some (.double x)
  | .pushString s => some (.string s)
  | _ => none

open Activation

section Leads

variable {S : Shaping} {t : Tree} {k i : Nat} {Λ : String → Activation → Prop}
  {I J J' : Locals → Prop} {fs fs' : List Form}
  {f g : Form} {instr : Instr} {v : Value} {x : String} (hI : ∀ ls, J ls → I ls)

include hI

theorem leads_poised (hstraight : instr.isStraight) (hcall : ∀ f, instr ≠ .call f)
    (h : ∀ ls vs base stack ls', J ls → List.Forall₂ Form.Has fs vs →
      Effect instr (vs ++ base) ls stack ls' →
      J' ls' ∧ ∃ vs', stack = vs' ++ base ∧ List.Forall₂ Form.Has fs' vs') :
    (Tracking.values S t k I).Leads Λ i (Poised J fs) [instr] (Poised J' fs') := by
  refine .straight hstraight (fun x hx => ⟨?_, hI _ hx.1⟩) ?_
  · cases instr with
    | call f => exact absurd rfl (hcall f)
    | ret => cases hstraight
    | _ => trivial
  · rintro x x' ⟨hJ, vs, hstack, hvs⟩ hacts
    cases hacts with
    | call => exact absurd rfl (hcall _)
    | effect _ stack stack' base ls ls' heffect =>
      obtain rfl : stack = vs ++ base := hstack
      exact h ls vs base stack' ls' hJ hvs heffect

theorem leads_constant (hv : instr.constant? = some v) (hf : f.Has v) :
    (Tracking.values S t k I).Leads Λ i (Poised J fs) [instr] (Poised J (f :: fs)) := by
  cases instr with
  | pushInt | pushDouble | pushString =>
    cases hv
    refine leads_poised hI rfl nofun fun ls vs base stack ls' hJ hvs heffect => ?_
    cases heffect
    exact ⟨hJ, _, rfl, .cons hf hvs⟩
  | _ => cases hv

theorem leads_load (hf : ∀ ls, J ls → f.Has (ls.load x)) :
    (Tracking.values S t k I).Leads Λ i (Poised J fs) [.load x] (Poised J (f :: fs)) := by
  refine leads_poised hI rfl nofun fun ls vs base stack ls' hJ hvs heffect => ?_
  cases heffect
  exact ⟨hJ, _, rfl, .cons (hf ls hJ) hvs⟩

theorem leads_unary (hstraight : instr.isStraight) (hcall : ∀ f, instr ≠ .call f)
    (op : Value → Value) (hop : ∀ v stack ls stack' ls', Effect instr (v :: stack) ls stack' ls' →
      stack' = op v :: stack ∧ ls' = ls) (hg : ∀ v, f.Has v → g.Has (op v)) :
    (Tracking.values S t k I).Leads Λ i (Poised J (f :: fs)) [instr] (Poised J (g :: fs)) := by
  refine leads_poised hI hstraight hcall fun ls vs base stack ls' hJ hvs heffect => ?_
  cases hvs with | cons hv hvs =>
  obtain ⟨rfl, rfl⟩ := hop _ _ ls stack ls' heffect
  exact ⟨hJ, op _ :: _, rfl, .cons (hg _ hv) hvs⟩

theorem leads_binary {h : Form} (hstraight : instr.isStraight) (hcall : ∀ f, instr ≠ .call f)
    (op : Value → Value → Value)
    (hop : ∀ v w stack ls stack' ls', Effect instr (w :: v :: stack) ls stack' ls' →
      stack' = op v w :: stack ∧ ls' = ls) (hh : ∀ v w, f.Has v → g.Has w → h.Has (op v w)) :
    (Tracking.values S t k I).Leads Λ i (Poised J (g :: f :: fs)) [instr] (Poised J (h :: fs)) := by
  refine leads_poised hI hstraight hcall fun ls vs base stack ls' hJ hvs heffect => ?_
  cases hvs with | cons hw hvs =>
  cases hvs with | cons hv hvs =>
  obtain ⟨rfl, rfl⟩ := hop _ _ _ ls stack ls' heffect
  exact ⟨hJ, op _ _ :: _, rfl, .cons (hh _ _ hv hw) hvs⟩

theorem leads_pop :
    (Tracking.values S t k I).Leads Λ i (Poised J (f :: fs)) [.pop] (Poised J fs) := by
  refine leads_poised hI rfl nofun fun ls vs base stack ls' hJ hvs heffect => ?_
  cases hvs with | cons _ hvs =>
  cases heffect
  exact ⟨hJ, _, rfl, hvs⟩

theorem leads_dropped (d : Demand) :
    (Tracking.values S t k I).Leads Λ i (Poised J (f :: fs)) (dropped d)
    (Poised J ((if d = .effect then [] else [f]) ++ fs)) := by
  unfold dropped
  split
  · exact leads_pop hI
  · exact .nil le_rfl

theorem leads_store (h : ∀ ls v, J ls → f.Has v → J' (ls.store x v)) :
    (Tracking.values S t k I).Leads Λ i (Poised J (f :: fs)) [.store x] (Poised J' fs) := by
  refine leads_poised hI rfl nofun fun ls vs base stack ls' hJ hvs heffect => ?_
  cases hvs with | cons hv hvs =>
  cases heffect
  exact ⟨h ls _ hJ hv, _, rfl, hvs⟩

theorem leads_storeIndex (h : ∀ ls i v, J ls → f.Has v → J' (ls.storeIndex x i v)) :
    (Tracking.values S t k I).Leads Λ i (Poised J (g :: f :: fs)) [.storeIndex x]
      (Poised J' fs) := by
  refine leads_poised hI rfl nofun fun ls vs base stack ls' hJ hvs heffect => ?_
  cases hvs with | cons _ hvs =>
  cases hvs with | cons hv hvs =>
  cases heffect
  exact ⟨h ls _ _ hJ hv, _, rfl, hvs⟩

omit hI in
theorem forall₂_append_inv {args vs base rest : List Value} {gs : List Form}
    (h : List.Forall₂ Form.Has (gs ++ fs) vs) (hlen : args.length = gs.length)
    (heq : args ++ rest = vs ++ base) :
    List.Forall₂ Form.Has gs args ∧ ∃ ws, rest = ws ++ base ∧ List.Forall₂ Form.Has fs ws := by
  induction gs generalizing args vs with
  | nil =>
    obtain rfl := List.eq_nil_of_length_eq_zero hlen
    exact ⟨.nil, vs, heq, h⟩
  | cons g gs ih =>
    cases h with | cons hg h =>
    cases args with
    | nil => cases hlen
    | cons a args =>
      rw [List.cons_append, List.cons_append, List.cons.injEq] at heq
      obtain ⟨rfl, heq⟩ := heq
      obtain ⟨hargs, hrest⟩ := ih h (Nat.succ.inj hlen) heq
      exact ⟨.cons hg hargs, hrest⟩

theorem leads_call {f : String} {ty : Ty} {params : List (Ty × Bool)} {gs : List Form}
    (hb : Builtin.ofName? f = none)
    (hentry : ∀ c ∈ t.functions, c.text = f → Entry.ofChildren c.children = .function ty params)
    (hlen : gs.length = params.length) (hgs : ∀ args, List.Forall₂ Form.Has gs args →
      List.Forall₂ Form.Has (params.map fun q => (⟨q.1, S.own q.2⟩ : Form)).reverse args) :
    (Tracking.values S t k I).Leads Λ i (Poised J (gs ++ fs)) [.call f]
      (Poised J (⟨ty, S.result⟩ :: fs)) := by
  have hparams (c : Tree) (hc : c ∈ t.functions) (hf : c.text = f) : ty = .ofFirst c.children ∧
      params = (parametersOf c.children).map fun p => (parameterTy p, p.isArray) := by
    have h := hentry c hc hf
    cases h
    exact ⟨rfl, rfl⟩
  refine .straight rfl (fun x hx => ⟨?_, hI _ hx.1⟩) ?_
  · rintro - c hc rfl
    obtain ⟨-, vs, hstack, hvs⟩ := hx
    have hsplit : x.stack = vs.take gs.length ++ (vs.drop gs.length ++ x.base) := by
      rw [hstack, ← List.append_assoc, List.take_append_drop]
    have hlen' : (vs.take gs.length).length = gs.length := by
      rw [List.length_take, ← hvs.length_eq, List.length_append]
      omega
    obtain ⟨hargs, -⟩ := forall₂_append_inv hvs hlen' (hsplit.symm.trans hstack)
    refine ⟨_, _, hsplit, ?_⟩
    have hforms : c.paramForms S = params.map fun q => (⟨q.1, S.own q.2⟩ : Form) := by
      rw [(hparams c hc rfl).2, List.map_map]
      rfl
    rw [hforms]
    exact hgs _ hargs
  · rintro x x' ⟨hJ, vs, hstack, hvs⟩ hacts
    cases hacts with
    | effect _ stack stack' base ls ls' heffect =>
      cases heffect with | builtin _ b _ _ _ _ hb' =>
        exact absurd (hb.symm.trans hb') (Option.some_ne_none b).symm
    | call c args rest base ls v hc _ hargs hv =>
      obtain ⟨rfl, rfl⟩ := hparams c hc rfl
      rw [List.length_map] at hlen
      obtain ⟨-, ws, hrest, hws⟩ := forall₂_append_inv hvs (hargs.trans hlen.symm) hstack
      exact ⟨hJ, v :: ws, congrArg (v :: ·) hrest, .cons hv hws⟩

theorem leads_builtin {f : String} {b : Builtin} {gs : List Form} (hb : Builtin.ofName? f = some b)
    (hlen : gs.length = b.params.length) (hg : ∀ v : Value, v.HasTy b.returns → g.Has v) :
    (Tracking.values S t k I).Leads Λ i (Poised J (gs ++ fs)) [.call f]
      (Poised J ((if b.returns = .void then [] else [g]) ++ fs)) := by
  refine .straight rfl (fun x hx => ⟨?_, hI _ hx.1⟩) ?_
  · exact fun hnone => absurd (hnone.symm.trans hb) (Option.some_ne_none b).symm
  · rintro x x' ⟨hJ, vs, hstack, hvs⟩ hacts
    cases hacts with
    | call c _ _ _ _ _ _ hnone => exact absurd (hnone.symm.trans hb) (Option.some_ne_none b).symm
    | effect _ stack stack' base ls ls' heffect =>
      cases heffect with | builtin _ b' args result rest _ hb' hargs hresult =>
      cases hb.symm.trans hb'
      obtain ⟨-, ws, hrest, hws⟩ := forall₂_append_inv hvs (hargs.trans hlen.symm) hstack
      refine ⟨hJ, result ++ ws, (congrArg (result ++ ·) hrest).trans
        (List.append_assoc ..).symm, ?_⟩
      match result with
      | [] => simpa [show b.returns = .void from hresult] using hws
      | [v] =>
        have hty : v.HasTy b.returns ∧ b.returns ≠ .void := by
          cases v with
          | int | double | string =>
            rw [show b.returns = _ from hresult]; exact ⟨by first | rfl | nofun, nofun⟩
          | absent | array => cases hresult
        rw [if_neg hty.2]
        exact .cons (hg v hty.1) hws
      | _ :: _ :: _ => simp [Builtin.Gives] at hresult

end Leads

end Stacklet
