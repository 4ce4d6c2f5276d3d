import Stacklet.Proofs.Scoping
/-!
# Names at the places of a function

* `Typed.aligned`: the declarations behind a statement, in scope and passed.
* `TypedPart.aligned_reach`: those at every place of a part of a function.
-/

namespace Stacklet

open Emit List
open Stacklet.Tree hiding lower

/-! ## Statements -/

section Statements

variable {G : Scopes} {slot : List Nat → String} {D : List (List Tree.Declaration)}
  {P : List Tree.Declaration} {held : List String} {s : Emit.State} {Γ Γ' : Scopes} {ty : Ty}
  {ret : Option Ty} {here : List Nat}

theorem Tree.declared_cons (place : Nat → List Nat) (ty : Tree → Ty) (d : Tree) (ds : List Tree) :
    declared place ty (d :: ds) =
      declared (fun j => place (j + 1)) ty ds ++ [⟨place 0, d.text, ty d, d.isArray⟩] := by
  simp [declared, mapIdx_cons]

theorem Tree.declaredByAll_cons (place : Nat → List Nat) (t : Tree) (ts : List Tree) :
    declaredByAll place (t :: ts) = declaredByAll (fun j => place (j + 1)) ts ++
      declaredBy (place 0) t := by
  simp [declaredByAll, mapIdx_cons]

theorem modifyHead_append {α : Type} (D : List (List α)) (a b : List α) :
    (D.modifyHead (b ++ ·)).modifyHead (a ++ ·) = D.modifyHead (a ++ b ++ ·) := by
  cases D <;> simp

theorem modifyHead_self {α : Type} (D : List (List α)) : (D.modifyHead fun scope => scope) = D := by
  cases D <;> rfl

attribute [local simp] modifyHead_self

theorem slot_child {r r' : Role} {t c : Tree} {i : Nat} {before : List Instr} {s' : Emit.State}
    (hslot : ∀ p, slot (here ++ p) = slotFrom p r t s) (hc : t.children[i]? = some c)
    (h : Ahead r t i s r' before s') (p : List Nat) :
    slot (here ++ [i] ++ p) = slotFrom p r' c s' := by
  rw [append_assoc, hslot, singleton_append, slotFrom_cons hc, h.role_eq, h.after_eq]

theorem HasType.declaredWithin_eq {e : Tree} (h : HasType Γ e ty) (here : List Nat) :
    declaredWithin here e = [] := by
  cases h <;> simp [declaredWithin, nameAt]

theorem OptionalInt.declaredWithin_eq {c : Tree} (h : OptionalInt Γ c) (here : List Nat) :
    declaredWithin here c = [] := by
  cases h with
  | omitted loc => simp [Tree.omitted, Tree.declaredWithin]
  | expr c hc => exact hc.declaredWithin_eq here

theorem OptionalExpr.declaredWithin_eq {e : Tree} (h : OptionalExpr Γ e) (here : List Nat) :
    declaredWithin here e = [] := by
  cases h with
  | omitted loc => simp [Tree.omitted, Tree.declaredWithin]
  | expr e ty he => exact he.declaredWithin_eq here

theorem DeclaresAll.aligned {ds : List Tree} (hds : DeclaresAll IsName ty Γ ds Γ')
    (place : Nat → List Nat) (h : Aligned G slot D P held s Γ)
    (hslot : ∀ j d, ds[j]? = some d →
      slot (place j) = slotFrom [] (.declarator ty) d
      (Emit.after ((ds.take j).forM (declarator ty)) s)) :
    Aligned G slot (D.modifyHead (declared place (fun _ => ty) ds ++ ·))
      (declared place (fun _ => ty) ds ++ P) held (Emit.after (ds.forM (declarator ty)) s) Γ' := by
  induction hds generalizing s place D P with
  | nil Γ => simpa [declared] using h.blank
  | cons Γ Γ₁ Γ₂ d ds hd _ ih =>
    have hone : Aligned G slot (D.modifyHead (⟨place 0, d.text, ty, d.isArray⟩ :: ·))
        (⟨place 0, d.text, ty, d.isArray⟩ :: P) held (Emit.after (declarator ty d) s) Γ₁ := by
      have hq : slot (place 0) = (Emit.after (initialValue ty d) s).newSlot d.text := by
        rw [hslot 0 d rfl]
        simp [slotFrom]
      rw [after_declarator]
      cases hd with
      | plain x loc _ hx hd | initial x loc _ _ _ hx _ _ hd | array x loc _ _ hx _ hd =>
        exact (h.after (initialValue ty _)).declare hx hd hq
    rw [after_forM_cons, declared_cons, ← modifyHead_append, append_assoc]
    refine ih (fun j => place (j + 1)) hone fun j d' hd' => ?_
    have hslot' := hslot (j + 1) d' hd'
    rwa [take_succ_cons, after_forM_cons] at hslot'

theorem TypedParams.aligned {ps : List Tree} (hps : TypedParams IsName Γ ps Γ')
    (place : Nat → List Nat) (h : Aligned G slot D P held s Γ)
    (hslot : ∀ j p, ps[j]? = some p → slot (place j) = (s.withParams (ps.take j)).newSlot p.text) :
    Aligned G slot (D.modifyHead (declared place parameterTy ps ++ ·))
      (declared place parameterTy ps ++ P) held (s.withParams ps) Γ' := by
  induction hps generalizing s place D P with
  | nil Γ => simpa [declared, State.withParams] using h
  | cons Γ Γ₁ Γ₂ x isArray loc ty ps hx hty hd _ ih =>
    have hone := h.declare (q := place 0) hx hd (hslot 0 _ rfl)
    rw [declared_cons, ← modifyHead_append, append_assoc]
    exact ih (fun j => place (j + 1)) hone fun j p hp => hslot (j + 1) p hp

attribute [local simp] declaredBy declaredWithin declaredWithinAll

mutual

/-- **The declarations behind a statement**, in scope and passed. -/
theorem Typed.aligned {loop : Bool} {Γ Γ' : Scopes} {t : Tree} : Typed IsName ret loop Γ t Γ' →
    ∀ (here : List Nat) {D : List (List Tree.Declaration)} {P : List Tree.Declaration}
    {s : Emit.State},
    Aligned G slot D P held s Γ → (∀ p, slot (here ++ p) = slotFrom p .statement t s) →
    Aligned G slot (D.modifyHead (declaredBy here t ++ ·)) (declaredWithin here t ++ P) held
      (Emit.after (statement t) s) Γ'
  | .omitted _ _ loc, here, D, P, s, h, _ => by
    rw [statement_omitted]
    simpa [omitted] using h.blank
  | .block _ _ _ hb, here, D, P, s, h, hslot => by
    simpa [hb.kind_eq] using hb.aligned here h hslot
  | .declaration _ _ _ loc ty ds hty hds, here, D, P, s, h, hslot => by
    rw [statement_declaration]
    refine hds.aligned (fun j => here ++ [j + 1]) h fun j d hd => ?_
    rw [hslot, slotFrom_cons (i := j + 1) hd, (ahead_declaration loc s ty ds j).role_eq,
      (ahead_declaration loc s ty ds j).after_eq]
  | .exprStmt _ _ loc e ty he, here, D, P, s, h, _ => by
    rw [statement_exprStmt]
    simpa using h.after (expression e .effect)
  | .returnStmt _ _ loc e ty ty' hty he hacc, here, D, P, s, h, _ => by
    rw [after_returnStmt]
    simpa using h.after (expression e _)
  | .breakStmt _ loc, here, D, P, s, h, _ => by
    rw [statement_breakStmt, after_loopJump]
    simpa using h.blank
  | .continueStmt _ loc, here, D, P, s, h, _ => by
    rw [statement_continueStmt, after_loopJump]
    simpa using h.blank
  | .conditional _ _ loc c body rest hc hbody hrest, here, D, P, s, h, hslot => by
    have htested := h.labelled.labelled.after (expression c .value)
    have hfirst :=
      hbody.aligned _ htested (slot_child hslot rfl (ahead_conditional_body loc s c body rest))
    have hrest' := hrest.aligned (fun j => here ++ [j + 2]) hfirst s.label fun j u hu p => by
      have hchild := slot_child hslot (i := j + 2) hu (ahead_conditional_rest loc s c body rest j) p
      rwa [after_branch] at hchild
    rw [statement_conditional, after_conditional, after_bind, after_branch]
    simpa [hc.declaredWithin_eq] using hrest'
  | .whileLoop _ _ loc c body hc hbody, here, D, P, s, h, hslot => by
    have hentered := (h.labelled.labelled.after (expression c .value)).within
      ⟨s.labelled.label, s.label⟩
    have hlooped :=
      hbody.aligned _ hentered (slot_child hslot rfl (ahead_whileLoop_body loc s c body))
    rw [statement_whileLoop, after_whileLoop]
    simpa [hc.declaredWithin_eq] using hlooped.past
  | .doWhile _ _ loc body c hbody hc, here, D, P, s, h, hslot => by
    have hentered :=
      h.labelled.labelled.labelled.within ⟨s.labelled.labelled.label, s.labelled.label⟩
    have hlooped :=
      hbody.aligned _ hentered (slot_child hslot rfl (ahead_doWhile_body loc s c body))
    rw [statement_doWhile, after_doWhile]
    simpa [hc.declaredWithin_eq] using hlooped.past.after (expression c .value)
  | .forLoop _ _ Γ₁ loc first c step body hfirst hc hstep hbody, here, D, P, s, h, hslot => by
    have hopened := hfirst.aligned _ h.enter fun p => by
      rw [slot_child hslot rfl (ahead_forLoop_first loc s first c step body), slotFrom_blank]
    have htested (done : String) := hopened.labelled.labelled.labelled.unlessOmitted c done
    have hlooped := hbody.aligned _ ((htested _).within _)
      (slot_child hslot (i := 3) rfl (ahead_forLoop_body loc s first c step body))
    rw [statement_forLoop, after_inScope, after_bind, after_forLoop]
    simpa [hc.declaredWithin_eq, hstep.declaredWithin_eq] using
      h.leave (hlooped.past.after (expression step .effect))

/-- Behind a block, its declarations are passed but not in scope. -/
theorem TypedBlock.aligned {loop : Bool} {Γ : Scopes} {t : Tree} : TypedBlock IsName ret loop Γ t →
    ∀ (here : List Nat) {D : List (List Tree.Declaration)} {P : List Tree.Declaration}
    {s : Emit.State},
    Aligned G slot D P held s Γ → (∀ p, slot (here ++ p) = slotFrom p .statement t s) →
    Aligned G slot D (declaredWithin here t ++ P) held (Emit.after (statement t) s) Γ
  | .mk _ _ _ loc ts hts, here, D, P, s, h, hslot => by
    have hall := hts.aligned (fun j => here ++ [j]) h.enter fun j u hu =>
      slot_child hslot hu (ahead_block loc s ts j)
    rw [statement_block, after_inScope]
    simpa using h.leave hall

theorem TypedAll.aligned {loop : Bool} {Γ Γ' : Scopes} {ts : List Tree} :
    TypedAll IsName ret loop Γ ts Γ' → ∀ (place : Nat → List Nat) {D : List (List Tree.Declaration)}
    {P : List Tree.Declaration} {s : Emit.State}, Aligned G slot D P held s Γ →
    (∀ j t, ts[j]? = some t →
      ∀ p, slot (place j ++ p) = slotFrom p .statement t (Emit.after (statements (ts.take j)) s)) →
    Aligned G slot (D.modifyHead (declaredByAll place ts ++ ·))
      (declaredWithinAll place ts ++ P) held (Emit.after (statements ts) s) Γ'
  | .nil .., place, D, P, s, h, _ => by
    rw [statements_nil]
    simpa [declaredByAll] using h.blank
  | .cons _ _ _ _ t ts ht hts, place, D, P, s, h, hslot => by
    have hone := ht.aligned (place 0) h fun p => by
      rw [hslot 0 t rfl, take_zero, statements_nil, after_pure, slotFrom_blank]
    have hrest := hts.aligned (fun j => place (j + 1)) hone fun j u hu p => by
      have hnext := hslot (j + 1) u hu p
      rwa [take_succ_cons, statements_cons, after_bind] at hnext
    rwa [statements_cons, after_bind, declaredByAll_cons, ← modifyHead_append, declaredWithinAll,
      append_assoc]

theorem TypedBranches.aligned {loop : Bool} {Γ : Scopes} {ts : List Tree} :
    TypedBranches IsName ret loop Γ ts →
    ∀ (place : Nat → List Nat) {D : List (List Tree.Declaration)} {P : List Tree.Declaration}
    {s : Emit.State}, Aligned G slot D P held s Γ → ∀ done : String,
    (∀ j t, ts[j]? = some t →
      ∀ p, slot (place j ++ p) = slotFrom p (.branch done) t
        (Emit.after (branches done (ts.take j)) s)) →
    Aligned G slot D (declaredWithinAll place ts ++ P) held (Emit.after (branches done ts) s) Γ
  | .nil .., place, D, P, s, h, done, _ => by
    rw [branches_nil]
    simpa using h.blank
  | .last _ _ body hbody, place, D, P, s, h, done, hslot => by
    have hone := hbody.aligned (place 0) h fun p => by
      rw [hslot 0 body rfl, take_zero, branches_nil, after_pure, slotFrom_blank, slotFrom_branch]
    rw [branches_block hbody]
    simpa using hone
  | .elseIf _ _ loc c body ts hc hbody hts, place, D, P, s, h, done, hslot => by
    have hslot₀ (p : List Nat) : slot (place 0 ++ p) =
        slotFrom p (.branch done) ⟨.elseIf, "ElseIf", false, loc, [c, body]⟩ s := by
      rw [hslot 0 _ rfl, take_zero, branches_nil, after_pure, slotFrom_blank]
    have hone := hbody.aligned _ (h.labelled.after (expression c .value))
      (slot_child hslot₀ rfl (ahead_elseIf_body loc s c body done))
    have hrest := hts.aligned (fun j => place (j + 1)) hone done fun j u hu p => by
      have hnext := hslot (j + 1) u hu p
      rwa [take_succ_cons, branches_elseIf, after_bind, after_branch] at hnext
    rw [branches_elseIf, after_bind, after_branch]
    simpa [hc.declaredWithin_eq] using hrest

end

end Statements

/-! ## Places -/

section Places

variable {G : Scopes} {slot : List Nat → String} {D : List (List Tree.Declaration)}
  {P : List Tree.Declaration} {held : List String} {s : Emit.State} {Γ Γ' : Scopes} {ty : Ty}
  {ret : Option Ty} {loop : Bool} {t c : Tree} {ts : List Tree} {i : Nat} {here : List Nat}
  {part part' : Tree.Part} {r : Role}

theorem getElem?_of_take {j : Nat} {u : Tree} (h : (ts.take i)[j]? = some u) :
    ts[j]? = some u ∧ (ts.take i).take j = ts.take j := by
  have hj : j < i := by
    have hlt := (List.getElem?_eq_some_iff.mp h).1
    rw [length_take] at hlt
    omega
  rw [List.getElem?_take_of_lt hj] at h
  exact ⟨h, by rw [take_take, Nat.min_eq_left (Nat.le_of_lt hj)]⟩

attribute [local simp] scopeAhead passedAhead declaredWithinAll

theorem Typed.aligned_ahead {Γ₁ : Scopes} (ht : Typed IsName ret loop Γ t Γ')
    (h : Aligned G slot D P held s Γ) (hslot : ∀ p, slot (here ++ p) = slotFrom p .statement t s)
    (hc : t.children[i]? = some c) (hpart : part? t.kind i c = some part)
    (hΓ : ScopesAhead IsName ret loop Γ t i Γ₁) :
    Aligned G slot (scopeAhead here t i D) (passedAhead here t i P) held
      (Emit.after (ahead .statement t i) s) Γ₁ := by
  cases ht with
  | omitted | breakStmt | continueStmt => cases hc
  | block _ _ _ hb =>
    obtain ⟨_, _, _, loc, ts, -⟩ := hb
    have hall := TypedAll.aligned hΓ (fun j => here ++ [j]) h.enter fun j u hu => by
      obtain ⟨hu, hrow⟩ := getElem?_of_take hu
      rw [hrow]
      exact slot_child hslot hu (ahead_block loc s ts j)
    rw [(ahead_block loc s ts i).after_eq]
    simpa using hall
  | declaration _ _ _ loc ty ds hty hds =>
    match i with
    | 0 => cases hpart
    | i + 1 =>
      have hds : DeclaresAll IsName (.ofTree ty) Γ (ds.take i) Γ₁ := hΓ
      rw [(ahead_declaration loc s ty ds i).after_eq]
      refine hds.aligned _ h fun j d hd => ?_
      obtain ⟨hd, hrow⟩ := getElem?_of_take hd
      rw [hslot, slotFrom_cons (i := j + 1) hd, (ahead_declaration loc s ty ds j).role_eq,
        (ahead_declaration loc s ty ds j).after_eq, hrow]
  | exprStmt _ _ loc e =>
    cases hΓ
    exact h.after (pure _)
  | returnStmt _ _ loc e =>
    cases hΓ
    exact h.blank
  | conditional _ _ loc cond first rest hcond hfirst hrest =>
    cases hΓ
    have htested := h.labelled.labelled.after (expression cond .value)
    match i with
    | 0 => simpa [(ahead_conditional_test loc s cond first rest).after_eq] using h.labelled.labelled
    | 1 =>
      simpa [(ahead_conditional_body loc s cond first rest).after_eq,
        hcond.declaredWithin_eq] using htested
    | i + 2 =>
      obtain ⟨htake, -⟩ := hrest.split (i := i) hc
      have hbody := hfirst.aligned _ htested
        (slot_child hslot rfl (ahead_conditional_body loc s cond first rest))
      have hbranches := htake.aligned (fun j => here ++ [j + 2]) hbody s.label fun j u hu p => by
        obtain ⟨hu, hrow⟩ := getElem?_of_take hu
        have hchild :=
          slot_child hslot (i := j + 2) hu (ahead_conditional_rest loc s cond first rest j) p
        rwa [after_branch, ← hrow] at hchild
      rw [(ahead_conditional_rest loc s cond first rest i).after_eq, after_branch]
      simpa [hcond.declaredWithin_eq] using hbranches
  | whileLoop _ _ loc cond body hcond hbody =>
    cases hΓ
    match i with
    | 0 => simpa [(ahead_whileLoop_test loc s cond body).after_eq] using h.labelled.labelled
    | 1 =>
      simpa [(ahead_whileLoop_body loc s cond body).after_eq, hcond.declaredWithin_eq] using
        (h.labelled.labelled.after (expression cond .value)).within _
    | _ + 2 => cases hc
  | doWhile _ _ loc body cond hbody hcond =>
    cases hΓ
    have hentered (labels : LoopLabels) := h.labelled.labelled.labelled.within labels
    match i with
    | 0 => simpa [(ahead_doWhile_body loc s cond body).after_eq] using hentered _
    | 1 =>
      have hlooped :=
        hbody.aligned _ (hentered _) (slot_child hslot rfl (ahead_doWhile_body loc s cond body))
      simpa [(ahead_doWhile_test loc s cond body).after_eq] using hlooped.past
    | _ + 2 => cases hc
  | forLoop _ _ Γ₀ loc first cond step body hfirst hcond hstep hbody =>
    match i with
    | 0 =>
      cases hΓ
      simpa [declaredByAll, (ahead_forLoop_first loc s first cond step
        body).after_eq] using h.enter.blank
    | i + 1 =>
      -- behind the first step, all parts see what it declares
      have hD : scopeAhead here ⟨.forLoop, "For", false, loc, [first, cond, step, body]⟩ (i + 1) D =
          declaredBy (here ++ [0]) first :: D := by
        simp [declaredByAll]
      have hscopes : TypedAll IsName ret loop ([] :: Γ) [first] Γ₁ := by
        simpa [ScopesAhead] using hΓ
      obtain _ | ⟨_, _, Γ₂, _, _, _, hfirst', hnil⟩ := hscopes
      cases hnil
      have hopens {Γ₂ : Scopes} (hfirst : Typed IsName ret loop ([] :: Γ) first Γ₂) :=
        hfirst.aligned (here ++ [0]) h.enter fun p => by
          rw [slot_child hslot rfl (ahead_forLoop_first loc s first cond step body), slotFrom_blank]
      obtain rfl : Γ₀ = Γ₁ := (hopens hfirst).types_eq.trans (hopens hfirst').types_eq.symm
      have hopened := hopens hfirst
      rw [modifyHead_cons, append_nil] at hopened
      have htested (done : String) := hopened.labelled.labelled.labelled.unlessOmitted cond done
      rw [hD]
      match i with
      | 0 =>
        simpa [(ahead_forLoop_test loc s first cond step
          body).after_eq] using hopened.labelled.labelled.labelled
      | 1 =>
        -- the step comes behind the body
        have hlooped := hbody.aligned _ ((htested _).within _)
          (slot_child hslot (i := 3) rfl (ahead_forLoop_body loc s first cond step body))
        simpa [(ahead_forLoop_step loc s first cond step body).after_eq, hcond.declaredWithin_eq,
          hstep.declaredWithin_eq] using hlooped.past
      | 2 =>
        simpa [(ahead_forLoop_body loc s first cond step body).after_eq, hcond.declaredWithin_eq,
          hstep.declaredWithin_eq] using (htested _).within _
      | _ + 3 => cases hc

theorem TypedBranches.aligned_ahead {Γ₁ : Scopes} {done : String}
    (ht : TypedBranches IsName ret loop Γ [t]) (h : Aligned G slot D P held s Γ)
    (hslot : ∀ p, slot (here ++ p) = slotFrom p (.branch done) t s) (hc : t.children[i]? = some c)
    (hpart : part? t.kind i c = some part) (hΓ : ScopesAhead IsName ret loop Γ t i Γ₁) :
    Aligned G slot (scopeAhead here t i D) (passedAhead here t i P) held
      (Emit.after (ahead (.branch done) t i) s) Γ₁ := by
  cases ht with
  | last _ _ _ hbody =>
    have hslot' (p : List Nat) := (hslot p).trans (slotFrom_branch p done t s)
    rw [ahead_branch]
    exact (Typed.block loop Γ t hbody).aligned_ahead h hslot' hc hpart hΓ
  | elseIf _ _ loc cond body _ hcond hbody =>
    cases hΓ
    match i with
    | 0 => simpa [(ahead_elseIf_test loc s cond body done).after_eq] using h.labelled
    | 1 =>
      simpa [(ahead_elseIf_body loc s cond body done).after_eq, hcond.declaredWithin_eq] using
        h.labelled.after (expression cond .value)
    | _ + 2 => cases hc

theorem HasType.scopeAhead_eq {e : Tree} (h : HasType Γ e ty) : scopeAhead here e i D = D := by
  cases h <;> rfl

/-- Inside of an expression the scopes stay, and an item that is assigned is held in a slot of its
own. -/
theorem HasType.aligned_ahead {e : Tree} (he : HasType Γ e ty) (h : Aligned G slot D P held s Γ)
    (d : Demand) :
    Aligned G slot D P (heldAhead (.value d) e i s held)
      (Emit.after (ahead (.value d) e i) s) Γ := by
  rw [heldAhead]
  split
  · next hhold =>
    obtain ⟨rfl, hholds⟩ := hhold
    cases he with
    | assignItem loc loc' loc'' x e value =>
      have hd : d ≠ .effect := (of_decide_eq_true hholds).2
      have hahead := ahead_target_entry loc d s hd x loc' loc'' e value
      rw [hahead.after_eq, hahead.code_eq, getLast?_append]
      exact (h.after _).hold
    | assign loc loc' x value => simp [holds, nameAt] at hholds
    | _ => cases hholds
  · exact h.after _

section

variable {σ : Checker.State} (h : TypedPart IsName σ part t) (hr : r.Suits part t)
  (hpart : part.IsInner)
  (ha : Aligned G slot D P held s σ.scopes) (hslot : ∀ p, slot (here ++ p) = slotFrom p r t s)

include h hr hpart ha hslot

/-- **The declarations at the parts of a part** inside of a function. -/
theorem TypedPart.aligned_ahead (hc : t.children[i]? = some c)
    (hpart' : part? t.kind i c = some part') :
    Aligned G slot (scopeAhead here t i D) (passedAhead here t i P) (heldAhead r t i s held)
      (Emit.after (ahead r t i) s) (Checker.ahead t i σ).2.scopes := by
  cases h with
  | program => exact absurd rfl hpart.1
  | function | item => exact absurd rfl hpart.2
  | parameter _ hk =>
    rw [hk] at hpart'
    cases hpart'
  | statement ret loop _ Γ hs ht =>
    cases hr
    rw [heldAhead_eq rfl]
    exact ht.aligned_ahead ha hslot hc hpart' (ht.step hs hc hpart').2
  | branch ret loop _ hs ht =>
    obtain ⟨done⟩ := hr
    rw [heldAhead_eq rfl]
    exact ht.aligned_ahead ha hslot hc hpart' (ht.step hs hc hpart').2
  | declarator ret loop ty _ Γ hs _ hd =>
    obtain ⟨ty'⟩ := hr
    rw [heldAhead_eq rfl]
    cases hd <;> exact ha.after _
  | expression ret loop _ ty hs he =>
    have hsame : passedAhead here t i P = P := by cases he <;> rfl
    rw [(he.step (N := IsName) hs hc hpart').1, he.scopeAhead_eq, hsame]
    cases hr with
    | value d => exact he.aligned_ahead ha d
    | name | base => cases hc
    | entry d x loc loc' e =>
      rw [heldAhead_eq rfl]
      exact ha.after _

/-- **The declarations at every place of a part** inside of a function. -/
theorem TypedPart.aligned_reach {p : List Nat} {u : Tree}
    (hp : partAt? p part t = some (part', u)) :
    Aligned G slot (scopeTo here p t D) (passedTo here p t P) (heldTo p r t s held)
      (Emit.after (Emit.reach p r t) s) (Checker.reach p t σ).2.scopes := by
  induction p generalizing here t part σ r s D P held with
  | nil => exact ha.after (pure r)
  | cons i p ih =>
    obtain ⟨c, part₁, hc, hpart₁, hp⟩ := partAt?_cons hp
    have hinner := part?_isInner (h.kind_ne hpart).1 hpart₁
    have hahead := h.aligned_ahead hr hpart ha hslot hc hpart₁
    rw [scopeTo_cons hc, passedTo_cons hc, heldTo_cons hc, Emit.reach_cons hc,
      Checker.reach_cons hc, after_bind]
    refine ih (h.step hc hpart₁) (h.splits hr s hc hpart₁).suits hinner hahead ?_ hp
    exact slot_child hslot hc ⟨rfl, rfl, rfl⟩

end

end Places

end Stacklet
