import Stacklet.Proofs.Emission.Ahead
import Stacklet.Proofs.Execution
import Stacklet.Proofs.Typing.Places
/-!
# Code of the parts of a program

* `Emit.Splits`: the code of a child inside of that of its node. `TypedPart.splits`: so it is for
  the parts of a typed part. `TypedPart.splits_reach`: so it is for every place.
* `Tree.loweredAt`, `Tree.roleAt`, `Tree.codeAhead`: how the part at a place of a program is
  lowered, and behind which code.
-/

namespace Stacklet

open Stacklet.Tree hiding lower
open List

variable {ts : List Tree} {r : Role} {t : Tree} {part part' : Tree.Part}

namespace Emit

/-! ## Code of a child inside of that of its node -/

/-- Code that begins with an instruction other than a label. -/
def Opens (c : List Instr) : Prop := ∃ i c', c = i :: c' ∧ i.placed? = none

theorem Opens.cons {i : Instr} (h : i.placed? = none) (c : List Instr) :
    Opens (i :: c) := ⟨i, c, rfl, h⟩

theorem placed?_of_isStraight {i : Instr} (h : i.isStraight) : i.placed? = none := by
  cases i with
  | label => cases h
  | _ => rfl

theorem Opens.of_plain {α : Type} (x : Emit α) [Plain x] (s : State) {c : List Instr}
    (h : Opens c) :
    Opens (code x s ++ c) := by
  cases hx : code x s with
  | nil => exact h
  | cons i c' =>
    exact .cons (placed?_of_isStraight (Plain.straight (x := x) s i (hx ▸ mem_cons_self ..))) _

end Emit

/-- Whether the value of a node in its role is wanted. -/
def Role.Wanted : Role → Prop
  | .value d => d ≠ .effect
  | _ => False

/-- A role in which a part is lowered. -/
inductive Role.Suits : Role → Tree.Part → Tree → Prop
  | program (t : Tree) : Suits .program .program t
  | item (t : Tree) : Suits .item .item t
  | parameter (t : Tree) : Suits .parameter .parameter t
  | statement (t : Tree) : Suits .statement .statement t
  | branch (done : String) (t : Tree) : Suits (.branch done) .branch t
  | declarator (ty : Ty) (t : Tree) : Suits (.declarator ty) .declarator t
  | value (d : Demand) (t : Tree) : Suits (.value d) .expression t
  | name (d : Demand) (x : String) (loc : Loc) : Suits (.target d) .expression (.nameAt x loc)
  | entry (d : Demand) (x : String) (loc loc' : Loc) (i : Tree) :
    Suits (.target d) .expression
      { kind := .index, text := "Index", loc, children := [.nameAt x loc', i] }
  | base (x : String) (loc : Loc) : Suits .base .expression (.nameAt x loc)

open Emit

/-- The code of a node is the code ahead of a child, the code of the child, and some code behind it.
If the value of the child is wanted, something takes it next. -/
structure Emit.Splits (r : Role) (t : Tree) (i : Nat) (part : Tree.Part) (c : Tree) (s : State) :
    Prop where
  suits : Role.Suits (ahead r t i s).1 part c
  code_eq : ∃ behind, code (lower r t) s =
      code (ahead r t i) s ++ (code (lower (ahead r t i s).1 c) (after (ahead r t i) s) ++ behind) ∧
    ((ahead r t i s).1.Wanted → Opens behind ∨ behind = [] ∧ r.Wanted)

theorem Emit.Splits.of {r' : Role} {c : Tree} {i : Nat} {s s' : State} {before : List Instr}
    (hahead : Ahead r t i s r' before s') (hsuits : r'.Suits part c) (behind : List Instr)
    (hcode : code (lower r t) s = before ++ (code (lower r' c) s' ++ behind))
    (hopens : r'.Wanted → Opens behind ∨ behind = [] ∧ r.Wanted) : Splits r t i part c s := by
  obtain ⟨rfl, rfl, rfl⟩ := hahead
  exact ⟨hsuits, behind, hcode, hopens⟩

section Step

variable {Γ : Scopes} {e c : Tree} {ty : Ty} {i : Nat} {part : Tree.Part}

theorem take_append_cons_drop {α : Type} {l : List α} {a : α} (h : l[i]? = some a) :
    l.take i ++ a :: l.drop (i + 1) = l := by
  obtain ⟨hi, rfl⟩ := List.getElem?_eq_some_iff.mp h
  rw [← drop_eq_getElem_cons hi, take_append_drop]

theorem code_values_append (ts ts' : List Tree) (s : Emit.State) :
    code (values (ts ++ ts')) s = code (values ts) s ++ code (values ts')
      (after (values ts) s) := by
  induction ts generalizing s with
  | nil => simp [values]
  | cons t ts ih => simp [values, ih]

theorem code_values_split {args : List Tree} (h : args[i]? = some c) (s : Emit.State) :
    ∃ rest, code (values args) s = code (values (args.take i)) s ++
      (code (expression c .value) (after (values (args.take i)) s) ++
        code (values (args.drop (i + 1))) rest) := by
  refine ⟨after (expression c .value) (after (values (args.take i)) s), ?_⟩
  rw [← code_values_cons, ← code_values_append, take_append_cons_drop h]

theorem opens_dropped (op : String) (d : Demand) :
    Opens (unaryCode op ++ dropped d) ∨ unaryCode op ++ dropped d = [] ∧
    Role.Wanted (.value d) := by
  unfold unaryCode
  split
  · exact .inl (.cons rfl _)
  · exact .inl (.cons rfl _)
  · by_cases hd : d = .effect
    · subst hd
      exact .inl (.cons rfl _)
    · exact .inr ⟨if_neg hd, hd⟩

theorem HasType.splits (h : HasType Γ e ty) (d : Demand) (s : Emit.State)
    (hc : e.children[i]? = some c) (hpart : part? e.kind i c = some part) :
    Splits (.value d) e i part c s := by
  cases h with
  | number | string | var => cases hc
  | unary op loc _ _ _ he =>
    match i with
    | 0 =>
      cases hc
      cases hpart
      exact .of (ahead_unary loc d s op c) (.value _ c) _ (code_unary loc d s op c) fun _ =>
        opens_dropped op d
    | _ + 1 => cases hc
  | binary op loc l r =>
    match i with
    | 0 =>
      cases hc
      cases hpart
      exact .of (ahead_left_binary loc d s op c r) (.value _ c) _ (code_binary loc d s op c r)
        fun _ => .inl (.of_plain _ _ (.cons rfl _))
    | 1 =>
      cases hc
      cases hpart
      exact .of (ahead_right_binary loc d s op l c) (.value _ c) _ (code_binary loc d s op l c)
        fun _ => .inl (.cons rfl _)
    | _ + 2 => cases hc
  | comma loc l r =>
    match i with
    | 0 =>
      cases hc
      cases hpart
      exact .of (ahead_left_comma loc d s c r) (.value _ c) _ (code_comma loc d s c r)
        fun h => absurd rfl h
    | 1 =>
      cases hc
      cases hpart
      refine .of (ahead_right_comma loc d s l c) (.value _ c) [] ?_ fun h => .inr ⟨rfl, ?_⟩
      · rw [append_nil]
        exact code_comma loc d s l c
      · rintro rfl
        exact h rfl
    | _ + 2 => cases hc
  | assign loc loc' x value =>
    match i with
    | 0 =>
      cases hc
      cases hpart
      refine .of (ahead_target_name loc d s x loc' value) (.name d x loc') [] ?_
        (absurd · not_false)
      rw [lower_value, code_assign, code_target_name, slotOf_after, append_nil]
    | 1 =>
      cases hc
      cases hpart
      exact .of (ahead_assigned loc d s (.nameAt x loc') c) (.value _ c) _
        (code_assign loc d s x loc' c)
        fun _ => .inl (.cons rfl _)
    | _ + 2 => cases hc
  | assignItem loc loc' loc'' x e value =>
    by_cases hd : d = .effect
    · subst hd
      have hcode := code_assignItem_effect loc s x loc' loc'' e value
      match i with
      | 0 =>
        cases hc
        cases hpart
        refine .of (ahead_target_effect loc s x loc' loc'' e value) (.entry _ x loc' loc'' e) [] ?_
          (absurd · not_false)
        rw [lower_value, hcode, code_target_entry, slotOf_after, append_nil]
      | 1 =>
        cases hc
        cases hpart
        exact .of (ahead_assigned loc _ s _ c) (.value _ c) _ hcode fun _ =>
          .inl (.of_plain _ _ (.cons rfl _))
      | _ + 2 => cases hc
    · have hcode := code_assignItem loc d s x loc' loc'' e value hd
      match i with
      | 0 =>
        cases hc
        cases hpart
        refine .of (ahead_target_entry loc d s hd x loc' loc'' e value) (.entry _ x loc' loc'' e)
          [.load (hiddenSlot (after (expression value (s.demandOf (s.slotOf x))) s)).1] ?_
            (absurd · not_false)
        rw [lower_value, hcode, code_target_entry, slotOf_after hiddenSlot, slotOf_after]
        simp
      | 1 =>
        cases hc
        cases hpart
        exact .of (ahead_assigned loc d s _ c) (.value _ c) _ hcode fun _ => .inl (.cons rfl _)
      | _ + 2 => cases hc
  | call loc loc' f args ty params hf hargs =>
    match i with
    | 0 => cases hpart
    | i + 1 =>
      cases hpart
      obtain ⟨rest, hvalues⟩ := code_values_split (i := i) hc s
      have hcode := code_call loc d s f loc' args
      rw [hvalues, append_assoc, append_assoc] at hcode
      exact .of (ahead_argument loc d s _ args i) (.value _ c) _ hcode fun _ =>
        .inl (.of_plain _ _ (.cons rfl _))
  | index loc base e =>
    match i with
    | 0 =>
      cases hc
      cases hpart
      exact .of (ahead_left_index loc d s c e) (.value _ c) _ (code_index loc d s c e)
        fun _ => .inl (.of_plain _ _ (.cons rfl _))
    | 1 =>
      cases hc
      cases hpart
      exact .of (ahead_right_index loc d s base c) (.value _ c) _ (code_index loc d s base c)
        fun _ => .inl (.cons rfl _)
    | _ + 2 => cases hc

theorem splits_entry (d : Demand) (x : String) (loc loc' : Loc) (e : Tree) (s : Emit.State)
    (hc : [nameAt x loc', e][i]? = some c) (hpart : part? .index i c = some part) :
    Splits (.target d) ⟨.index, "Index", false, loc, [.nameAt x loc', e]⟩ i part c s := by
  have hcode := code_target_entry d x loc loc' e s
  match i with
  | 0 =>
    cases hc
    cases hpart
    refine .of (ahead_base loc d s x loc' e) (.base x loc') [] ?_ (absurd · not_false)
    rw [hcode, code_base, slotOf_after, append_nil]
  | 1 =>
    cases hc
    cases hpart
    exact .of (ahead_entry loc d s x loc' c) (.value _ c) _ hcode fun _ => .inl (.cons rfl _)
  | _ + 2 => cases hc

variable {N : String → Prop} {ret : Option Ty} {loop : Bool} {Γ' : Scopes}

theorem Declares.splits (h : Declares N ty Γ t Γ') (ty' : Ty) (s : Emit.State)
    (hc : t.children[i]? = some c) (hpart : part? t.kind i c = some part) :
    Splits (.declarator ty') t i part c s := by
  cases h with
  | plain => cases hc
  | initial x loc e =>
    match i with
    | 0 =>
      cases hc
      cases hpart
      exact .of (ahead_initial _ 0 s ty') (.value _ c) _ (code_declarator ty' _ s) fun _ =>
        .inl (.cons rfl _)
    | _ + 1 => cases hc
  | array x loc e =>
    match i with
    | 0 =>
      cases hc
      cases hpart
      have hcode := code_declarator ty' ⟨.declarator, x, true, loc, [c]⟩ s
      rw [code_initialValue_array, append_assoc] at hcode
      exact .of (ahead_initial _ 0 s ty') (.value .value c) _ hcode fun _ => .inl (.cons rfl _)
    | _ + 1 => cases hc

section Rows

variable (s : Emit.State)

theorem code_forM_split (f : Tree → Emit Unit) [∀ t, Local (f t)] (h : ts[i]? = some c) :
    let here := after ((ts.take i).forM f) s
    code (ts.forM f) s = code ((ts.take i).forM f) s ++
      (code (f c) here ++ code ((ts.drop (i + 1)).forM f) (after (f c) here)) := by
  dsimp only
  rw [← code_forM_cons, ← code_forM_append, take_append_cons_drop h]

theorem statements_append (ts ts' : List Tree) :
    statements (ts ++ ts') = statements ts >>= fun _ => statements ts' := by
  induction ts with
  | nil => simp [statements]
  | cons t ts ih => simp [statements, ih]

theorem code_statements_split (h : ts[i]? = some c) :
    let here := after (statements (ts.take i)) s
    code (statements ts) s = code (statements (ts.take i)) s ++
      (code (statement c) here ++ code (statements (ts.drop (i + 1)))
          (after (statement c) here)) := by
  dsimp only
  conv_lhs => rw [← take_append_cons_drop h, statements_append, code_bind, statements_cons,
    code_bind]

theorem branches_append (done : String) (ts ts' : List Tree) :
    branches done (ts ++ ts') = branches done ts >>= fun _ => branches done ts' := by
  induction ts with
  | nil => simp [branches]
  | cons t ts ih =>
    obtain ⟨kind, text, isArray, loc, children⟩ := t
    cases kind with
    | elseIf => rcases children with _ | ⟨c, _ | ⟨body, _⟩⟩ <;> simp [branches, ih]
    | _ => simp [branches, ih]

theorem code_branches_split (done : String) (h : ts[i]? = some c) :
    let here := after (branches done (ts.take i)) s
    code (branches done ts) s = code (branches done (ts.take i)) s ++
      (code (branches done [c]) here ++ code (branches done (ts.drop (i + 1)))
          (after (branches done [c]) here)) := by
  dsimp only
  conv_lhs => rw [← take_append_cons_drop h, ← singleton_append, branches_append, code_bind,
    branches_append, code_bind]

end Rows

theorem Typed.splits (h : Typed N ret loop Γ t Γ') (s : Emit.State) (hc : t.children[i]? = some c)
    (hpart : part? t.kind i c = some part) : Splits .statement t i part c s := by
  cases h with
  | omitted | breakStmt | continueStmt => cases hc
  | block _ _ _ hb =>
    cases hb with
    | mk _ _ _ loc ts =>
      cases hpart
      have hcode := code_statements_split s.enter hc
      rw [← code_inScope, ← statement_block loc] at hcode
      exact .of (ahead_block loc s ts i) (.statement c) _ hcode (absurd · not_false)
  | declaration _ _ _ loc ty ds =>
    rcases i with _ | i
    · cases hpart
    · cases hpart
      rw [getElem?_cons_succ] at hc
      have hcode := code_forM_split s (declarator (.ofTree ty)) hc
      exact .of (ahead_declaration loc s ty ds i) (.declarator _ c) _ hcode (absurd · not_false)
  | exprStmt _ _ loc e =>
    rcases i with _ | _
    · cases hc
      cases hpart
      refine .of (ahead_exprStmt loc s c) (.value _ c) [] ?_ fun h => absurd rfl h
      rw [lower, statement_exprStmt, append_nil]
      rfl
    · cases hc
  | returnStmt _ _ loc e =>
    rcases i with _ | _
    · cases hc
      cases hpart
      exact .of (ahead_returnStmt loc s c) (.value _ c) _ (code_returnStmt loc s c) fun _ =>
        .inl (.cons rfl _)
    · cases hc
  | conditional _ _ loc cond first rest hcond hfirst hrest =>
    have hcode : code (lower .statement ⟨.conditional, "If", false, loc, cond :: first :: rest⟩) s =
        code (branch cond (statement first) s.label) s.labelled ++ (code (branches s.label rest)
          (after (branch cond (statement first) s.label) s.labelled) ++ [Instr.label s.label]) := by
      rw [lower, statement_conditional, code_conditional, code_bind, append_assoc]
    rcases i with _ | _ | i
    · cases hc
      cases hpart
      rw [code_branch, append_assoc] at hcode
      exact .of (ahead_conditional_test loc s c first rest) (.value _ c) _ hcode fun _ =>
        .inl (.cons rfl _)
    · cases hc
      cases hpart
      refine .of (ahead_conditional_body loc s cond c rest) (.statement c)
        ([.jump s.label, .label s.labelled.label] ++ (code (branches s.label rest)
          (after (branch cond (statement c) s.label) s.labelled) ++ [Instr.label s.label])) ?_
            (absurd · not_false)
      rw [hcode, code_branch]
      simp
    · cases hpart
      rw [getElem?_cons_succ, getElem?_cons_succ] at hc
      rw [code_branches_split _ s.label hc, append_assoc, append_assoc, ← append_assoc] at hcode
      exact .of (ahead_conditional_rest loc s cond first rest i) (.branch s.label c) _ hcode
        (absurd · not_false)
  | whileLoop _ _ loc cond b hcond hb =>
    have hcode := code_whileLoop loc (unlessTrue cond) (statement b) s
    dsimp only at hcode
    rw [code_unlessTrue, after_unlessTrue, ← statement_whileLoop] at hcode
    rcases i with _ | _ | _
    · cases hc
      cases hpart
      rw [append_assoc] at hcode
      exact .of (ahead_whileLoop_test loc s c b) (.value _ c) _ hcode fun _ => .inl (.cons rfl _)
    · cases hc
      cases hpart
      exact .of (ahead_whileLoop_body loc s cond c) (.statement c) _ hcode (absurd · not_false)
    · cases hc
  | doWhile _ _ loc b cond hb hcond =>
    have hcode := code_doWhile loc (unlessTrue cond) (statement b) s
    dsimp only at hcode
    rw [code_unlessTrue, ← statement_doWhile] at hcode
    rcases i with _ | _ | _
    · cases hc
      cases hpart
      exact .of (ahead_doWhile_body loc s cond c) (.statement c) _ hcode (absurd · not_false)
    · cases hc
      cases hpart
      refine .of (ahead_doWhile_test loc s c b) (.value _ c)
        (.jumpIfZero s.labelled.labelled.label ::
        [.jump s.label, .label s.labelled.labelled.label]) ?_ fun _ => .inl (.cons rfl _)
      rw [lower, hcode]
      simp
    · cases hc
  | forLoop _ _ Γ₁ loc first cond step b hfirst hcond hstep hb =>
    have hcode : code (lower .statement ⟨.forLoop, "For", false, loc, [first, cond, step, b]⟩) s =
        code (statement first) s.enter ++ code (Emit.forLoop loc (unlessOmitted cond) (statement b)
          (expression step .effect)) (after (statement first) s.enter) := by
      rw [lower, statement_forLoop, code_inScope, code_bind]
    rcases i with _ | _ | _ | _ | _
    · cases hc
      cases hpart
      exact .of (ahead_forLoop_first loc s c cond step b) (.statement c) _ hcode
        (absurd · not_false)
    · cases hc
      cases hcond with
      | omitted => cases hpart
      | expr _ hcond =>
        cases hcond.part?_eq hpart
        have htest (done : String) (s : Emit.State) : code (unlessOmitted c done) s =
            code (expression c .value) s ++ [Instr.jumpIfZero done] := by
          rw [unlessOmitted, if_neg hcond.kind_ne_empty, code_unlessTrue]
        simp only [code_forLoop, htest, append_assoc, cons_append, nil_append] at hcode
        rw [append_cons] at hcode
        exact .of (ahead_forLoop_test loc s first c step b) (.value _ c) _ hcode fun _ =>
          .inl (.cons rfl _)
    · cases hc
      cases hstep with
      | omitted => cases hpart
      | expr _ _ hstep =>
        cases hstep.part?_eq hpart
        refine .of (ahead_forLoop_step loc s first cond c b) (.value _ c)
          [.jump (after (statement first) s.enter).label,
            .label (after (statement first) s.enter).labelled.labelled.label] ?_
              fun h => absurd rfl h
        rw [hcode, code_forLoop]
        simp
    · cases hc
      cases hpart
      rw [code_forLoop] at hcode
      dsimp only at hcode
      rw [← cons_append, ← append_assoc] at hcode
      exact .of (ahead_forLoop_body loc s first cond step c) (.statement c) _ hcode
        (absurd · not_false)
    · cases hc

theorem TypedFunction.bodyOf?_eq (h : TypedFunction N Γ t) (hc : t.children[i]? = some c)
    (hblock : c.kind = .block) : bodyOf? t.children = some c := by
  obtain ⟨f, loc, ty, ps, body, Γ', -, hty, hps, hbody⟩ := h
  have hbody' : body.kind = .block := by
    obtain ⟨⟩ := hbody
    rfl
  rw [bodyOf?_function ty ps hbody']
  have hmem := mem_of_getElem? hc
  rw [mem_cons, mem_append, mem_singleton] at hmem
  rcases hmem with rfl | hmem | rfl
  · exact absurd ((kind_of_isValue hty).symm.trans hblock) nofun
  · exact absurd ((hps.kind_eq c hmem).symm.trans hblock) nofun
  · rfl

theorem TypedFunction.splits (h : TypedFunction N Γ t) (s : Emit.State)
    (hc : t.children[i]? = some c) (hpart : part? t.kind i c = some part) :
    Splits .item t i part c s := by
  obtain ⟨hk, -, body, -, hbody, -, -, -⟩ := h.parts
  have hcode : code (lower .item t) s = code (prologue t) s ++
      (code (statement body) (after (prologue t) s) ++
      endCode (after (opening t) s).returnType (code (opening t) s)) := by
    rw [lower, item_of_function hk, code_function, code_opening, hbody, Option.elim_some,
      append_assoc]
  rw [hk] at hpart
  unfold part? at hpart
  dsimp only at hpart
  split at hpart
  · next hparam =>
    cases hpart
    rw [code_prologue, cons_append] at hcode
    have hahead := ahead_parameter hk hc (by simp [hparam])
    have hnone : code (lower .parameter c) (after (ahead .item t i) s) = [] := code_parameter c _
    have hbefore : Ahead .item t i s .parameter [.label t.text] (after (ahead .item t i) s) := by
      refine ⟨by rw [hahead]; rfl, ?_, rfl⟩
      rw [hahead]
      simp [(mapM_parameter _ _).1]
    exact .of hbefore (.parameter c) _ (by rw [hnone]; exact hcode) (absurd · not_false)
  · next hblock =>
    cases hpart
    have hahead := ahead_body hk hc hblock
    obtain rfl : c = body := Option.some.inj ((h.bodyOf?_eq hc hblock).symm.trans hbody)
    have hbefore : Ahead .item t i s .statement (code (prologue t) s) (after (prologue t) s) :=
      ⟨by rw [hahead]; rfl, by simp [hahead], by simp [hahead]⟩
    exact .of hbefore (.statement c) _ hcode (absurd · not_false)
  · cases hpart

theorem Emit.Splits.of_statement {s : Emit.State} (h : Splits .statement t i part c s)
    (hlower : lower r t = statement t) (hahead : ahead r t i = ahead .statement t i) :
    Splits r t i part c s := by
  obtain ⟨hsuits, behind, hcode, hopens⟩ := h
  refine ⟨hahead ▸ hsuits, behind, ?_, fun hw => ?_⟩
  · rw [hlower, hahead]
    exact hcode
  · rw [hahead] at hw
    rcases hopens hw with hopen | ⟨-, hw⟩
    · exact .inl hopen
    · exact hw.elim

theorem splits_elseIf (done : String) (loc : Loc) (cond body : Tree) (s : Emit.State)
    (hc : [cond, body][i]? = some c) (hpart : part? .elseIf i c = some part) :
    Splits (.branch done) ⟨.elseIf, "ElseIf", false, loc, [cond, body]⟩ i part c s := by
  have hcode : code (lower (.branch done) ⟨.elseIf, "ElseIf", false, loc, [cond, body]⟩) s =
      code (expression cond .value) s.labelled ++ Instr.jumpIfZero s.label ::
        (code (statement body) (after (expression cond .value) s.labelled) ++
            [Instr.jump done, .label s.label]) := by
    rw [lower, branches_elseIf, branches_nil, code_bind, code_branch, code_pure, append_nil]
  rcases i with _ | _ | _
  · cases hc
    cases hpart
    exact .of (ahead_elseIf_test loc s c body done) (.value .value c) _ hcode fun _ =>
      .inl (.cons rfl _)
  · cases hc
    cases hpart
    refine .of (ahead_elseIf_body loc s cond c done) (.statement c) [.jump done, .label s.label] ?_
      (absurd · not_false)
    rw [hcode, append_assoc]
    rfl
  · cases hc

/-- **The code of the parts of a typed part** stands in the code of that part, behind what is
emitted ahead of it. -/
theorem TypedPart.splits {σ : Checker.State}
    (h : TypedPart N σ part t) (hr : r.Suits part t) (s : Emit.State) (hc : t.children[i]? = some c)
    (hpart : part? t.kind i c = some part') : Splits r t i part' c s := by
  cases h with
  | program _ Γ hs hk =>
    cases hr
    rw [hk] at hpart
    cases hpart
    exact .of (ahead_item t i s) (.item c) _ (code_forM_split s Emit.item hc) (absurd · not_false)
  | function _ hs ht =>
    cases hr
    exact ht.splits s hc hpart
  | item _ Γ hs hk ht =>
    cases hr
    exact (ht.splits s hc hpart).of_statement (item_of_ne hk) (by cases t; rfl)
  | parameter _ hk =>
    rw [hk] at hpart
    cases hpart
  | statement ret loop _ Γ hs ht =>
    cases hr
    exact ht.splits s hc hpart
  | branch ret loop _ hs ht =>
    cases hr with
    | branch done =>
      cases ht with
      | last _ _ _ hbody =>
        refine ((Typed.block loop σ.scopes t hbody).splits s hc hpart).of_statement
          (branches_block hbody done)
          (ahead_branch done t i)
      | elseIf _ _ loc cond body _ hcond hbody =>
        exact splits_elseIf done loc cond body s hc hpart
  | declarator ret loop ty _ Γ hs _ hd =>
    cases hr with
    | declarator ty' => exact hd.splits ty' s hc hpart
  | expression ret loop _ ty hs he =>
    cases hr with
    | value d => exact he.splits d s hc hpart
    | name | base => cases hc
    | entry d x loc loc' e => exact splits_entry d x loc loc' e s hc hpart

/-- **The code of every part of a typed part** stands in the code of that part, behind what is
emitted ahead of its place. -/
theorem TypedPart.splits_reach {p : List Nat} {σ : Checker.State} {u : Tree}
    (h : TypedPart N σ part t) (hr : r.Suits part t) (hp : partAt? p part t = some (part', u))
    (s : Emit.State) :
    (Emit.reach p r t s).1.Suits part' u ∧
      ∃ behind, code (lower r t) s = code (Emit.reach p r t) s ++
        (code (lower (Emit.reach p r t s).1 u) (after (Emit.reach p r t) s) ++ behind) ∧
      ((Emit.reach p r t s).1.Wanted → Opens behind ∨ behind = [] ∧ r.Wanted) := by
  induction p generalizing part t σ r s with
  | nil =>
    cases hp
    exact ⟨hr, [], by simp [Emit.reach], fun hw => .inr ⟨rfl, hw⟩⟩
  | cons i p ih =>
    obtain ⟨c, part₁, hc, hpart, hp⟩ := partAt?_cons hp
    obtain ⟨hsuits, behind, hcode, hopens⟩ := h.splits hr s hc hpart
    obtain ⟨hsuits', behind', hcode', hopens'⟩ :=
      ih (h.step hc hpart) hsuits hp (after (Emit.ahead r t i) s)
    rw [Emit.reach_cons hc, code_bind, after_bind, result_bind]
    refine ⟨hsuits', behind' ++ behind, ?_, fun hw => ?_⟩
    · rw [hcode, hcode']
      simp only [append_assoc]
    · rcases hopens' hw with ⟨instr, rest, rfl, hi⟩ | ⟨rfl, hw⟩
      · exact .inl ⟨instr, rest ++ behind, rfl, hi⟩
      · exact hopens hw

end Step

/-! ## Places of a program -/

theorem Emit.reach_append {p : List Nat} {u : Tree}
    (hp : partAt? p part t = some (part', u)) (q : List Nat) (r : Role) :
    Emit.reach (p ++ q) r t = Emit.reach p r t >>= fun r => Emit.reach q r u := by
  induction p generalizing part t r with
  | nil =>
    cases hp
    rw [nil_append, Emit.reach, pure_bind]
  | cons i p ih =>
    obtain ⟨c, part₁, hc, -, hp⟩ := partAt?_cons hp
    rw [cons_append, reach_cons hc, reach_cons hc, bind_assoc]
    simp only [ih hp]

namespace Tree

variable (t : Tree) (p : List Nat)

/-- The state in which the part at a place of a program is lowered. -/
def loweredAt : Emit.State := after (Emit.reach p .program t) t.start

/-- What the part at a place of a program is lowered as. -/
def roleAt : Role := (Emit.reach p .program t t.start).1

/-- The code of a program ahead of that of the part at a place. -/
def codeAhead : List Instr := code (Emit.reach p .program t) t.start

variable {t p} {part : Part} {u : Tree}

theorem loweredAt_append (hp : partAt? p .program t = some (part, u)) (q : List Nat) :
    t.loweredAt (p ++ q) = after (Emit.reach q (t.roleAt p) u) (t.loweredAt p) := by
  rw [loweredAt, Emit.reach_append hp, after_bind]
  rfl

theorem roleAt_append (hp : partAt? p .program t = some (part, u)) (q : List Nat) :
    t.roleAt (p ++ q) = (Emit.reach q (t.roleAt p) u (t.loweredAt p)).1 := by
  rw [roleAt, Emit.reach_append hp, result_bind]
  rfl

theorem codeAhead_append (hp : partAt? p .program t = some (part, u)) (q : List Nat) :
    t.codeAhead (p ++ q) = t.codeAhead p ++ code (Emit.reach q (t.roleAt p) u) (t.loweredAt p) := by
  rw [codeAhead, Emit.reach_append hp, code_bind]
  rfl

end Tree

end Stacklet
