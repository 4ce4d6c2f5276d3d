import Stacklet.Proofs.Values.Settled
/-!
# Forms of values around expressions

* `Outline.values`: assertions about the forms of operands and variables at all places.
* `Tree.Orderly`: the conditions under which all values have their forms.
* `FunctionIn.computes_values`: then what is asserted fits together around expressions.
-/

namespace Stacklet

open Emit Activation List
open Stacklet.Tree hiding lower

/-- Two assertions at each place. -/
def Outline.inf {X : Type} (a b : Outline X) : Outline X where
  ahead p x := a.ahead p x ∧ b.ahead p x
  behind p x := a.behind p x ∧ b.behind p x

theorem Shaping.whole_outer (S : Shaping) : Shape.whole.within (S.outer true) := by
  have h := S.unset_outer
  cases hshape : S.outer true <;> rw [hshape] at h <;> first | rfl | cases h

section Definitions

variable (S : Shaping) (t : Tree)

namespace Outline

/-- The operands have their forms, and so have the values in hidden slots. -/
def operands : Outline Activation where
  ahead p := Poised (t.Holds S p) (t.takenAt S p ++ (t.waitingAt S p).1)
  behind p := Poised (t.Holds S p) (t.leftAt S p ++ (t.waitingAt S p).1)

/-- The operands and the variables have their forms. -/
def values : Outline Activation :=
  (visible t fun k v x => v.IsFormed S t k x.locals).inf (operands S t)

end Outline

/-- What is known behind an expression whose value is wanted as `d`. -/
def Tree.Yields (p : List Nat) (d : Demand) : Activation → Prop :=
  Poised (t.Settled S p) ((if d = .effect then [] else [t.formAt S p]) ++ (t.waitingAt S p).1)

/-- The conditions under which all values have their forms: values that are wanted are there, stores
go to variables of their types, names from outside are not mixed up with local ones, and the given
shapes are kept. -/
structure Tree.Orderly : Prop where
  hasValues : t.hasValues
  storesTyped : t.storesTyped
  separatesNames : t.separatesNames
  keepsShapes : t.keepsShapes S

end Definitions

theorem forall₂_has_mono {fs gs : List Form} {vs : List Value}
    (h : List.Forall₂ (fun f g => ∀ v, f.Has v → g.Has v) fs gs)
    (hvs : List.Forall₂ Form.Has fs vs) :
    List.Forall₂ Form.Has gs vs := by
  induction h generalizing vs with
  | nil => exact hvs
  | cons hfg _ ih =>
    cases hvs with
    | cons hv hvs => exact .cons (hfg _ hv) (ih hvs)

theorem poised_mono {J : Locals → Prop} {f g : Form} {fs : List Form} (h : ∀ v, f.Has v → g.Has v) :
    Poised J (f :: fs) ≤ Poised J (g :: fs) := by
  rintro x ⟨hJ, vs, hstack, hvs⟩
  cases hvs with
  | cons hv hvs => exact ⟨hJ, _, hstack, .cons (h _ hv) hvs⟩

theorem inf_poised {J : Locals → Prop} {fs : List Form} {A : Activation → Prop}
    (h : A = Poised (fun _ => True) fs) :
    (fun x => J x.locals ∧ A x) = Poised J fs := by
  subst h
  exact funext fun x => propext ⟨fun h => ⟨h.1, h.2.2⟩, fun h => ⟨h.1, trivial, h.2⟩⟩

/-! ## Operands -/

section Operands

variable {S : Shaping} {t e c : Tree} {k i : Nat} {p : List Nat} {d d' : Demand} {ty : Ty}
  {before : List Instr}
  {s' : Emit.State}

theorem Tree.holds_of_nil (h : (t.waitingAt S p).2 = []) : t.Holds S p = fun _ => True := by
  refine funext fun ls => eq_true ?_
  rw [Tree.Holds, h]
  exact forall_mem_nil _

theorem Outline.values_ahead (p : List Nat) :
    (values S t).ahead p = Poised (t.Settled S p) (t.takenAt S p ++ (t.waitingAt S p).1) :=
  funext fun _ => propext and_assoc.symm

theorem Tree.roleAt_child {r r' : Role} {part : Part} (hp : partAt? p .program t = some (part, e))
    (hr : t.roleAt p = r) (hc : e.children[i]? = some c)
    (hahead : Ahead r e i (t.loweredAt p) r' before s') : t.roleAt (p ++ [i]) = r' := by
  rw [roleAt_snoc hp hc, hr]
  exact hahead.role_eq

variable (ht : TypedTree IsName t)
  (hp : partAt? (k :: p) .program t = some (.expression, e))

include ht hp

theorem TypedTree.values_behind :
    (Outline.values S t).behind (k :: p) = Poised (t.Settled S (k :: p))
      (t.leftAt S (k :: p) ++ (t.waitingAt S (k :: p)).1) := by
  have hvisible := ht.visible_behind (V := fun k v (x : Activation) => v.IsFormed S t k x.locals) hp
  refine funext fun x => propext ?_
  rw [Outline.values, Outline.inf]
  dsimp only
  rw [hvisible]
  exact and_assoc.symm

theorem TypedTree.values_value (hr : t.roleAt (k :: p) = .value d) :
    (Outline.values S t).ahead (k :: p) = Poised (t.Settled S (k :: p)) (t.waitingAt S (k :: p)).1 ∧
    (Outline.values S t).behind (k :: p) = t.Yields S (k :: p) d := by
  rw [Outline.values_ahead, ht.values_behind hp, takenAt, leftAt, hr]
  exact ⟨rfl, rfl⟩

theorem TypedTree.settled_child (hc : e.children[i]? = some c)
    (hheld : (t.waitingAt S ((k :: p) ++ [i])).2 = (t.waitingAt S (k :: p)).2) :
    t.Settled S ((k :: p) ++ [i]) = t.Settled S (k :: p) := by
  refine funext fun ls => propext ?_
  rw [Tree.Settled, Tree.Settled, Tree.Holds, Tree.Holds, hheld]
  exact and_congr_left fun _ => forall_congr' fun v =>
    imp_congr_left (ht.visibleAhead_child_iff hp (.inr rfl) hc)

theorem TypedTree.values_child {fs : List Form} (hc : e.children[i]? = some c)
    (hpart : part? e.kind i c = some .expression) (hrole : t.roleAt ((k :: p) ++ [i]) = .value d)
    (hwaiting : t.waitingAt S ((k :: p) ++ [i]) =
      (fs ++ (t.waitingAt S (k :: p)).1, (t.waitingAt S (k :: p)).2)) :
    (Outline.values S t).ahead ((k :: p) ++ [i]) = Poised (t.Settled S (k :: p))
      (fs ++ (t.waitingAt S (k :: p)).1) ∧
    (Outline.values S t).behind ((k :: p) ++ [i]) = Poised (t.Settled S (k :: p))
      ((if d = .effect then [] else [t.formAt S ((k :: p) ++ [i])]) ++
        (fs ++ (t.waitingAt S (k :: p)).1)) := by
  have hchild := ht.values_value (S := S) (partAt?_snoc hp hc hpart) (p := p ++ [i]) hrole
  have hfirst : (t.waitingAt S (k :: (p ++ [i]))).1 = fs ++ (t.waitingAt S (k :: p)).1 :=
    congrArg Prod.fst hwaiting
  rw [← ht.settled_child hp hc (by rw [hwaiting])]
  rw [Tree.Yields, hfirst] at hchild
  exact hchild

omit ht in
theorem Tree.waitingAt_operand (hr : t.roleAt (k :: p) = .value d)
    (hi : (t.roleAt ((k :: p) ++ [i])).isExpression) (hholds : i = 0 → holds (.value d) e = false) :
    t.waitingAt S ((k :: p) ++ [i]) =
      (t.operandsAhead S (k :: p) (.value d) e.kind i ++ (t.waitingAt S (k :: p)).1,
        (t.waitingAt S (k :: p)).2) := by
  have hnone : t.holdsAhead S (k :: p) (.value d) e i = [] := by
    rw [holdsAhead, heldAhead,
      if_neg fun h => by rw [hholds h.1] at h; exact absurd h.2 Bool.false_ne_true]
    rfl
  rw [waitingAt_value hp hr hi, hnone]
  rfl

theorem TypedTree.values_operand (hr : t.roleAt (k :: p) = .value d) (hc : e.children[i]? = some c)
    (hpart : part? e.kind i c = some .expression) (hholds : i = 0 → holds (.value d) e = false)
    (hahead : Ahead (.value d) e i (t.loweredAt (k :: p)) (.value d') before s') :
    (Outline.values S t).ahead ((k :: p) ++ [i]) = Poised (t.Settled S (k :: p))
      (t.operandsAhead S (k :: p) (.value d) e.kind i ++ (t.waitingAt S (k :: p)).1) ∧
    (Outline.values S t).behind ((k :: p) ++ [i]) = Poised (t.Settled S (k :: p))
      ((if d' = .effect then [] else [t.formAt S ((k :: p) ++ [i])]) ++
        (t.operandsAhead S (k :: p) (.value d) e.kind i ++ (t.waitingAt S (k :: p)).1)) := by
  have hrole := roleAt_child hp hr hc hahead
  exact ht.values_child hp hc hpart hrole (waitingAt_operand hp hr (by rw [hrole]; rfl) hholds)

theorem TypedTree.values_target (hr : t.roleAt (k :: p) = .target d) :
    (Outline.values S t).ahead (k :: p) =
      Poised (t.Settled S (k :: p)) (t.formAt S (k :: p) :: (t.waitingAt S (k :: p)).1) ∧
    (Outline.values S t).behind (k :: p) = Poised (t.Settled S (k :: p))
      ((if d = .effect ∨ e.kind = .index then [] else [t.formAt S (k :: p)]) ++
        (t.waitingAt S (k :: p)).1) := by
  rw [Outline.values_ahead, ht.values_behind hp, takenAt, leftAt, hr, expressionAt?_of_partAt? hp]
  exact ⟨rfl, by simp only [Option.map_some, Option.some.injEq]⟩

theorem TypedTree.valueTy_operand (hc : e.children[i]? = some c)
    (hpart : part? e.kind i c = some .expression) (he : HasType (t.checkedAt (k :: p)).scopes c ty)
    (hw : t.roleAt ((k :: p) ++ [i]) = .value .double → widened? c = none) :
    t.valueTy ((k :: p) ++ [i]) = ty := by
  refine valueTy_eq (p := p ++ [i]) (partAt?_snoc hp hc hpart) ?_ hw
  rw [← cons_append, ht.checkedAt_child hp hc hpart]
  exact he

theorem TypedTree.valueTy_plain (hr : t.roleAt (k :: p) = .value d) (hc : e.children[i]? = some c)
    (hpart : part? e.kind i c = some .expression)
    (hahead : Ahead (.value d) e i (t.loweredAt (k :: p)) (.value .value) before s')
    (he : HasType (t.checkedAt (k :: p)).scopes c ty) : t.valueTy ((k :: p) ++ [i]) = ty :=
  ht.valueTy_operand hp hc hpart he fun h => by cases (roleAt_child hp hr hc hahead).symm.trans h

end Operands

/-! ## Values -/

section Computes

variable {S : Shaping} {I : Locals → Prop} {t c e l r value : Tree} {k n : Nat} {p : List Nat}
  {d d' : Demand}
  {ty ty' ty'' : Ty} {x op text : String} {loc loc' loc'' : Loc} {s : Emit.State}
  (ht : FunctionIn IsName t k c)

section Plain

variable (hI : ∀ ls, t.Settled S (k :: p) ls → I ls) (hr : t.roleAt (k :: p) = .value d)

include ht hI hr

theorem FunctionIn.computes_values_number
    (hp : partAt? (k :: p) .program t = some (.expression, ⟨.number, text, false, loc, []⟩))
    (hd' : d' = .double ↔ d = .double) :
    (Outline.values S t).Computes (.values S t k I) (k :: p) ⟨.number, text, false, loc, []⟩
      (.value d') s n (t.Yields S (k :: p) d') := by
  intro Λ
  rw [(ht.values_value hp hr).1, lower_value, code_number]
  suffices h : ∃ v, (literal text d').constant? = some v ∧ v.HasTy (t.valueTy (k :: p)) by
    obtain ⟨v, hv, hty⟩ := h
    refine .cons (leads_constant hI (f := t.formAt S (k :: p)) hv ?_) (leads_dropped hI d')
    rw [Form.Has, formAt, shapeAt_eq hp]
    exact hty
  have htyped : HasType (t.checkedAt (k :: p)).scopes ⟨.number, text, false, loc, []⟩
    (literalTy text) := .number text loc
  unfold literal
  by_cases hdouble : isDoubleLiteral text
  · have hty := valueTy_eq hp htyped fun _ => if_pos hdouble
    rw [if_pos (.inl hdouble), hty, literalTy, if_pos hdouble]
    exact ⟨_, rfl, rfl⟩
  · by_cases hd : d = .double
    · have hty := valueTy_widened hp (hd ▸ hr) (by rw [widened?, if_neg hdouble]; rfl)
      rw [if_pos (.inr (hd'.mpr hd)), hty]
      exact ⟨_, rfl, rfl⟩
    · have hty := valueTy_eq hp htyped fun h => absurd (Role.value.inj (hr.symm.trans h)) hd
      rw [if_neg (not_or.mpr ⟨hdouble, mt hd'.mp hd⟩), hty, literalTy, if_neg hdouble]
      exact ⟨_, rfl, Ty.noConfusion⟩

theorem FunctionIn.computes_values_string
    (hp : partAt? (k :: p) .program t = some (.expression, ⟨.string, text, false, loc, []⟩)) :
    (Outline.values S t).Computes (.values S t k I) (k :: p) ⟨.string, text, false, loc, []⟩
      (.value d') s n (t.Yields S (k :: p) d') := by
  intro Λ
  rw [(ht.values_value hp hr).1, lower_value, code_string]
  refine .cons (leads_constant hI (f := t.formAt S (k :: p)) rfl ?_) (leads_dropped hI d')
  rw [Form.Has, formAt, shapeAt_eq hp, valueTy_eq hp (.string text loc) fun _ => rfl]
  exact rfl

omit ht hI hr in
theorem unaryTy_eq_ok (h : unaryTy op ty = .ok ty') :
    ty.isNumeric ∧ ty' = if op = "!" then .int else ty := by
  unfold unaryTy at h
  split at h
  · cases h
  · next hnum =>
    cases h
    exact ⟨by simpa using hnum, rfl⟩

omit hI in
theorem FunctionIn.valueTy_unary
    (hp : partAt? (k :: p) .program t = some (.expression, ⟨.unary, op, false, loc, [e]⟩))
    (he : HasType (t.checkedAt (k :: p)).scopes e ty) (hty : unaryTy op ty = .ok ty') :
    (t.valueTy ((k :: p) ++ [0])).isNumeric ∧
      t.valueTy (k :: p) = if op = "!" then .int else t.valueTy ((k :: p) ++ [0]) := by
  have hrole := roleAt_child hp hr (i := 0) rfl (ahead_unary loc d _ op e)
  have hat : partAt? (k :: (p ++ [0])) .program t = some (.expression, e) := partAt?_snoc hp rfl rfl
  obtain ⟨hnum, rfl⟩ := unaryTy_eq_ok hty
  have hwidened : widened? ⟨.unary, op, false, loc, [e]⟩ =
      if op = "-" then (widened? e).map Value.negate else none := by rw [widened?]
  by_cases hwide : (d = .double ∧ op = "-") ∧ (widened? e).isSome
  · obtain ⟨⟨rfl, rfl⟩, hsome⟩ := hwide
    have hinner := valueTy_widened hat hrole hsome
    rw [valueTy_widened hp hr (by rw [hwidened, if_pos rfl, Option.isSome_map]; exact hsome)]
    rw [← cons_append] at hinner
    rw [hinner]
    exact ⟨rfl, rfl⟩
  · have hinner := ht.valueTy_operand hp (i := 0) rfl rfl he fun h => ?_
    · rw [hinner, valueTy_eq hp (.unary op loc e ty _ he hty) fun h => ?_]
      · exact ⟨hnum, rfl⟩
      · obtain rfl := Role.value.inj (hr.symm.trans h)
        rw [hwidened]
        split
        · next hop => simpa [hop] using hwide
        · rfl
    · rw [hrole] at h
      have hboth : d = .double ∧ op = "-" := by
        by_contra hnot
        simp [Demand.ofDouble, hnot] at h
      simpa [hboth] using hwide

theorem FunctionIn.computes_values_unary
    (hp : partAt? (k :: p) .program t = some (.expression, ⟨.unary, op, false, loc, [e]⟩))
    (he : HasType (t.checkedAt (k :: p)).scopes e ty) (hty : unaryTy op ty = .ok ty') :
    (Outline.values S t).Computes (.values S t k I) (k :: p) ⟨.unary, op, false, loc, [e]⟩
      (.value d') s n (t.Yields S (k :: p) d') := by
  obtain ⟨hahead₀, hbehind₀⟩ := ht.values_operand (S := S) hp hr (i := 0) rfl rfl (fun _ => rfl)
    (ahead_unary loc d _ op e)
  obtain ⟨hnum, hself⟩ := ht.valueTy_unary hr hp he hty
  refine ⟨by rw [(ht.values_value hp hr).1, hahead₀]; exact le_rfl, fun Λ j => ?_⟩
  rw [Tree.Yields, hbehind₀, if_neg (Demand.ofDouble_ne_effect _)]
  have hform : t.formAt S (k :: p) = ⟨if op = "!" then .int else t.valueTy ((k :: p) ++ [0]),
      if op = "-" ∨ op = "!" then .stored else t.shapeAt S ((k :: p) ++ [0])⟩ := by
    rw [formAt, hself, shapeAt_eq hp, shape, ht.shapeAt_child hp rfl rfl]
  rw [hform]
  by_cases hneg : op = "-"
  · subst hneg
    refine .cons (leads_unary hI (g := ⟨t.valueTy ((k :: p) ++ [0]), .stored⟩) rfl nofun
      Value.negate ?_ fun v hv => ?_)
      (leads_dropped hI d')
    · rintro v stack ls stack' ls' ⟨⟩
      exact ⟨rfl, rfl⟩
    · exact Value.Mixes.negate (Value.Fits.mixes hv) hnum
  by_cases hnot : op = "!"
  · subst hnot
    refine .cons (leads_unary hI (g := ⟨.int, .stored⟩) rfl nofun (fun v => .ofBool v.isZero) ?_
      fun v _ => Ty.noConfusion)
      (leads_dropped hI d')
    rintro v stack ls stack' ls' ⟨⟩
    exact ⟨rfl, rfl⟩
  · have hcode : unaryCode op = [] := by
      unfold unaryCode
      split
      · exact absurd rfl hneg
      · exact absurd rfl hnot
      · rfl
    rw [hcode, if_neg hnot, if_neg (not_or.mpr ⟨hneg, hnot⟩)]
    exact leads_dropped hI d'

theorem FunctionIn.computes_values_binary
    (hp : partAt? (k :: p) .program t = some (.expression, ⟨.binary, op, false, loc, [l, r]⟩))
    (hl : HasType (t.checkedAt (k :: p)).scopes l ty)
    (he : HasType (t.checkedAt (k :: p)).scopes r ty') (hty : binaryTy op ty ty' = .ok ty'') :
    (Outline.values S t).Computes (.values S t k I) (k :: p) ⟨.binary, op, false, loc, [l, r]⟩
      (.value d') s n (t.Yields S (k :: p) d') := by
  obtain ⟨hahead₀, hbehind₀⟩ := ht.values_operand (S := S) hp hr (i := 0) rfl rfl (fun _ => rfl)
    (ahead_left_binary loc d _ op l r)
  obtain ⟨hahead₁, hbehind₁⟩ := ht.values_operand (S := S) hp hr (i := 1) rfl rfl nofun
    (ahead_right_binary loc d _ op l r)
  refine ⟨by rw [(ht.values_value hp hr).1, hahead₀]; exact le_rfl,
    by rw [hbehind₀, hahead₁]; exact le_rfl, fun Λ j => ?_⟩
  rw [hbehind₁]
  refine .cons (leads_binary hI rfl nofun (BinOp.ofText op).apply ?_ ?_) (leads_dropped hI d')
  · rintro v w stack ls stack' ls' ⟨⟩
    exact ⟨rfl, rfl⟩
  · intro v w hv hw
    rw [Form.Has, formAt, ht.valueTy_plain hp hr rfl rfl (ahead_left_binary loc d _ op l r) hl,
      ht.shapeAt_child hp rfl rfl] at hv
    rw [Form.Has, formAt, ht.valueTy_plain hp hr rfl rfl (ahead_right_binary loc d _ op l r) he,
      ht.shapeAt_child hp rfl rfl] at hw
    rw [Form.Has, formAt, valueTy_eq hp (.binary op loc l r ty ty' ty'' hl he hty) fun _ => rfl,
      shapeAt_eq hp, shape]
    exact Value.Fits.apply hv hw hty

omit hI in
theorem FunctionIn.computes_values_comma
    (hp : partAt? (k :: p) .program t =
      some (.expression, { kind := .comma, text := ",", loc, children := [l, r] }))
    (hl : HasType (t.checkedAt (k :: p)).scopes l ty)
    (he : HasType (t.checkedAt (k :: p)).scopes r ty') :
    (Outline.values S t).Computes (.values S t k I) (k :: p)
      { kind := .comma, text := ",", loc, children := [l, r] } (.value d) s n
      (t.Yields S (k :: p) d) := by
  have hahead := (ht.values_value (S := S) hp hr).1
  obtain ⟨hahead₀, hbehind₀⟩ := ht.values_operand (S := S) hp hr (i := 0) rfl rfl (fun _ => rfl)
    (ahead_left_comma loc d _ l r)
  obtain ⟨hahead₁, hbehind₁⟩ := ht.values_operand (S := S) hp hr (i := 1) rfl rfl nofun
    (ahead_right_comma loc d _ l r)
  refine ⟨by rw [hahead, hahead₀]; exact le_rfl, by rw [hbehind₀, hahead₁]; exact le_rfl, ?_⟩
  have hrole := roleAt_child hp hr (i := 1) rfl (ahead_right_comma loc d _ l r)
  have hform : t.formAt S ((k :: p) ++ [1]) = t.formAt S (k :: p) := by
    rw [formAt, formAt, ht.shapeAt_child hp rfl rfl, shapeAt_eq hp, shape,
      valueTy_eq hp (.comma loc l r ty ty' hl he) fun _ => rfl,
      ht.valueTy_operand hp rfl rfl he fun h => by rw [hrole] at h; cases d <;> cases h]
  rw [hbehind₁, Tree.Yields, hform]
  cases d <;> exact le_rfl

theorem FunctionIn.computes_values_index
    (hp : partAt? (k :: p) .program t = some (.expression, ⟨.index, "Index", false, loc, [l, r]⟩))
    (he : HasType (t.checkedAt (k :: p)).scopes ⟨.index, "Index", false, loc, [l, r]⟩ ty) :
    (Outline.values S t).Computes (.values S t k I) (k :: p) ⟨.index, "Index", false, loc, [l, r]⟩
      (.value d') s n (t.Yields S (k :: p) d') := by
  obtain ⟨hahead₀, hbehind₀⟩ := ht.values_operand (S := S) hp hr (i := 0) rfl rfl (fun _ => rfl)
    (ahead_left_index loc d _ l r)
  obtain ⟨hahead₁, hbehind₁⟩ := ht.values_operand (S := S) hp hr (i := 1) rfl rfl nofun
    (ahead_right_index loc d _ l r)
  refine ⟨by rw [(ht.values_value hp hr).1, hahead₀]; exact le_rfl,
    by rw [hbehind₀, hahead₁]; exact le_rfl, fun Λ j => ?_⟩
  rw [hbehind₁]
  refine .cons (leads_binary hI rfl nofun (fun base i => base.loadAt i.toInt) ?_ ?_)
    (leads_dropped hI d')
  · rintro v w stack ls stack' ls' ⟨⟩
    exact ⟨rfl, rfl⟩
  · intro v w hv _
    rw [Form.Has, formAt, valueTy_eq hp he fun _ => rfl, shapeAt_eq hp, shape]
    cases he with
    | index _ _ _ _ hl =>
      rw [Form.Has, formAt, ht.valueTy_plain hp hr rfl rfl (ahead_left_index loc d _ l r) hl,
        ht.shapeAt_child hp rfl rfl] at hv
      exact Value.Fits.loadAt hv _

end Plain

section Names

variable (hp : partAt? (k :: p) .program t = some (.expression, .nameAt x loc))

include ht hp

theorem FunctionIn.formAt_name :
    t.formAt S (k :: p) = t.nameForm S (k :: p) x := by
  cases ht.reach hp with | expression _ _ _ ty _ he =>
  have hty : t.valueTy (k :: p) = ty := valueTy_eq hp he fun _ => rfl
  cases he with | var _ _ _ isArray hx =>
  rw [formAt, hty, shapeAt_eq hp, nameAt, shape]
  rcases ht.nameForm_eq (S := S) hp ⟨nofun, nofun⟩ hx with h | h <;> rw [h]

omit ht in
theorem Tree.variableAt?_name : t.variableAt? (k :: p) = some x := by
  rw [variableAt?, expressionAt?_of_partAt? hp]
  rfl

variable (hI : ∀ ls, t.Settled S (k :: p) ls → I ls) (hsep : t.separatesNames)

include hsep

theorem FunctionIn.has_load {ls : Locals} (h : t.Settled S (k :: p) ls) :
    (t.formAt S (k :: p)).Has (ls.load ((t.loweredAt (k :: p)).slotOf x)) := by
  rw [ht.formAt_name hp, ht.slotOf_eq hp ⟨nofun, nofun⟩]
  exact h.1 _ (ht.visible_variableOf hsep (variableAt?_name hp))

include hI in
theorem FunctionIn.computes_values_var (hr : t.roleAt (k :: p) = .value d) :
    (Outline.values S t).Computes (.values S t k I) (k :: p) (.nameAt x loc) (.value d')
      (t.loweredAt (k :: p)) n (t.Yields S (k :: p) d') := by
  intro Λ
  rw [(ht.values_value hp hr).1, lower_value, code_name]
  exact .cons (leads_load hI fun ls => ht.has_load hp hsep) (leads_dropped hI d')

theorem FunctionIn.settled_store {ls : Locals} {f : Option Value → Value}
    (h : t.Settled S (k :: p) ls)
    (hf : (t.formAt S (k :: p)).Has (f (ls.lookup ((t.loweredAt (k :: p)).slotOf x)))) :
    t.Settled S (k :: p) (ls.alter ((t.loweredAt (k :: p)).slotOf x) f) := by
  have hx := variableAt?_name hp
  rw [ht.formAt_name hp] at hf
  exact ht.settled_alter hp ⟨nofun, nofun⟩ (ht.isName hx) (ht.visible_variableOf hsep hx) h hf

include hI

theorem FunctionIn.computes_values_name (hr : t.roleAt (k :: p) = .target d) :
    (Outline.values S t).Computes (.values S t k I) (k :: p) (.nameAt x loc) (.target d)
      (t.loweredAt (k :: p)) n ((Outline.values S t).behind (k :: p)) := by
  obtain ⟨hahead, hbehind⟩ := ht.values_target (S := S) hp hr
  intro Λ
  rw [hahead, hbehind, code_target_name]
  refine .cons (leads_store hI fun ls v h hv => ht.settled_store hp hsep h hv) ?_
  by_cases hd : d = .effect
  · rw [if_pos hd, if_pos (.inl hd)]
    exact .nil le_rfl
  · rw [if_neg hd, if_neg (not_or.mpr ⟨hd, nofun⟩)]
    exact leads_load hI fun ls => ht.has_load hp hsep

theorem FunctionIn.computes_values_base (hr : t.roleAt (k :: p) = .base) :
    (Outline.values S t).Computes (.values S t k I) (k :: p) (.nameAt x loc) .base
      (t.loweredAt (k :: p)) n ((Outline.values S t).behind (k :: p)) := by
  intro Λ
  rw [Outline.values_ahead, ht.values_behind hp, takenAt, leftAt, hr, code_base]
  refine leads_storeIndex hI fun ls i v h hv => ht.settled_store hp hsep h ?_
  have hheld := ht.has_load hp hsep h
  have hwhole : Shape.whole.within (t.shapeAt S (k :: p)) := by
    obtain ⟨ty, hx⟩ := ht.lookup?_base hp hr
    have hshape : t.shapeAt S (k :: p) = (t.nameForm S (k :: p) x).shape :=
      congrArg Form.shape (ht.formAt_name hp)
    rw [hshape]
    rcases ht.nameForm_eq (S := S) hp ⟨nofun, nofun⟩ hx with h | h
    · rw [h]
      exact S.whole_own
    · rw [h]
      exact S.whole_outer
  exact Value.Fits.storeAt hheld hwhole hv i

end Names

/-! ## Assignments -/

section Assignments

include ht

theorem FunctionIn.values_assigned {target : Tree} {args : List Tree}
    (hp : partAt? (k :: p) .program t =
      some (.expression, ⟨.assign, text, false, loc, target :: args⟩))
    (hr : t.roleAt (k :: p) = .value d) (hrole : t.roleAt ((k :: p) ++ [0]) = .target d)
    (hholds : ¬ (target.kind = .index ∧ d ≠ .effect)) :
    (Outline.values S t).ahead ((k :: p) ++ [0]) =
      Poised (t.Settled S (k :: p)) (t.formAt S ((k :: p) ++ [0]) :: (t.waitingAt S (k :: p)).1) ∧
    (Outline.values S t).behind ((k :: p) ++ [0]) = Poised (t.Settled S (k :: p))
      ((if d = .effect then [] else [t.formAt S ((k :: p) ++ [0])]) ++
        (t.waitingAt S (k :: p)).1) := by
  have hat : partAt? (k :: (p ++ [0])) .program t = some (.expression, target) :=
    partAt?_snoc hp rfl rfl
  have hwaiting := waitingAt_operand (S := S) hp hr (i := 0) (by rw [hrole]; rfl) fun _ =>
    decide_eq_false hholds
  have hfirst : (t.waitingAt S (k :: (p ++ [0]))).1 = (t.waitingAt S (k :: p)).1 :=
    congrArg Prod.fst hwaiting
  have hchild := ht.values_target (S := S) hat hrole
  have hleft : (d = .effect ∨ target.kind = .index) = (d = .effect) :=
    propext ⟨fun h => by_contra fun hd => hholds ⟨h.resolve_left hd, hd⟩, .inl⟩
  rw [← ht.settled_child hp (i := 0) rfl (by rw [hwaiting])]
  simp only [hfirst, hleft] at hchild
  exact hchild

section Held

variable {i : Tree} (hp : partAt? (k :: p) .program t =
    some (.expression, { kind := .assign, text := "=", loc, children :=
      [⟨.index, "Index", false, loc', [.nameAt x loc'', i]⟩, value] }))
  (hr : t.roleAt (k :: p) = .value d) (hd : d ≠ .effect)

include hp hr hd

/-- The hidden slot that holds the value while the index is evaluated. -/
def Tree.heldSlot (t : Tree) (p : List Nat) (x : String) (value : Tree) : String :=
  let s := t.loweredAt p
  (hiddenSlot (after (expression value (s.demandOf (s.slotOf x))) s)).1

omit ht in
theorem Tree.waitingAt_held :
    t.roleAt ((k :: p) ++ [0]) = .target d ∧ t.waitingAt S ((k :: p) ++ [0]) =
    ((t.waitingAt S (k :: p)).1, (t.heldSlot (k :: p) x value, t.formAt S (k :: p)) ::
      (t.waitingAt S (k :: p)).2) := by
  have hahead := ahead_target_entry loc d (t.loweredAt (k :: p)) hd x loc' loc'' i value
  have hrole := roleAt_child hp hr rfl hahead
  refine ⟨hrole, ?_⟩
  rw [waitingAt_value hp hr (by rw [hrole]; rfl), holdsAhead, heldAhead,
    if_pos ⟨rfl, decide_eq_true ⟨rfl, hd⟩⟩, hahead.code_eq, getLast?_append]
  rfl

theorem FunctionIn.settled_held (ls : Locals) : t.Settled S ((k :: p) ++ [0]) ls ↔
    t.Settled S (k :: p) ls ∧
    (t.formAt S (k :: p)).Has (ls.load (t.heldSlot (k :: p) x value)) := by
  rw [Tree.Settled, Tree.Settled, Tree.Holds, Tree.Holds, (waitingAt_held hp hr hd).2,
    forall_mem_cons, and_assoc]
  refine and_congr (forall_congr' fun v => imp_congr_left
    (ht.visibleAhead_child_iff hp (.inr rfl) rfl)) and_comm

theorem FunctionIn.values_held :
    (Outline.values S t).ahead ((k :: p) ++ [0]) =
      Poised (t.Settled S ((k :: p) ++ [0]))
        (t.formAt S ((k :: p) ++ [0]) :: (t.waitingAt S (k :: p)).1) ∧
    (Outline.values S t).behind ((k :: p) ++ [0]) =
      Poised (t.Settled S ((k :: p) ++ [0])) (t.waitingAt S (k :: p)).1 := by
  obtain ⟨hrole, hwaiting⟩ := waitingAt_held (S := S) hp hr hd
  have hat : partAt? (k :: (p ++ [0])) .program t = some (.expression,
    ⟨.index, "Index", false, loc', [.nameAt x loc'', i]⟩) := partAt?_snoc hp rfl rfl
  have hchild := ht.values_target (S := S) hat hrole
  rw [← cons_append, hwaiting, if_pos (.inr rfl)] at hchild
  exact hchild

end Held

variable (ho : t.Orderly S)

include ho

/-- A value that is assigned is of the type and of a shape that are wanted of it. -/
theorem FunctionIn.within_assigned (hp : partAt? (k :: p) .program t = some (.expression, e))
    (hkind : e.kind = .assign) :
    (t.formAt S ((k :: p) ++ [1])).within (t.shapeAt S ((k :: p) ++ [0])) ∧
      (t.valueTy ((k :: p) ++ [0])).accepts (t.valueTy ((k :: p) ++ [1])) := by
  have hshape := apply_of_everywhere ho.keepsShapes ht hp
  have hty := apply_of_everywhere ho.storesTyped ht hp
  obtain ⟨kind, text, isArray, loc, children⟩ := e
  cases hkind
  rw [keepsShapesAt, hp] at hshape
  rw [storesTypedAt, expressionAt?_of_partAt? hp] at hty
  exact ⟨hshape, (Bool.or_eq_true_iff.mp hty).resolve_left Bool.false_ne_true⟩

theorem FunctionIn.computes_values_assign
    (hu : e = ⟨.assign, "=", false, loc, [.nameAt x loc', value]⟩)
    (hp : partAt? (k :: p) .program t = some (.expression, e)) (hr : t.roleAt (k :: p) = .value d)
    (he : HasType (t.checkedAt (k :: p)).scopes e ty) :
    (Outline.values S t).Computes (.values S t k I) (k :: p) e (.value d) s n
      (t.Yields S (k :: p) d) := by
  subst hu
  have hahead := (ht.values_value (S := S) hp hr).1
  obtain ⟨hahead₁, hbehind₁⟩ := ht.values_operand (S := S) hp hr (i := 1) rfl rfl nofun
    (ahead_assigned loc d _ (.nameAt x loc') value)
  obtain ⟨hahead₀, hbehind₀⟩ := ht.values_assigned (S := S) hp hr
    (roleAt_child hp hr rfl (ahead_target_name loc d _ x loc' value)) (by rintro ⟨⟨⟩, -⟩)
  have hform : t.formAt S ((k :: p) ++ [0]) = t.formAt S (k :: p) := by
    have hty := valueTy_eq hp he fun _ => rfl
    cases he with | assign _ _ _ _ _ _ isArray hx =>
    rw [formAt, formAt, ht.shapeAt_child hp rfl rfl, shapeAt_eq hp, shape,
      if_neg nofun, hty,
      ht.valueTy_operand hp rfl rfl (.var x loc' ty isArray hx) fun _ => rfl]
  refine ⟨by rw [hahead, hahead₁]; exact le_rfl, ?_⟩
  rw [if_neg (by rintro ⟨⟨⟩, -⟩), hahead₀, hbehind₀, hbehind₁, Tree.Yields, ← hform,
    State.demandOf, if_neg (Demand.ofDouble_ne_effect _)]
  obtain ⟨hwithin, haccepts⟩ := ht.within_assigned ho hp rfl
  exact ⟨poised_mono fun v hv => hv.fits hwithin haccepts, le_rfl⟩

omit ht ho in
theorem Form.within_of_accepts {a b : Shape} (h : Form.within ⟨ty', a⟩ b) (hty : ty.accepts ty') :
    Form.within ⟨ty, a⟩ b := by
  rcases accepts_iff.mp hty with rfl | ⟨rfl, rfl⟩
  · exact h
  · exact h

theorem FunctionIn.computes_values_assignItem {i : Tree}
    (hu : e = { kind := .assign, text := "=", loc, children :=
      [⟨.index, "Index", false, loc', [.nameAt x loc'', i]⟩, value] })
    (hI : ∀ ls, t.Settled S (k :: p) ls → I ls)
    (hp : partAt? (k :: p) .program t = some (.expression, e)) (hr : t.roleAt (k :: p) = .value d)
    (he : HasType (t.checkedAt (k :: p)).scopes e ty) :
    (Outline.values S t).Computes (.values S t k I) (k :: p) e (.value d) (t.loweredAt (k :: p)) n
      (t.Yields S (k :: p) d) := by
  subst hu
  have hahead := (ht.values_value (S := S) hp hr).1
  obtain ⟨hahead₁, hbehind₁⟩ := ht.values_operand (S := S) hp hr (i := 1) rfl rfl nofun
    (ahead_assigned loc d _ _ value)
  obtain ⟨hwithin, haccepts⟩ := ht.within_assigned ho hp rfl
  have hstored : (Outline.values S t).behind ((k :: p) ++ [1]) =
      Poised (t.Settled S (k :: p))
          (t.formAt S ((k :: p) ++ [1]) :: (t.waitingAt S (k :: p)).1) := by
    rw [hbehind₁, State.demandOf, if_neg (Demand.ofDouble_ne_effect _)]
    rfl
  refine ⟨by rw [hahead, hahead₁]; exact le_rfl, ?_⟩
  rw [hstored, Tree.Yields]
  by_cases hd : d = .effect
  · subst hd
    obtain ⟨hahead₀, hbehind₀⟩ := ht.values_assigned (S := S) hp hr
      (roleAt_child hp hr rfl (ahead_target_effect loc _ x loc' loc'' i value))
        (by rintro ⟨-, h⟩; exact h rfl)
    rw [if_neg (by rintro ⟨-, h⟩; exact h rfl), hahead₀, hbehind₀]
    exact ⟨poised_mono fun v hv => hv.fits hwithin haccepts, le_rfl⟩
  · obtain ⟨hahead₀, hbehind₀⟩ := ht.values_held (S := S) hp hr hd
    have hsettled := ht.settled_held (S := S) hp hr hd
    -- what is held has the type of the items and the shape of the value
    have hform : t.formAt S (k :: p) =
        ⟨t.valueTy ((k :: p) ++ [0]), t.shapeAt S ((k :: p) ++ [1])⟩ := by
      have hty := valueTy_eq hp he fun _ => rfl
      cases he with | assignItem _ _ _ _ _ _ _ _ hx hi hv =>
      have hitem : HasType (t.checkedAt (k :: p)).scopes
          ⟨.index, "Index", false, loc', [.nameAt x loc'', i]⟩ ty :=
        .index loc' _ i ty (.var x loc'' ty true hx) rfl hi fun _ _ h => by cases hx.symm.trans h
      rw [formAt, hty, ht.valueTy_operand hp rfl rfl hitem fun _ => rfl,
        ht.shapeAt_child hp rfl rfl, shapeAt_eq hp, shape, if_pos (by rfl)]
    rw [if_pos ⟨rfl, hd⟩, hahead₀, hbehind₀, if_neg hd]
    have hI₀ (ls : Locals) (h : t.Settled S ((k :: p) ++ [0]) ls) : I ls :=
      hI ls ((hsettled ls).mp h).1
    refine ⟨fun Λ j => .cons (leads_store hI fun ls v h hv => (hsettled _).mpr ⟨?_, ?_⟩)
      (leads_load hI₀ fun ls h => ?_),
      fun Λ j => (leads_load hI₀ fun ls h => ((hsettled ls).mp h).2).mono_right ?_⟩
    · exact ht.settled_hold hp ⟨nofun, nofun⟩ _ v h
    · have hself := ls.load_store_self (t.heldSlot (k :: p) x value) v
      refine (congrArg (t.formAt S (k :: p)).Has hself).mpr ?_
      rw [hform]
      exact Value.Fits.of_accepts hv haccepts
    · have hheld := ((hsettled ls).mp h).2
      rw [hform] at hheld
      exact hheld.fits (Form.within_of_accepts hwithin haccepts) (accepts_iff.mpr (.inl rfl))
    · rintro y ⟨hJ, hy⟩
      exact ⟨((hsettled _).mp hJ).1, hy⟩

omit ho in
/-- An item that is assigned to. The value waits while its index is evaluated. -/
theorem FunctionIn.computes_values_entry (hp : partAt? (k :: p) .program t =
      some (.expression, ⟨.index, "Index", false, loc, [.nameAt x loc', e]⟩))
    (hr : t.roleAt (k :: p) = .target d) :
    (Outline.values S t).Computes (.values S t k I) (k :: p)
      ⟨.index, "Index", false, loc, [.nameAt x loc', e]⟩ (.target d) s n
      ((Outline.values S t).behind (k :: p)) := by
  obtain ⟨hahead, hbehind⟩ := ht.values_target (S := S) hp hr
  have hrole₀ := roleAt_child hp hr (i := 0) rfl (ahead_base loc d _ x loc' e)
  have hrole₁ := roleAt_child hp hr (i := 1) rfl (ahead_entry loc d _ x loc' e)
  have hwaiting₀ := waitingAt_target (S := S) hp hr (i := 0) (by rw [hrole₀]; rfl)
  have hwaiting₁ := waitingAt_target (S := S) hp hr (i := 1) (by rw [hrole₁]; rfl)
  obtain ⟨hahead₁, hbehind₁⟩ := ht.values_child (S := S) hp (i := 1) rfl rfl hrole₁ hwaiting₁
  have hsettled₀ := ht.settled_child (S := S) hp (i := 0) rfl (by rw [hwaiting₀])
  have hat : partAt? (k :: (p ++ [0])) .program t = some (.expression, .nameAt x loc') :=
    partAt?_snoc hp rfl rfl
  have hahead₀ : (Outline.values S t).ahead ((k :: p) ++ [0]) = Poised (t.Settled S (k :: p))
      (⟨.int, .mixed⟩ :: ⟨t.valueTy ((k :: p) ++ [0]), (t.shapeAt S ((k :: p) ++ [0])).item⟩ ::
          (t.waitingAt S (k :: p)).1) := by
    rw [Outline.values_ahead, takenAt, hrole₀, hwaiting₀, hsettled₀]
    rfl
  have hbehind₀ : (Outline.values S t).behind ((k :: p) ++ [0]) =
      Poised (t.Settled S (k :: p)) (t.waitingAt S (k :: p)).1 := by
    rw [cons_append, ht.values_behind hat, ← cons_append, leftAt, hrole₀, hwaiting₀, hsettled₀]
    rfl
  refine ⟨by rw [hahead, hahead₁]; exact le_rfl,
    ?_, by rw [hbehind₀, hbehind, if_pos (.inr rfl)]; exact le_rfl⟩
  rw [hbehind₁, hahead₀]
  cases ht.reach hp with | expression _ _ _ ty _ he =>
  have hty := valueTy_eq hp he fun _ => rfl
  cases he with | index _ _ _ _ hx _ hi =>
  have hindex := ht.valueTy_operand hp (i := 1) rfl rfl hi fun h => by cases hrole₁.symm.trans h
  have hitem : t.formAt S (k :: p) =
      ⟨t.valueTy ((k :: p) ++ [0]), (t.shapeAt S ((k :: p) ++ [0])).item⟩ := by
    rw [formAt, hty, ht.valueTy_operand hp rfl rfl hx fun _ => rfl, ht.shapeAt_child hp rfl rfl,
      shapeAt_eq hp, shape]
  rw [← hitem]
  refine poised_mono fun v hv => ?_
  rw [Form.Has, formAt, hindex] at hv
  exact Value.Fits.mixes hv

end Assignments

/-! ## Calls -/

section Calls

theorem HasArgs.exists_getElem {Γ : Scopes} {params : List (Ty × Bool)} {args : List Tree} {j : Nat}
    {param : Ty × Bool} (h : HasArgs Γ params args) (hj : params[j]? = some param) :
    ∃ arg ty, args[j]? = some arg ∧ HasType Γ arg ty ∧ param.1.accepts ty := by
  induction args generalizing params j with
  | nil =>
    cases h
    cases hj
  | cons arg args ih =>
    cases h with
    | cons ty ty' isArray params _ _ harg hacc _ hargs =>
      cases j with
      | zero =>
        cases hj
        exact ⟨arg, ty', rfl, harg, hacc⟩
      | succ j => exact ih hargs hj

theorem Tree.operandsAhead_call (S : Shaping) (t : Tree) (p : List Nat) (d : Demand) (j : Nat) :
    t.operandsAhead S p (.value d) .call (j + 2) =
      t.formAt S (p ++ [j + 1]) :: t.operandsAhead S p (.value d) .call (j + 1) := by
  rw [operandsAhead, operandsAhead, range_succ, map_append, reverse_append]
  rfl

variable {f : String} {args : List Tree} {params : List (Ty × Bool)}
  (hp : partAt? (k :: p) .program t =
    some (.expression, ⟨.call, "Call", false, loc, .nameAt f loc' :: args⟩))
  (hr : t.roleAt (k :: p) = .value d)

include ht hp hr

theorem FunctionIn.values_passed {j : Nat} (hj : j ≤ args.length) :
    (Outline.values S t).passed (k :: p) j =
    Poised (t.Settled S (k :: p)) (t.operandsAhead S (k :: p) (.value d) .call (j + 1) ++
      (t.waitingAt S (k :: p)).1) := by
  cases j with
  | zero => exact (ht.values_value (S := S) hp hr).1
  | succ j =>
    have hbehind := (ht.values_operand (S := S) hp hr (i := j + 1)
      (getElem?_eq_getElem (l := .nameAt f loc' :: args) (Nat.succ_lt_succ hj)) rfl nofun
      (ahead_argument loc d _ (.nameAt f loc') args j)).2
    rw [Outline.passed, if_neg (Nat.succ_ne_zero j), operandsAhead_call]
    exact hbehind

variable (ho : t.Orderly S)
  (hf : (t.checkedAt (k :: p)).scopes.lookup? f = some (.function ty params))
  (hargs : HasArgs (t.checkedAt (k :: p)).scopes params args)

include ho hf hargs

theorem FunctionIn.has_arguments (hb : Builtin.ofName? f = none) {vs : List Value}
    (hvs : List.Forall₂ Form.Has (t.operandsAhead S (k :: p) (.value d) .call (args.length + 1))
      vs) :
    List.Forall₂ Form.Has (params.map fun q => (⟨q.1, S.own q.2⟩ : Form)).reverse vs := by
  have hshapes := apply_of_everywhere ho.keepsShapes ht hp
  rw [keepsShapesAt, hp] at hshapes
  simp only [nameAt, hb, hf] at hshapes
  refine forall₂_has_mono ?_ hvs
  refine rel_reverse (forall₂_of_length_eq_of_get (by simp [hargs.length_eq])
    fun j hj hj' v hv => ?_)
  have hparam : params[j]? = some (params.get ⟨j, by simpa using hj'⟩) := getElem?_eq_getElem _
  obtain ⟨arg, ty', harg, hty', hacc⟩ := hargs.exists_getElem hparam
  have hwithin := all_eq_true.mp hshapes (_, j) (mk_mem_zipIdx_iff_getElem?.mpr hparam)
  simp only [get_eq_getElem, getElem_map, getElem_range] at hv ⊢
  refine hv.fits hwithin ?_
  rw [formAt, ht.valueTy_plain hp hr (i := j + 1) harg rfl (ahead_argument loc d _ _ args j) hty']
  exact hacc

theorem FunctionIn.leads_values_call (hI : ∀ ls, t.Settled S (k :: p) ls → I ls)
    (Λ : String → Activation → Prop) (j : Nat) :
    (Tracking.values S t k I).Leads Λ j
    (Poised (t.Settled S (k :: p)) (t.operandsAhead S (k :: p) (.value d) .call (args.length + 1) ++
      (t.waitingAt S (k :: p)).1)) [.call f]
    (Poised (t.Settled S (k :: p))
      ((if ty = .void then [] else [⟨ty, S.result⟩]) ++ (t.waitingAt S (k :: p)).1)) := by
  obtain ⟨hready, hentry⟩ := ht.ready_loweredAt hp ⟨nofun, nofun⟩ nofun
  have hlen : (t.operandsAhead S (k :: p) (.value d) .call (args.length + 1)).length =
      params.length := by
    simp [operandsAhead, hargs.length_eq]
  cases hb : Builtin.ofName? f with
  | some b =>
    obtain ⟨rfl, hparams⟩ := hready.builtin f b ty params hf hb
    exact leads_builtin hI hb (hlen.trans hparams) fun v hv =>
      Value.Fits.of_hasTy hv S.stored_result
  | none =>
    rw [if_neg (hready.function f ty params hf hb).2.2]
    refine leads_call hI hb (fun c' hc' heq => ?_) hlen fun vs =>
      ht.has_arguments hp hr ho hf hargs hb
    subst heq
    exact hentry c' hc' ty params hf

omit hf hargs in
theorem FunctionIn.computes_values_call (hI : ∀ ls, t.Settled S (k :: p) ls → I ls)
    (he : HasType (t.checkedAt (k :: p)).scopes
      ⟨.call, "Call", false, loc, .nameAt f loc' :: args⟩ ty) (hvalue : d' ≠ .effect → ty ≠ .void) :
    (Outline.values S t).Computes (.values S t k I) (k :: p)
      ⟨.call, "Call", false, loc, .nameAt f loc' :: args⟩ (.value d') (t.loweredAt (k :: p)) n
      (t.Yields S (k :: p) d') := by
  have hty := valueTy_eq hp he fun _ => rfl
  cases he with | call _ _ _ _ _ params hf hargs =>
  have hready := (ht.ready_loweredAt hp ⟨nofun, nofun⟩ nofun).1
  have hform : t.formAt S (k :: p) = ⟨ty, S.result⟩ := by rw [formAt, hty, shapeAt_eq hp, shape]
  refine ⟨fun j hj => ?_, fun Λ j => ?_⟩
  · have hahead := (ht.values_operand (S := S) hp hr (i := j + 1)
      (getElem?_eq_getElem (l := .nameAt f loc' :: args) (Nat.succ_lt_succ hj)) rfl nofun
      (ahead_argument loc d _ (.nameAt f loc') args j)).1
    rw [ht.values_passed hp hr (Nat.le_of_lt hj), hahead]
  · rw [ht.values_passed hp hr (Nat.le_refl _), Tree.Yields, hform]
    refine .cons (ht.leads_values_call hp hr ho hf hargs hI Λ j) ?_
    have hleaves : (t.loweredAt (k :: p)).leavesValue (nameAt f loc').text = (ty != .void) :=
      hready.leavesValue_eq hf
    rw [hleaves]
    by_cases hd : d' = .effect
    · by_cases hvoid : ty = .void
      · simp only [hvoid, hd, ↓reduceIte]
        exact .nil le_rfl
      · simp only [hvoid, hd, ↓reduceIte, bne_iff_ne, ne_eq, not_false_eq_true, and_self]
        exact leads_pop hI
    · simp only [hd, hvalue hd, ↓reduceIte, false_and]
      exact .nil le_rfl

end Calls

/-! ## Declared names -/

section Declarators

variable {part : Tree.Part} {u : Tree} {i : Nat}

theorem Outline.operands_statement (hr : (t.roleAt p).isExpression = false) :
    (operands S t).ahead p = Poised (fun _ => True) [] ∧
      (operands S t).behind p = Poised (fun _ => True) [] := by
  have hwaiting : t.waitingAt S p = ([], []) := if_neg (by rw [hr]; exact Bool.false_ne_true)
  have hnone : t.takenAt S p = [] ∧ t.leftAt S p = [] := by
    rw [takenAt, leftAt]
    cases h : t.roleAt p with
    | value | target | base => rw [h] at hr; cases hr
    | _ => exact ⟨rfl, rfl⟩
  rw [← holds_of_nil (congrArg Prod.snd hwaiting)]
  refine ⟨congrArg (Poised _) ?_, congrArg (Poised _) ?_⟩ <;>
    simp only [hnone, hwaiting, append_nil]

theorem Outline.operands_root (hr : (t.roleAt p).isExpression = false)
    (hrole : t.roleAt (p ++ [i]) = .value d) :
    (operands S t).ahead (p ++ [i]) = Poised (fun _ => True) [] ∧
    (operands S t).behind (p ++ [i]) =
      Poised (fun _ => True) (if d = .effect then [] else [t.formAt S (p ++ [i])]) := by
  have hwaiting := waitingAt_of_not (S := S) hr i
  rw [← holds_of_nil (congrArg Prod.snd hwaiting)]
  refine ⟨congrArg (Poised _) ?_, congrArg (Poised _) ?_⟩
  · rw [hwaiting, takenAt, hrole]
    rfl
  · rw [hwaiting, leftAt, hrole, append_nil]

theorem Outline.values_statement (hr : (t.roleAt p).isExpression = false) :
    (values S t).ahead p = Poised (t.Formed S p) [] ∧
    (values S t).behind p = Poised (t.FormedBehind S p) [] := by
  obtain ⟨hahead, hbehind⟩ := operands_statement (S := S) hr
  exact ⟨inf_poised (J := t.Formed S p) hahead, inf_poised (J := t.FormedBehind S p) hbehind⟩

theorem TypedTree.values_root (ht : TypedTree IsName t)
    (hp : partAt? (k :: p) .program t = some (part, u))
    (hr : (t.roleAt (k :: p)).isExpression = false) (hc : u.children[i]? = some e)
    (hpart : part? u.kind i e = some .expression) (hrole : t.roleAt ((k :: p) ++ [i]) = .value d) :
    (Outline.values S t).ahead ((k :: p) ++ [i]) = Poised (t.Formed S ((k :: p) ++ [i])) [] ∧
    (Outline.values S t).behind ((k :: p) ++ [i]) = Poised (t.Formed S ((k :: p) ++ [i]))
        (if d = .effect then [] else [t.formAt S ((k :: p) ++ [i])]) := by
  obtain ⟨hahead, hbehind⟩ := Outline.operands_root (S := S) hr hrole
  have hvisible := ht.visible_behind (V := fun k v (x : Activation) => v.IsFormed S t k x.locals)
    (p := p ++ [i])
    (partAt?_snoc hp hc hpart)
  refine ⟨inf_poised (J := t.Formed S ((k :: p) ++ [i])) hahead, ?_⟩
  rw [← inf_poised hbehind]
  exact funext fun x => congrArg (· ∧ _) (congrFun hvisible x)

theorem Tree.accepts_valueTy (hp : partAt? (k :: p) .program t = some (.expression, e))
    (hr : t.roleAt (k :: p) = .value (.ofDouble (ty = .double)))
    (he : HasType (t.checkedAt (k :: p)).scopes e ty') (hacc : ty.accepts ty') :
    ty.accepts (t.valueTy (k :: p)) := by
  by_cases hw : t.roleAt (k :: p) = .value .double ∧ (widened? e).isSome
  · have hdouble : ty = .double := by
      by_contra hne
      have h := hr.symm.trans hw.1
      simp [Demand.ofDouble, hne] at h
    rw [valueTy_widened hp hw.1 hw.2, hdouble]
    exact accepts_iff.mpr (.inl rfl)
  · rw [valueTy_eq hp he fun h => by simpa [h] using hw]
    exact hacc

theorem Value.exists_zeroInstr (ty : Ty) : ∃ v, (zeroInstr ty).constant? = some v ∧ v.HasTy ty := by
  cases ty <;> exact ⟨_, rfl, by first | rfl | exact Ty.noConfusion⟩

include ht

theorem FunctionIn.leads_values_declared {decl : Tree.Declaration}
    (hp : partAt? (k :: p) .program t = some (.declarator, u))
    (hdecl : t.declarationAt? (k :: p) = some decl) (hplace : decl.place = k :: p)
    (hrole : t.roleAt (k :: p) = .declarator decl.ty) (hI : ∀ ls, t.Formed S (k :: p) ls → I ls)
    (Λ : String → Activation → Prop) (j : Nat) :
    (Tracking.values S t k I).Leads Λ j
      (Poised (t.Formed S (k :: p)) [⟨decl.ty, S.own decl.isArray⟩])
      [.store ((after (initialValue decl.ty u) (t.loweredAt (k :: p))).newSlot u.text)]
      ((Outline.values S t).behind (k :: p)) := by
  rw [(Outline.values_statement (by rw [hrole]; rfl)).2]
  refine leads_store hI fun ls v h hv w hw => ?_
  rw [Tree.Variable.IsFormed]
  rcases ht.visibleBehind_declarator hp decl.ty hw with ⟨decl', rfl, hdecl'⟩ | ⟨hahead, hslot⟩
  · cases hdecl.symm.trans hdecl'
    have hslot : (Tree.Variable.declared decl).slot t =
        (after (initialValue decl.ty u) (t.loweredAt (k :: p))).newSlot u.text := by
      rw [← slotAt_declarator hp hrole, ← hplace]
      rfl
    rw [hslot, Locals.load_store_self]
    exact hv
  · rw [Locals.store, Locals.load_alter_ne _ _ hslot]
    exact h w hahead

theorem FunctionIn.computes_values_declarator (ho : t.Orderly S)
    (hI : ∀ ls, t.Formed S (k :: p) ls → I ls)
    (hp : partAt? (k :: p) .program t = some (.declarator, u)) :
    (Outline.values S t).Computes (.values S t k I) (k :: p) u (t.roleAt (k :: p))
      (t.loweredAt (k :: p)) n ((Outline.values S t).behind (k :: p)) := by
  obtain ⟨decl, Γ, hdecl, hplace, -, harray, hrole, -, hd⟩ := ht.declares hp
  have hstore := ht.leads_values_declared (S := S) hp hdecl hplace hrole hI
  have hstatement : (t.roleAt (k :: p)).isExpression = false := by rw [hrole]; rfl
  have hahead := (Outline.values_statement (S := S) hstatement).1
  have hvisible {i : Nat} {c : Tree} (hc : u.children[i]? = some c) : t.Formed S ((k :: p) ++ [i]) =
      t.Formed S (k :: p) :=
    funext fun _ =>
      propext (forall_congr' fun _ => imp_congr_left (ht.visibleAhead_child_iff hp (.inl rfl) hc))
  rw [harray] at hstore
  rw [hrole]
  cases hd with
  | plain x loc =>
    obtain ⟨v, hv, hty⟩ := Value.exists_zeroInstr decl.ty
    intro Λ
    rw [hahead, lower, code_declarator, code_initialValue_plain]
    exact .cons (leads_constant hI hv (Value.Fits.of_hasTy hty S.stored_own)) (hstore Λ _)
  | initial x loc e ty' _ _ he hacc =>
    have hrole₀ : t.roleAt ((k :: p) ++ [0]) = .value (.ofDouble (decl.ty = .double)) :=
      roleAt_child hp hrole rfl (ahead_initial _ 0 _ decl.ty)
    obtain ⟨hahead₀, hbehind₀⟩ := ht.values_root (S := S) hp hstatement (i := 0) rfl rfl hrole₀
    have hshape := apply_of_everywhere ho.keepsShapes ht hp
    rw [keepsShapesAt, hp] at hshape
    have hat : partAt? (k :: (p ++ [0])) .program t = some (.expression, e) :=
      partAt?_snoc hp rfl rfl
    have hinner : HasType (t.checkedAt (k :: (p ++ [0]))).scopes e ty' := by
      rw [← cons_append, checkedAt_append hp, Checker.reach_cons rfl]
      exact he
    have haccepts := accepts_valueTy hat hrole₀ hinner hacc
    refine ⟨by rw [hahead, hahead₀, hvisible rfl], fun Λ j => (hstore Λ j).mono_left ?_⟩
    rw [hbehind₀, hvisible rfl, if_neg (Demand.ofDouble_ne_effect _)]
    exact poised_mono fun v hv => hv.fits hshape haccepts
  | array x loc e _ _ he =>
    have hrole₀ : t.roleAt ((k :: p) ++ [0]) = .value .value :=
      roleAt_child hp hrole rfl (ahead_initial _ 0 _ decl.ty)
    obtain ⟨hahead₀, hbehind₀⟩ := ht.values_root (S := S) hp hstatement (i := 0) rfl rfl hrole₀
    refine ⟨by rw [hahead, hahead₀, hvisible rfl], fun Λ j => .cons ?_ (hstore Λ _)⟩
    rw [hbehind₀, hvisible rfl]
    refine leads_unary hI rfl (fun _ => Instr.noConfusion)
      (fun v => .zeros ((Value.position? v.toInt).getD 0)) ?_
      fun v _ => ?_
    · rintro v stack ls stack' ls' ⟨⟩
      exact ⟨rfl, rfl⟩
    · exact Value.Fits.of_within (a := .whole) (Value.isArrayOf_zeros _ _) S.whole_own

end Declarators

/-- **What is asserted about values fits together** around declared names and expressions. -/
theorem FunctionIn.computes_values {part : Tree.Part} {u : Tree} (ht : FunctionIn IsName t k c)
    (ho : t.Orderly S) (hI : ∀ ls, t.Formed S (k :: p) ls → I ls)
    (hp : partAt? (k :: p) .program t = some (part, u))
    (hplain : part = .declarator ∨ part = .expression) :
    (Outline.values S t).Computes (.values S t k I) (k :: p) u (t.roleAt (k :: p))
      (t.loweredAt (k :: p)) n ((Outline.values S t).behind (k :: p)) := by
  rcases hplain with rfl | rfl
  · exact ht.computes_values_declarator ho hI hp
  have hJ (ls : Locals) (h : t.Settled S (k :: p) ls) : I ls := hI ls h.1
  have hsuits := (ht.exists_code hp).1
  generalize hrole : t.roleAt (k :: p) = r at hsuits
  cases ht.reach hp with | expression _ _ _ ty _ he =>
  cases hsuits with
  | value d =>
    rw [(ht.values_value (S := S) hp hrole).2]
    cases he with
    | number => exact ht.computes_values_number hJ hrole hp .rfl
    | string => exact ht.computes_values_string hJ hrole hp
    | var => exact ht.computes_values_var hp hJ ho.separatesNames hrole
    | unary _ _ _ _ _ he hty => exact ht.computes_values_unary hJ hrole hp he hty
    | binary _ _ _ _ _ _ _ hl hr hty => exact ht.computes_values_binary hJ hrole hp hl hr hty
    | comma _ _ _ _ _ hl hr => exact ht.computes_values_comma hrole hp hl hr
    | index loc base i _ hbase hkind hi hindexable =>
      exact ht.computes_values_index hJ hrole hp (.index loc base i ty hbase hkind hi hindexable)
    | assign loc loc' x value _ ty' isArray hx hv hacc =>
      exact ht.computes_values_assign ho rfl hp hrole
        (.assign loc loc' x value ty ty' isArray hx hv hacc)
    | assignItem loc loc' loc'' x i value _ ty' hx hi hv hacc =>
      exact ht.computes_values_assignItem ho rfl hJ hp hrole
        (.assignItem loc loc' loc'' x i value ty ty' hx hi hv hacc)
    | call loc loc' f args _ params hf hargs =>
      have he : HasType _ _ ty := .call loc loc' f args ty params hf hargs
      refine ht.computes_values_call hp hrole ho hJ he fun hd => ?_
      have h := apply_of_everywhere ho.hasValues ht hp
      rw [hasValueAt, hrole, valueTy_eq hp he fun _ => rfl] at h
      simpa [hd] using h
  | name => exact ht.computes_values_name hp hJ ho.separatesNames hrole
  | entry => exact ht.computes_values_entry hp hrole
  | base => exact ht.computes_values_base hp hJ ho.separatesNames hrole

/-- **The code of a declared name or an expression** leads from the assertion ahead of it to that
behind it. -/
theorem FunctionIn.runs_values {part : Tree.Part} {u : Tree} (ht : FunctionIn IsName t k c)
    (ho : t.Orderly S) (hp : partAt? (k :: p) .program t = some (part, u))
    (hplain : part = .declarator ∨ part = .expression)
    (hI : ∀ q part' w, partAt? q part u = some (part', w) →
      ∀ ls, t.Formed S ((k :: p) ++ q) ls → I ls) (Λ : String → Activation → Prop) :
    (Outline.values S t).Runs (.values S t k I) (k :: p) u Λ part (t.roleAt (k :: p))
    (t.loweredAt (k :: p)) n ((Outline.values S t).behind (k :: p)) := by
  refine (ht.reach hp).runs (ht.exists_code hp).1 hplain (fun q part' w hq hplain' => ?_) Λ
  have := ht.computes_values (p := p ++ q)
    (n := n + (code (reach q (t.roleAt (k :: p)) u) (t.loweredAt (k :: p))).length)
    ho (hI q part' w hq) (by rw [← cons_append, partAt?_append, hp]; exact hq) hplain'
  rwa [← cons_append, roleAt_append hp, loweredAt_append hp] at this

/-! ## Values that are dropped -/

/-- An expression whose code ends by dropping its value: the code for the value, and a `pop` behind
it. -/
theorem HasType.code_dropped {Γ : Scopes} {u : Tree} {instrs : List Instr} (h : HasType Γ u ty)
    (hkind : u.kind ≠ .comma) (hcode : code (expression u .effect) s = instrs ++ [Instr.pop]) :
    instrs = code (expression u .value) s ∧
      ahead (.value .value) u = ahead (.value .effect) u ∧ u.kind ≠ .assign ∧
      ∀ f args, u.kind = .call → u.children = f :: args → s.leavesValue f.text := by
  have hvalue (heq : code (expression u .effect) s = code (expression u .value) s ++ [Instr.pop]) :
      instrs = code (expression u .value) s := append_cancel_right (hcode.symm.trans heq)
  have hlast {xs : List Instr} {x : Instr} (hx : x ≠ .pop) : code (expression u .effect) s ≠
      xs ++ [x] := by
    rw [hcode]
    intro heq
    exact hx (by simpa using (append_inj_right' heq rfl).symm)
  cases h with
  | number text loc =>
    exact ⟨hvalue (by simp [code_number, dropped, literal]), rfl, by simp, by simp⟩
  | string text loc => exact ⟨hvalue (by simp [code_string, dropped]), rfl, by simp, by simp⟩
  | var x loc =>
    exact ⟨hvalue (by simp [code_name, dropped]), rfl, by simp [nameAt], by simp [nameAt]⟩
  | unary op loc e => exact ⟨hvalue (by simp [code_unary, dropped]), rfl, by simp, by simp⟩
  | binary op loc l e => exact ⟨hvalue (by simp [code_binary, dropped]), rfl, by simp, by simp⟩
  | index loc base i => exact ⟨hvalue (by simp [code_index, dropped]), rfl, by simp, by simp⟩
  | comma => exact absurd rfl hkind
  | assign loc loc' x value =>
    exact absurd (by simp [code_assign]; rfl) (hlast (x := .store (s.slotOf x)) (by simp))
  | assignItem loc loc' loc'' x i value =>
    exact absurd (by rw [code_assignItem_effect, ← append_assoc])
      (hlast (x := .storeIndex (s.slotOf x)) (by simp))
  | call loc loc' f args =>
    have hcall := code_call loc .effect s f loc' args
    cases hleaves : s.leavesValue f with
    | true =>
      refine ⟨hvalue (by simp [code_call, hleaves]), rfl, by simp, ?_⟩
      rintro _ _ - ⟨⟩
      exact hleaves
    | false => exact absurd (by rw [hcall, hleaves]; rfl) (hlast (x := .call f) (by simp))

/-- **A value that is dropped** has its form until then. -/
theorem FunctionIn.leads_finished {u : Tree} {instrs : List Instr} (ht : FunctionIn IsName t k c)
    (ho : t.Orderly S) (hp : partAt? (k :: p) .program t = some (.expression, u))
    (hr : t.roleAt (k :: p) = .value .effect) (hkind : u.kind ≠ .comma)
    (hcode : code (expression u .effect) (t.loweredAt (k :: p)) = instrs ++ [Instr.pop])
    (Λ : String → Activation → Prop) : (Tracking.values S t k fun _ => True).Leads Λ n
      ((Outline.values S t).ahead (k :: p)) instrs (t.Yields S (k :: p) .value) := by
  have hI (ls : Locals) (_ : t.Settled S (k :: p) ls) : True := trivial
  cases ht.reach hp with | expression _ _ _ ty _ he =>
  obtain ⟨rfl, hahead, hassign, hcall⟩ := he.code_dropped hkind hcode
  -- the parts are lowered as if the value was wanted
  have hparts (j : Nat) (e : Tree) (he : u.children[j]? = some e)
      (hpart : part? u.kind j e = some .expression) :
      (Outline.values S t).RunsChild (.values S t k fun _ => True) (k :: p) u .expression
        (.value .value)
        (t.loweredAt (k :: p)) n j e := by
    intro Λ
    have hruns := ht.runs_values (S := S) (I := fun _ => True) (p := p ++ [j]) ho
      (partAt?_snoc hp he hpart) (.inr rfl)
      (fun _ _ _ _ _ _ => trivial) Λ
        (n := n + (code (ahead (.value .effect) u j) (t.loweredAt (k :: p))).length)
    rw [← cons_append, roleAt_snoc hp he, loweredAt_append hp, reach_cons he, hr,
      after_bind] at hruns
    rw [hahead]
    simpa [reach] using hruns
  suffices hcomputes : (Outline.values S t).Computes (.values S t k fun _ => True) (k :: p) u
    (.value .value)
      (t.loweredAt (k :: p)) n (t.Yields S (k :: p) .value) from (he.runs hcomputes hparts Λ).whole
  cases he with
  | number => exact ht.computes_values_number hI hr hp (by simp)
  | string => exact ht.computes_values_string hI hr hp
  | var => exact ht.computes_values_var hp hI ho.separatesNames hr
  | unary _ _ _ _ _ he hty => exact ht.computes_values_unary hI hr hp he hty
  | binary _ _ _ _ _ _ _ hl he hty => exact ht.computes_values_binary hI hr hp hl he hty
  | index loc base i _ hbase hsuffix hi hindexable =>
    exact ht.computes_values_index hI hr hp (.index loc base i ty hbase hsuffix hi hindexable)
  | comma => exact absurd rfl hkind
  | assign | assignItem => exact absurd rfl hassign
  | call loc loc' f args _ params hf hargs =>
    refine ht.computes_values_call hp hr ho hI (.call loc loc' f args ty params hf hargs)
      fun _ => ?_
    have hleaves : (t.loweredAt (k :: p)).leavesValue f = true := hcall _ _ rfl rfl
    rw [(ht.ready_loweredAt hp ⟨by simp, by simp⟩ (by simp)).1.leavesValue_eq hf] at hleaves
    exact bne_iff_ne.mp hleaves

end Computes

end Stacklet
