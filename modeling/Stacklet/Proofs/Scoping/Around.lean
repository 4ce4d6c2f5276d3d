import Stacklet.Proofs.Logic.Program
import Stacklet.Proofs.Visible
/-!
# What stands around a place

* `Tree.exists_parent`: the node around a part. `TypedTree.declares`: a declared name has the type
  of the statement around it.
* `FunctionIn.checkedAt_function`, `FunctionIn.around_function`: typing and lowering know the type
  that the function around a place returns.
* `FunctionIn.ready_loweredAt`: the functions that are in scope at a place.
-/

namespace Stacklet

open Stacklet.Tree

variable {r : Role} {t : Tree}

namespace Tree

variable {t u : Tree} {p : List Nat} {part : Part}

theorem exists_parent (hp : partAt? p .program t = some (part, u)) (hpart : part ≠ .program) :
    ∃ q i part' v, p = q ++ [i] ∧ partAt? q .program t = some (part', v) ∧ v.children[i]? = some u ∧
      part? v.kind i u = some part := by
  rcases List.eq_nil_or_concat p with rfl | ⟨q, i, rfl⟩
  · cases hp
    exact absurd rfl hpart
  · rw [List.concat_eq_append] at hp ⊢
    rw [partAt?_append, Option.bind_eq_some_iff] at hp
    obtain ⟨⟨part', v⟩, hq, hi⟩ := hp
    obtain ⟨c, part₁, hc, hpart₁, hi⟩ := partAt?_cons hi
    cases hi
    exact ⟨q, i, part', v, rfl, hq, hc, hpart₁⟩

theorem checkedAt_append {part' : Part} {v : Tree} (hp : partAt? p .program t = some (part', v))
    (q : List Nat) :
    t.checkedAt (p ++ q) = (Checker.reach q v (t.checkedAt p)).2 := by
  suffices h : ∀ (p : List Nat) (part : Part) (t : Tree) (s : Checker.State), partAt? p part t =
      some (part', v) →
      Checker.reach (p ++ q) t s = Checker.reach q v (Checker.reach p t s).2 from congrArg
        Prod.snd (h p _ t _ hp)
  intro p
  induction p with
  | nil =>
    intro part t s hp
    cases hp
    rfl
  | cons i p ih =>
    intro part t s hp
    obtain ⟨c, part₁, hc, -, hp⟩ := partAt?_cons hp
    rw [List.cons_append, Checker.reach_cons hc, Checker.reach_cons hc, ih part₁ c _ hp]

theorem roleAt_snoc {v : Tree} {i : Nat} (hp : partAt? p .program t = some (part, v))
    (hu : v.children[i]? = some u) :
    t.roleAt (p ++ [i]) = (Emit.ahead (t.roleAt p) v i (t.loweredAt p)).1 := by
  rw [roleAt_append hp, Emit.reach_cons hu, Emit.result_bind]
  rfl

end Tree

theorem Role.Suits.eq_item (h : r.Suits .item t) : r = .item := by
  cases h
  rfl

theorem Role.Suits.eq_statement (h : r.Suits .statement t) : r = .statement := by
  cases h
  rfl

/-! ## The function around a place -/

namespace Checker

variable {α β : Type}

/-- A check that leaves alone what is known about the function around. -/
class Inner (x : Checker α) : Prop where
  function_eq : ∀ s : State, (x s).2.inFunction = s.inFunction ∧ (x s).2.returnType = s.returnType

instance (x : Checker α) [Steady x] : Inner x :=
  ⟨fun s => ⟨(Steady.extend s).inFunction_eq, (Steady.extend s).returnType_eq⟩⟩

instance Inner.bind {x : Checker α} {f : α → Checker β} [hx : Inner x] [hf : ∀ a, Inner (f a)] :
    Inner (x >>= f) where
  function_eq s :=
    ⟨((hf (x s).1).function_eq (x s).2).1.trans (hx.function_eq s).1,
      ((hf (x s).1).function_eq (x s).2).2.trans (hx.function_eq s).2⟩

instance : Inner (modify fun s => s.withScopes ([] :: s.scopes)) := ⟨fun _ => ⟨rfl, rfl⟩⟩

instance : Inner (modify State.inLoop) := ⟨fun _ => ⟨rfl, rfl⟩⟩

theorem inner_ahead (hk : t.kind ≠ .program ∧ t.kind ≠ .function) (i : Nat) :
    Inner (ahead t i) := by
  obtain ⟨kind, text, isArray, loc, children⟩ := t
  unfold ahead
  cases kind with
  | program => exact absurd rfl hk.1
  | function => exact absurd rfl hk.2
  | forLoop =>
    refine @Inner.bind _ _ _ _ inferInstance fun _ => ?_
    split <;> infer_instance
  | call =>
    dsimp only
    split
    · refine @Inner.bind _ _ _ _ inferInstance fun callee => ?_
      split <;> infer_instance
    · infer_instance
  | _ =>
    dsimp only
    first
      | infer_instance
      | split <;> infer_instance

end Checker

namespace Emit

variable {α β : Type}

/-- What stays of a state while the parts of a function are lowered. -/
structure State.Around (s s' : State) : Prop where
  returnType_eq : s'.returnType = s.returnType
  functions_eq : s'.functions = s.functions
  valued_eq : s'.valued = s.valued

theorem State.Extends.around {s s' : State} (h : s.Extends s') : s.Around s' :=
  ⟨h.returnType_eq, h.functions_eq, h.valued_eq⟩

theorem State.Around.trans {s s' s'' : State} (h : s.Around s') (h' : s'.Around s'') :
    s.Around s'' :=
  ⟨h'.returnType_eq.trans h.returnType_eq, h'.functions_eq.trans h.functions_eq,
    h'.valued_eq.trans h.valued_eq⟩

/-- A computation that leaves alone what is known about the function around. -/
class Inner (x : Emit α) : Prop extends Local x where
  around : ∀ s : State, s.Around (after x s)

instance (x : Emit α) [Steady x] : Inner x := ⟨fun s => (Steady.extend s).around⟩

instance Inner.bind {x : Emit α} {f : α → Emit β} [hx : Inner x] [hf : ∀ a, Inner (f a)] :
    Inner (x >>= f) where
  around s := by
    rw [after_bind]
    exact (hx.around s).trans ((hf _).around _)

instance : Inner enter := ⟨fun _ => ⟨rfl, rfl, rfl⟩⟩

instance (labels : LoopLabels) : Inner (within labels) := ⟨fun _ => ⟨rfl, rfl, rfl⟩⟩

instance (x : Emit α) [Steady x] : Steady (discard x) := ⟨fun s => Steady.extend (x := x) s⟩

section Ahead

variable (loc : Loc) (c body first : Tree) (rest : List Tree)

instance : ∀ i, Inner (aheadInConditional c body rest i)
  | 0 | 1 | _ + 2 => by unfold aheadInConditional; infer_instance

instance : ∀ i, Inner (aheadInBranch c i)
  | 0 | _ + 1 => by unfold aheadInBranch; infer_instance

instance : ∀ i, Inner (aheadInWhile loc c i)
  | 0 | _ + 1 => by unfold aheadInWhile; infer_instance

instance : ∀ i, Inner (aheadInDoWhile loc body i)
  | 0 | _ + 1 => by unfold aheadInDoWhile; infer_instance

set_option synthInstance.maxSize 400 in
instance : ∀ i, Inner (aheadInFor loc first c body i)
  | 0 | 1 | _ + 3 => by unfold aheadInFor; infer_instance
  | 2 => by
    unfold aheadInFor
    exact @Inner.bind _ _ _ _ inferInstance fun _ => inferInstance

end Ahead

theorem inner_ahead (hr : r ≠ .program) (hk : t.kind ≠ .function) (i : Nat) :
    Inner (ahead r t i) := by
  unfold ahead
  split
  · exact absurd rfl hr
  · infer_instance
  · infer_instance
  · split <;> infer_instance
  · split
    · exact absurd rfl hk
    · infer_instance
    · infer_instance
    · exact { toLocal := .get_bind fun _ => rfl,
              around := fun s => by rw [after_get_bind]; exact ⟨rfl, rfl, rfl⟩ }
    all_goals infer_instance

end Emit

section Reach

variable {N : String → Prop} {σ : Checker.State} {t u : Tree} {p : List Nat}
  {part part' : Tree.Part} {r : Role}

/-- No name in scope at a statement or an expression has an error. -/
theorem TypedPart.known (h : TypedPart N σ part t) (hinner : part.IsInner)
    (hparam : part ≠ .parameter) :
    σ.scopes.Known := by
  cases h with
  | program => exact absurd rfl hinner.1
  | function | item => exact absurd rfl hinner.2
  | parameter => exact absurd rfl hparam
  | statement _ _ _ _ hs | branch _ _ _ hs | declarator _ _ _ _ _ hs | expression _ _ _ _ hs =>
    exact hs.known

theorem TypedPart.function_reach (h : TypedPart N σ part t) (hinner : part.IsInner)
    (hp : partAt? p part t = some (part', u)) :
    (Checker.reach p t σ).2.inFunction = σ.inFunction ∧
      (Checker.reach p t σ).2.returnType = σ.returnType := by
  induction p generalizing part t σ with
  | nil => exact ⟨rfl, rfl⟩
  | cons i p ih =>
    obtain ⟨c, part₁, hc, hpart, hp⟩ := partAt?_cons hp
    have hkind := h.kind_ne hinner
    obtain ⟨hin, hty⟩ := (Checker.inner_ahead hkind i).function_eq σ
    obtain ⟨hin', hty'⟩ := ih (h.step hc hpart) (part?_isInner hkind.1 hpart) hp
    rw [Checker.reach_cons hc]
    exact ⟨hin'.trans hin, hty'.trans hty⟩

theorem TypedPart.around_reach (h : TypedPart N σ part t) (hinner : part.IsInner)
    (hr : r.Suits part t) (hp : partAt? p part t = some (part', u)) (s : Emit.State) :
    s.Around (Emit.after (Emit.reach p r t) s) := by
  induction p generalizing part t σ r s with
  | nil => exact ⟨rfl, rfl, rfl⟩
  | cons i p ih =>
    obtain ⟨c, part₁, hc, hpart, hp⟩ := partAt?_cons hp
    have hkind := h.kind_ne hinner
    have hr' : r ≠ .program := by
      rintro rfl
      cases hr
      exact hinner.1 rfl
    have hahead := (Emit.inner_ahead hr' hkind.2 i).around s
    rw [Emit.reach_cons hc, Emit.after_bind]
    exact hahead.trans (ih (h.step hc hpart) (part?_isInner hkind.1 hpart)
      (h.splits hr s hc hpart).suits hp _)

end Reach

theorem Emit.ready_items {arity : String → Option Nat} {Γ : Scopes} (ts : List Tree)
    {s : Emit.State} (h : Ready arity s Γ) : Ready arity (after (ts.forM item) s) Γ := by
  induction ts generalizing s with
  | nil => exact h.of_eq rfl rfl
  | cons t ts ih =>
    rw [after_forM_cons]
    by_cases hk : t.kind = .function
    · rw [item_of_function hk]
      exact ih (ready_function h t)
    · rw [item_of_ne hk]
      exact ih (h.after (statement t))

section Around

variable {N : String → Prop} {t c u : Tree} {k : Nat} {p : List Nat} {part : Tree.Part}
  (ht : FunctionIn N t k c)
  (hp : partAt? (k :: p) .program t = some (part, u)) (hinner : part.IsInner)

include ht hp hinner

theorem FunctionIn.exists_around :
    ∃ (i : Nat) (q : List Nat) (b : Tree) (part' : Tree.Part), p = i :: q ∧
    (t.checkedAt [k]).Outside ∧ TypedFunction N (t.checkedAt [k]).scopes c ∧
    c.children[i]? = some b ∧
    part? c.kind i b = some part' ∧ part'.IsInner ∧ partAt? q part' b = some (part, u) := by
  obtain ⟨hσ, hfunction⟩ := (ht.reach ht.at_item).typedFunction ht.isFunction
  rw [ht.partAt?_eq] at hp
  match p with
  | [] =>
    cases hp
    exact absurd rfl hinner.2
  | i :: q =>
    obtain ⟨b, part', hb, hpart, hp⟩ := partAt?_cons hp
    have hinner := part?_isInner (by rw [ht.isFunction]; nofun) hpart
    exact ⟨i, q, b, part', rfl, hσ, hfunction, hb, hpart, hinner, hp⟩

/-- **Typing knows the function around a place.** -/
theorem FunctionIn.checkedAt_function :
    (t.checkedAt (k :: p)).inFunction = true ∧
      (t.checkedAt (k :: p)).returnType = .ofFirst c.children := by
  have hitem := ht.at_item
  obtain ⟨i, q, b, part', rfl, hσ, hfunction, hb, hpart, hinner', hq⟩ := ht.exists_around hp hinner
  have hentered : (Checker.ahead c i (t.checkedAt [k])).2.inFunction = true ∧
      (Checker.ahead c i (t.checkedAt [k])).2.returnType = .ofFirst c.children := by
    have hfun := ht.isFunction
    obtain ⟨kind, text, isArray, loc, children⟩ := c
    cases hfun
    exact Checker.Inner.function_eq (x := (parametersOf (children.take i)).forM fun p =>
      Checker.declareVar p (parameterTy p))
        (((t.checkedAt [k]).enterFunction (.ofFirst children)).withScopes _)
  obtain ⟨hin, hty⟩ := (hfunction.step hσ hb hpart).1.function_reach hinner' hq
  rw [show k :: i :: q = [k] ++ (i :: q) from rfl, checkedAt_append hitem, Checker.reach_cons hb]
  exact ⟨hin.trans hentered.1, hty.trans hentered.2⟩

/-- **Lowering knows the function around a place.** -/
theorem FunctionIn.around_function :
    ((t.itemState k).forFunction (.ofFirst c.children)).Around (t.loweredAt (k :: p)) := by
  have hitem := ht.at_item
  obtain ⟨i, q, b, part', rfl, hσ, hfunction, hb, hpart, hinner', hq⟩ := ht.exists_around hp hinner
  obtain ⟨hrole, hstate, -⟩ := Tree.at_item ht.child_eq
  have hentered := hfunction.after_ahead hb hpart (t.itemState k)
  have hkeep :=
    (Emit.extends_withParams ((t.itemState k).forFunction (.ofFirst c.children))
      (c.children.take i).tail).around
  have haround := (hfunction.step hσ hb hpart).1.around_reach hinner'
    (hfunction.splits (t.itemState k) hb hpart).suits hq
    (Emit.after (Emit.ahead .item c i) (t.itemState k))
  rw [show k :: i :: q = [k] ++ (i :: q) from rfl, loweredAt_append hitem, hrole, hstate,
    Emit.reach_cons hb, Emit.after_bind]
  rw [hentered] at haround ⊢
  exact hkeep.trans haround

end Around

section Functions

variable {t c u : Tree} {k : Nat} {p : List Nat} {part : Tree.Part} (ht : FunctionIn IsName t k c)
  (hp : partAt? (k :: p) .program t = some (part, u)) (hinner : part.IsInner)
  (hparam : part ≠ .parameter)

include ht hp hinner hparam

/-- **The functions in scope at a place** are those of the program, which lowering knows too. -/
theorem FunctionIn.ready_loweredAt :
    Emit.Ready t.arity (t.loweredAt (k :: p)) (t.checkedAt (k :: p)).scopes ∧
    ∀ c' ∈ t.functions, ∀ ty params, (t.checkedAt (k :: p)).scopes.lookup? c'.text =
      some (.function ty params) →
      Entry.ofChildren c'.children = .function ty params := by
  obtain ⟨Γ, hdeclares, hitems, hscopes⟩ := ht.exists_scopes
  have houtside : Γ.Adds (t.checkedAt [k]).scopes :=
    hscopes Γ.Adds (fun _ _ _ _ _ hstmt h => h.trans hstmt.adds) (.refl Γ) k
  have hknown : (t.checkedAt (k :: p)).scopes.Known := (ht.reach hp).known hinner hparam
  have hadds : Γ.Adds (t.checkedAt (k :: p)).scopes := by
    have ha := ht.aligned hp hinner
    intro x e hx
    rw [ha.lookup?_eq] at hx
    cases hd : resolve? (t.scopeAt (k :: p)) x with
    | none =>
      rw [hd] at hx
      exact houtside x e hx
    | some d =>
      have hty := hknown x (.var d.ty d.isArray) (by rw [ha.lookup?_eq, hd]; rfl)
      rw [hd] at hx
      cases hx
      exact .inr ⟨d.ty, d.isArray, rfl, hty⟩
  have haround := ht.around_function hp hinner
  have hready := Emit.ready_items (t.children.take k) (ready_start hdeclares hitems).1
  refine ⟨(hready.of_eq haround.functions_eq haround.valued_eq).adds hadds,
    fun c' hc' ty params hx => ?_⟩
  rcases hadds _ _ hx with hx | ⟨_, _, he, -⟩
  · obtain ⟨hfind, hlookup⟩ := hdeclares.lookup?_eq
    rw [hlookup, (hfind c' hc').2] at hx
    exact Option.some.inj hx
  · cases he

end Functions

/-! ## Declared names -/

section Declares

variable {N : String → Prop} {t u : Tree} {p : List Nat} (ht : TypedTree N t)
  (hp : partAt? p .program t = some (.declarator, u))

include ht hp

/-- **A declared name** is typed and lowered with the type of the statement around it. -/
theorem TypedTree.declares :
    ∃ (d : Tree.Declaration) (Γ : Scopes), t.declarationAt? p = some d ∧ d.place = p ∧
    d.name = u.text ∧ d.isArray = u.isArray ∧ t.roleAt p = .declarator d.ty ∧ d.ty.IsValue ∧
    Declares N d.ty (t.checkedAt p).scopes u Γ := by
  obtain ⟨q, i, part, v, rfl, hq, hu, hpart⟩ := exists_parent hp Tree.Part.noConfusion
  have hdecl : v.kind = .declaration ∧ ∃ j, i = j + 1 := by
    unfold part? at hpart
    split at hpart <;> (try split at hpart) <;> cases hpart
    next hkind => exact ⟨hkind, _, rfl⟩
  obtain ⟨hkind, j, rfl⟩ := hdecl
  have hat : t.declarationAt? (q ++ [j + 1]) =
      some ⟨q ++ [j + 1], u.text, .ofFirst v.children, u.isArray⟩ := by
    rw [declarationAt?, hp, List.dropLast_concat, hq]
    rfl
  have hsuits := (ht.exists_code hq).1
  have htyped : ∃ ret loop Γ, (t.roleAt q = .item ∨ t.roleAt q = .statement) ∧
      Typed N ret loop (t.checkedAt q).scopes v Γ := by
    cases ht.reach hq with
    | item _ Γ _ _ hv => exact ⟨none, false, Γ, .inl hsuits.eq_item, hv⟩
    | statement ret loop _ Γ _ hv => exact ⟨ret, loop, Γ, .inr hsuits.eq_statement, hv⟩
    | program _ _ _ hkind' | parameter _ hkind' => exact absurd (hkind.symm.trans hkind') (by simp)
    | function _ _ hf => exact absurd (hkind.symm.trans hf.parts.1) (by simp)
    | branch _ _ _ _ hv =>
      cases hv with
      | last _ _ _ hb =>
        obtain ⟨⟩ := hb
        cases hkind
      | elseIf => cases hkind
    | declarator _ _ _ _ _ _ _ hd => cases hd <;> cases hkind
    | expression _ _ _ _ _ he => cases he <;> cases hkind
  obtain ⟨ret, loop, Γ, hrole, hv⟩ := htyped
  have hrole' : t.roleAt (q ++ [j + 1]) = .declarator (.ofFirst v.children) := by
    rw [roleAt_snoc hq hu]
    obtain ⟨kind, text, isArray, loc, children⟩ := v
    cases hkind
    rcases hrole with hrole | hrole <;> rw [hrole] <;> rfl
  cases hv with
  | declaration _ _ _ loc ty ds hty hds =>
    obtain ⟨Γ₁, Γ₂, htake, hd⟩ := hds.split (i := j) hu
    refine ⟨_, Γ₂, hat, rfl, rfl, rfl, hrole', hty, ?_⟩
    rw [checkedAt_append hq, Checker.reach_cons hu]
    have hahead : Checker.ahead ⟨.declaration, "VarDeclList", false, loc, ty :: ds⟩ (j + 1)
        (t.checkedAt q) = ((), (t.checkedAt q).withScopes Γ₁) := htake.declarators_eq
    rw [hahead]
    exact hd
  | block _ _ _ hb =>
    obtain ⟨⟩ := hb
    cases hkind
  | _ => cases hkind

end Declares

end Stacklet
