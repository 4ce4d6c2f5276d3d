import Stacklet.Proofs.Scoping.Places
/-!
# Names in programs

* `FunctionIn.aligned`: at every place of a function, typing and lowering have the same declarations
  in scope.
* `Tree.declarationAt?`: what is declared at a place. All declarations in scope are declared where
  they say.
* `compile_resolves_names`: what that means for the variables of accepted sources.
-/

namespace Stacklet

open Emit List
open Stacklet.Tree hiding lower

/-! ## Functions -/

section Functions

variable {N : String → Prop} {Γ : Scopes} {slot : List Nat → String}
  {D : List (List Tree.Declaration)}
  {P : List Tree.Declaration} {s : Emit.State} {t c : Tree} {i : Nat} {here : List Nat}
  {part : Tree.Part}

theorem TypedFunction.after_ahead (h : TypedFunction N Γ t) (hc : t.children[i]? = some c)
    (hpart : part? t.kind i c = some part) (s : Emit.State) :
    Emit.after (ahead .item t i) s = (s.forFunction (.ofFirst t.children)).withParams
      (t.children.take i).tail := by
  obtain ⟨hparam | ⟨-, hblock, hall⟩, hof⟩ := h.part_cases hc hpart
  · rw [ahead_parameter h.parts.1 hc (by rw [hparam.2]; exact nofun), hof]
    simp [(mapM_parameter _ _).2.1]
  · rw [ahead_body h.parts.1 hc hblock, ← hall, ← after_prologue]
    simp

theorem TypedFunction.slotFrom_parameter {j : Nat} {p : Tree} (h : TypedFunction N Γ t)
    (hp : t.children[j + 1]? = some p) (hparam : p.kind = .parameter) (s : Emit.State) :
    slotFrom [j + 1] .item t s =
      ((s.forFunction (.ofFirst t.children)).withParams (t.children.take (j + 1)).tail).newSlot
        p.text := by
  have hk := h.parts.1
  have hrole : (ahead .item t (j + 1) s).1 = .parameter := by
    rw [ahead_parameter hk hp (hparam ▸ nofun)]
    rfl
  rw [slotFrom_cons hp, hrole, h.after_ahead hp (by rw [hk, part?, hparam] : _ = some .parameter)]
  simp [slotFrom]

theorem TypedFunction.slot_parameter {j : Nat} {p : Tree} (h : TypedFunction N Γ t)
    (hslot : ∀ p, slot (here ++ p) = slotFrom p .item t s) (hc : t.children[i]? = some c)
    (hpart : part? t.kind i c = some part) (hp : (t.children.take i).tail[j]? = some p) :
    slot (here ++ [j + 1]) =
      ((s.forFunction (.ofFirst t.children)).withParams ((t.children.take i).tail.take j)).newSlot
        p.text := by
  have hparam : p.kind = .parameter := by
    have hmem := mem_of_getElem? hp
    rw [← (h.part_cases hc hpart).2] at hmem
    exact beq_iff_eq.mp (mem_filter.mp hmem).2
  rw [getElem?_tail] at hp
  obtain ⟨hp, htake⟩ := getElem?_of_take hp
  have htail : (t.children.take (j + 1)).tail = (t.children.take i).tail.take j := by
    rw [← htake, ← drop_one, ← drop_one, drop_take]
    rfl
  rw [hslot, h.slotFrom_parameter hp hparam, htail]

theorem aligned_forFunction (slot : List Nat → String) (ty : Ty) (s : Emit.State) (Γ : Scopes) :
    Aligned Γ slot [[]] [] [] (s.forFunction ty) ([] :: Γ) where
  ne_nil := cons_ne_nil _ _
  scopes_eq := rfl
  types_eq := rfl
  doubles_eq := rfl
  subset := nil_subset _
  owned := forall_mem_nil _
  slots_nodup := nodup_nil
  apart := .nil
  held_nodup := nodup_nil
  hidden := forall_mem_nil _

/-- **The declarations at the parts of a function** are its parameters. -/
theorem TypedFunction.aligned {σ : Checker.State} (h : TypedFunction IsName σ.scopes t)
    (hσ : σ.Outside) (hslot : ∀ p, slot (here ++ p) = slotFrom p .item t s)
    (hc : t.children[i]? = some c) (hpart : part? t.kind i c = some part) :
    Aligned σ.scopes slot (scopeAhead here t i D) (passedAhead here t i P) []
      (Emit.after (ahead .item t i) s) (Checker.ahead t i σ).2.scopes := by
  have hparams := (h.step hσ hc hpart).2.aligned (fun j => here ++ [j + 1])
    (aligned_forFunction slot (.ofFirst t.children) s σ.scopes) fun j p hp =>
      h.slot_parameter hslot hc hpart hp
  rw [h.after_ahead hc hpart]
  simpa [scopeAhead, passedAhead, h.parts.1] using hparams

end Functions

/-! ## Programs -/

section Programs

variable {N : String → Prop} {t c u : Tree} {k : Nat} {p : List Nat} {part : Tree.Part}

theorem Tree.checkedAt_singleton (t : Tree) (k : Nat) :
    t.checkedAt [k] = (Checker.ahead t k .start).2 := by
  rw [checkedAt, Checker.reach, Checker.bind_apply]
  cases t.children[k]? <;> rfl

/-- **The declarations at every place of a function of a program.** -/
theorem FunctionIn.aligned (ht : FunctionIn IsName t k c)
    (hp : partAt? (k :: p) .program t = some (part, u)) (hpart : part.IsInner) :
    Aligned (t.checkedAt [k]).scopes t.slotAt (t.scopeAt (k :: p)) (t.passedAt (k :: p))
      (t.heldAt (k :: p)) (t.loweredAt (k :: p)) (t.checkedAt (k :: p)).scopes := by
  have hc := ht.child_eq
  obtain ⟨c', part₁, hc', hpart₁, hp⟩ := partAt?_cons hp
  cases hc.symm.trans hc'
  rw [ht.kind_eq] at hpart₁
  cases hpart₁
  have hchecked := t.checkedAt_singleton k
  have hslot (q : List Nat) :
      t.slotAt ([k] ++ q) = slotFrom q .item c (Emit.after (ahead .program t k) t.start) := by
    rw [slotAt, singleton_append, slotFrom_cons hc]
    rfl
  obtain ⟨hσ, hfunction⟩ := (ht.reach ht.at_item).typedFunction ht.isFunction
  match p with
  | [] =>
    cases hp
    exact absurd rfl hpart.2
  | i :: p =>
    obtain ⟨b, part₂, hb, hpart₂, hp⟩ := partAt?_cons hp
    have hinner := part?_isInner (ht.isFunction ▸ nofun) hpart₂
    have hreach := (hfunction.step hσ hb hpart₂).1.aligned_reach
      (hfunction.splits _ hb hpart₂).suits hinner
      (hfunction.aligned hσ hslot hb hpart₂ (D := scopeAhead [] t k [])
        (P := passedAhead [] t k []))
      (slot_child hslot hb ⟨rfl, rfl, rfl⟩) hp
    have hchecked' : t.checkedAt (k :: i :: p) =
        (Checker.reach p b (Checker.ahead c i (t.checkedAt [k])).2).2 := by
      rw [hchecked, checkedAt, Checker.reach_cons hc, Checker.reach_cons hb]
    have hrole := (ahead_item t k t.start).role_eq
    rw [hchecked', loweredAt, Emit.reach_cons hc, after_bind, hrole, Emit.reach_cons hb,
      after_bind, scopeAt,
      scopeTo_cons hc, scopeTo_cons hb, passedAt, passedTo_cons hc, passedTo_cons hb,
        heldAt, heldTo_cons hc,
      hrole, heldTo_cons hb, heldAhead_eq rfl, heldAhead_eq rfl]
    exact hreach

theorem TypedItems.scopes_take {Q : Scopes → Prop} {ts : List Tree} {σ : Checker.State}
    (hQ : ∀ Γ t Γ', t ∈ ts → t.kind ≠ .function → Typed N none false Γ t Γ' → Q Γ → Q Γ')
    (h : TypedItems N σ.scopes ts) (hσ : σ.Outside) (hΓ : Q σ.scopes) (k : Nat) :
    Q ((ts.take k).forM Checker.item σ).2.scopes := by
  induction ts generalizing σ k with
  | nil =>
    rw [take_nil]
    exact hΓ
  | cons t ts ih =>
    have hQ' (Γ : Scopes) (u : Tree) (Γ' : Scopes) (hu : u ∈ ts) := hQ Γ u Γ' (mem_cons_of_mem t hu)
    cases k with
    | zero => exact hΓ
    | succ k =>
      rw [take_succ_cons]
      show Q ((Checker.item t >>= fun _ => (ts.take k).forM Checker.item) σ).2.scopes
      cases h with
      | function _ _ _ ht hts =>
        have hitem : Checker.item t σ = ((), σ) := by
          rw [item_eq_function ht.parts.1]
          exact ht.function_eq hσ
        rw [Checker.bind_of_eq hitem]
        exact ih hQ' hts hσ hΓ k
      | stmt _ Γ' _ _ hk ht hts =>
        have hitem : Checker.item t σ = ((), σ.withScopes Γ') := by
          rw [item_eq_statement hk]
          exact ht.statement_eq hσ.ready
        rw [Checker.bind_of_eq hitem]
        exact ih (σ := σ.withScopes Γ') hQ' hts (hσ.withScopes (ht.adds.known hσ.ready.known))
          (hQ _ _ _ mem_cons_self hk ht hΓ) k

/-- Ahead of every item there are the declared functions, and what the statements before add. -/
theorem TypedTree.exists_scopes (ht : TypedTree N t) : ∃ Γ,
    DeclaresFunctions [Scopes.builtins] t.functions Γ ∧ TypedItems N Γ t.children ∧
      ∀ Q : Scopes → Prop, (∀ Γ u Γ', u ∈ t.children → u.kind ≠ .function →
        Typed N none false Γ u Γ' → Q Γ → Q Γ') → Q Γ → ∀ k, Q (t.checkedAt [k]).scopes := by
  obtain ⟨hk, Γ, hdeclares, hitems⟩ := ht
  refine ⟨Γ, hdeclares, hitems, fun Q hQ hΓ k => ?_⟩
  have hknown : Γ.Known := hitems.known hdeclares Checker.State.start_outside.ready.known
  have hahead : Checker.ahead t k .start =
      (t.children.take k).forM Checker.item (Checker.State.start.withScopes Γ) := by
    obtain ⟨kind, text, isArray, loc, children⟩ := t
    cases hk
    exact Checker.bind_of_eq hdeclares.declareFunctions_eq _
  rw [t.checkedAt_singleton, hahead]
  exact TypedItems.scopes_take (σ := Checker.State.start.withScopes Γ) hQ hitems
    (Checker.State.start_outside.withScopes hknown) hΓ k

theorem DeclaresFunctions.functionsOnly {fs : List Tree} {Γ : Scopes}
    (h : DeclaresFunctions [Scopes.builtins] fs Γ) : Γ.FunctionsOnly := by
  intro x e hx
  rw [h.lookup?_eq.2, Option.or_eq_some_iff, Scopes.lookup_builtins, Option.map_eq_some_iff,
    Option.map_eq_some_iff] at hx
  rcases hx with ⟨c, -, rfl⟩ | ⟨-, b, -, rfl⟩
  · exact ⟨_, _, rfl⟩
  · exact ⟨_, _, rfl⟩

theorem TypedTree.functionsOnly (ht : TypedTree N t)
    (hall : ∀ c ∈ t.children, c.kind = .function) (k : Nat) :
    (t.checkedAt [k]).scopes.FunctionsOnly := by
  obtain ⟨Γ, hdeclares, -, hscopes⟩ := ht.exists_scopes
  exact hscopes _ (fun _ u _ hu hk => absurd (hall u hu) hk) hdeclares.functionsOnly k

end Programs

/-! ## Where declarations stand -/

namespace Tree

/-- What is declared at a place of a program. -/
def declarationAt? (t : Tree) (p : List Nat) : Option Declaration :=
  match partAt? p .program t with
  | some (.parameter, u) => some ⟨p, u.text, parameterTy u, u.isArray⟩
  | some (.declarator, u) =>
    (partAt? p.dropLast .program t).map fun (_, parent) =>
      ⟨p, u.text, .ofFirst parent.children, u.isArray⟩
  | _ => none

theorem mem_declared {place : Nat → List Nat} {ty : Tree → Ty} {ds : List Tree} {d : Declaration} :
    d ∈ declared place ty ds ↔ ∃ j u, ds[j]? = some u ∧ ⟨place j, u.text, ty u, u.isArray⟩ = d := by
  rw [declared, mem_reverse, mem_iff_getElem?]
  simp [getElem?_mapIdx, Option.map_eq_some_iff]

theorem mem_declaredByAll {place : Nat → List Nat} {ts : List Tree} {d : Declaration} :
    d ∈ declaredByAll place ts ↔ ∃ j u, ts[j]? = some u ∧ d ∈ declaredBy (place j) u := by
  constructor
  · intro h
    obtain ⟨ds, hds, hd⟩ := mem_flatten.mp h
    obtain ⟨j, hj⟩ := mem_iff_getElem?.mp (mem_reverse.mp hds)
    rw [getElem?_mapIdx, Option.map_eq_some_iff] at hj
    obtain ⟨u, hu, rfl⟩ := hj
    exact ⟨j, u, hu, hd⟩
  · rintro ⟨j, u, hu, hd⟩
    refine mem_flatten.mpr ⟨_, mem_reverse.mpr (mem_iff_getElem?.mpr ⟨j, ?_⟩), hd⟩
    rw [getElem?_mapIdx, hu]
    rfl

variable {root t u : Tree} {here : List Nat} {part : Part} {D : List (List Declaration)}
  {d : Declaration} {i : Nat}

theorem mem_scopeAhead (h : d ∈ (scopeAhead here t i D).flatten) :
    d ∈ D.flatten ∨
    (t.kind = .function ∧ d ∈ declared (fun j => here ++ [j + 1]) parameterTy
      (t.children.take i).tail) ∨ (t.kind = .declaration ∧
      d ∈ declared (fun j => here ++ [j + 1]) (fun _ => .ofFirst t.children)
        (t.children.take i).tail) ∨
    ((t.kind = .block ∨ t.kind = .forLoop) ∧ ∃ j u, j < i ∧ t.children[j]? = some u ∧
      part? t.kind j u = some .statement ∧ d ∈ declaredBy (here ++ [j]) u) := by
  have row {n : Nat} (hn : n ≤ i)
      (hd : d ∈ declaredByAll (fun j => here ++ [j]) (t.children.take n))
      (hpart : ∀ j u, j < n → part? t.kind j u = some .statement) :
      ∃ j u, j < i ∧ t.children[j]? = some u ∧ part? t.kind j u = some .statement ∧
          d ∈ declaredBy (here ++ [j]) u := by
    obtain ⟨j, u, hu, hd⟩ := mem_declaredByAll.mp hd
    have hj : j < n := by
      have hlt := (List.getElem?_eq_some_iff.mp hu).1
      rw [length_take] at hlt
      omega
    exact ⟨j, u, by omega, (getElem?_of_take hu).1, hpart j u hj, hd⟩
  unfold scopeAhead at h
  split at h
  · next hk =>
    exact .inr (.inl ⟨hk, by simpa using h⟩)
  · next hk =>
    rw [flatten_cons, mem_append] at h
    rcases h with h | h
    · exact .inr (.inr (.inr ⟨.inl hk, row (Nat.le_refl i) h fun j u _ => by rw [hk]; rfl⟩))
    · exact .inl h
  · next hk =>
    rw [flatten_cons, mem_append] at h
    rcases h with h | h
    · refine .inr (.inr (.inr ⟨.inr hk, row (Nat.min_le_left i 1) h fun j u hj => ?_⟩))
      obtain rfl : j = 0 := by omega
      rw [hk]
      rfl
    · exact .inl h
  · next hk =>
    cases D with
    | nil => exact .inl h
    | cons scope outer =>
      rw [modifyHead_cons, flatten_cons, append_assoc, mem_append] at h
      rcases h with h | h
      · exact .inr (.inr (.inl ⟨hk, h⟩))
      · exact .inl h
  · exact .inl h

theorem declarationAt?_of_declared {ds : List Tree}
    (hhere : partAt? here .program root = some (part, t)) (hk : t.kind = .declaration)
    (hds : ∀ j u, ds[j]? = some u → t.children[j + 1]? = some u)
    (hd : d ∈ declared (fun j => here ++ [j + 1]) (fun _ => .ofFirst t.children) ds) :
    root.declarationAt? d.place = some d := by
  obtain ⟨j, u, hu, rfl⟩ := mem_declared.mp hd
  have hat :=
    partAt?_snoc hhere (hds j u hu) (by rw [hk]; rfl : part? t.kind (j + 1) u = some .declarator)
  simp [declarationAt?, hat, hhere]

theorem declarationAt?_of_declaredBy (hhere : partAt? here .program root = some (part, t))
    (hd : d ∈ declaredBy here t) :
    root.declarationAt? d.place = some d := by
  unfold declaredBy at hd
  split at hd
  · next hk =>
    refine declarationAt?_of_declared hhere hk (fun j u hu => ?_) hd
    rwa [getElem?_tail] at hu
  · cases hd

end Tree

section Declared

variable {N : String → Prop} {σ : Checker.State} {root t c u : Tree} {here p : List Nat}
  {part part' : Tree.Part}
  {D : List (List Tree.Declaration)} {d : Tree.Declaration} {i : Nat}

section

variable (h : TypedPart N σ part t) (hhere : partAt? here .program root = some (part, t))
  (hD : ∀ d ∈ D.flatten, root.declarationAt? d.place = some d)

include h hhere hD

/-- **All declarations in scope at the parts of a part are declared where they say.** -/
theorem TypedPart.declarationAt?_eq (hc : t.children[i]? = some c)
    (hpart : part? t.kind i c = some part') (hd : d ∈ (scopeAhead here t i D).flatten) :
    root.declarationAt? d.place = some d := by
  rcases mem_scopeAhead hd with hd | ⟨hk, hd⟩ | ⟨hk, hd⟩ | ⟨-, j, u, -, hu, hpart, hd⟩
  · exact hD d hd
  · obtain ⟨j, u, hu, rfl⟩ := mem_declared.mp hd
    have hparam : u.kind = .parameter := by
      have hmem := mem_of_getElem? hu
      rw [← ((h.typedFunction hk).2.part_cases hc hpart).2] at hmem
      exact beq_iff_eq.mp (mem_filter.mp hmem).2
    rw [getElem?_tail] at hu
    have hat := partAt?_snoc hhere (getElem?_of_take hu).1
      (by rw [hk, part?, hparam] : part? t.kind (j + 1) u = some .parameter)
    simp [declarationAt?, hat]
  · refine declarationAt?_of_declared hhere hk (fun j u hu => ?_) hd
    rw [getElem?_tail] at hu
    exact (getElem?_of_take hu).1
  · exact declarationAt?_of_declaredBy (partAt?_snoc hhere hu hpart) hd

theorem TypedPart.declarationAt?_reach (hp : partAt? p part t = some (part', u)) :
    ∀ d ∈ (scopeTo here p t D).flatten, root.declarationAt? d.place = some d := by
  induction p generalizing here t part σ D with
  | nil => exact hD
  | cons i p ih =>
    obtain ⟨c, part₁, hc, hpart₁, hp⟩ := partAt?_cons hp
    rw [scopeTo_cons hc]
    exact ih (h.step hc hpart₁) (partAt?_snoc hhere hc hpart₁)
      (fun d hd => h.declarationAt?_eq hhere hD hc hpart₁ hd) hp

end

end Declared

/-! ## Code for names -/

/-- Code for a variable in its role, given its slot. -/
def Role.access (slot : String) : Role → List Instr
  | .value d => .load slot :: dropped d
  | .target d => .store slot :: if d = .effect then [] else [.load slot]
  | .base => [.storeIndex slot]
  | _ => []

/-- The name of the variable that the part at a place of a program is an occurrence of. -/
def Tree.variableAt? (t : Tree) (p : List Nat) : Option String :=
  match t.expressionAt? p with
  | some e => if e.kind = .identifier then some e.text else none
  | none => none

theorem Tree.variableAt?_eq_some {t : Tree} {p : List Nat} {x : String}
    (h : t.variableAt? p = some x) :
    ∃ e, partAt? p .program t = some (.expression, e) ∧ e.kind = .identifier ∧ e.text = x := by
  unfold variableAt? at h
  split at h
  · next e he =>
    obtain ⟨hk, hx⟩ := Option.ite_none_right_eq_some.mp h
    exact ⟨e, expressionAt?_eq_some he, hk, Option.some.inj hx⟩
  · cases h

section Names

variable {Γ : Scopes} {e : Tree} {ty : Ty} {r : Role}

theorem HasType.code_variable (h : HasType Γ e ty) (hk : e.kind = .identifier)
    (hr : r.Suits .expression e) (s : Emit.State) :
    (∃ isArray, Γ.lookup? e.text = some (.var ty isArray)) ∧
      code (lower r e) s = r.access (s.slotOf e.text) := by
  cases h with
  | var x loc ty isArray hx =>
    refine ⟨⟨isArray, hx⟩, ?_⟩
    generalize he : nameAt x loc = e at hr
    cases hr with
    | value d => exact he ▸ code_name loc d s x
    | name d x loc => exact code_target_name d x loc s
    | base x loc => exact code_base x loc s
    | entry => cases he
  | _ => cases hk

/-! ## Code for declarations -/

theorem slotFrom_append {p : List Nat} {part part' : Tree.Part} {t u : Tree}
    (hp : partAt? p part t = some (part', u)) (q : List Nat) (r : Role) (s : Emit.State) :
    slotFrom (p ++ q) r t s = slotFrom q (Emit.reach p r t s).1 u
      (Emit.after (Emit.reach p r t) s) := by
  induction p generalizing part t r s with
  | nil =>
    cases hp
    exact (slotFrom_blank q r u s).symm
  | cons i p ih =>
    obtain ⟨c, part₁, hc, -, hp⟩ := partAt?_cons hp
    rw [cons_append, slotFrom_cons hc, ih hp, Emit.reach_cons hc, after_bind, result_bind]

theorem paramSlots_eq {ps : List Tree} {s : Emit.State} {f : Nat → String}
    (hf : ∀ j p, ps[j]? = some p → f j = (s.withParams (ps.take j)).newSlot p.text) :
    s.paramSlots ps = (range ps.length).map f := by
  induction ps generalizing s f with
  | nil => rfl
  | cons p ps ih =>
    rw [State.paramSlots, length_cons, range_succ_eq_map, map_cons, map_map, hf 0 p rfl,
      ih (f := fun j => f (j + 1)) fun j q hq => hf (j + 1) q hq]
    rfl

theorem TypedFunction.paramSlots_eq {N : String → Prop} {t : Tree} (h : TypedFunction N Γ t)
    (s : Emit.State) :
    (s.forFunction (.ofFirst t.children)).paramSlots (parametersOf t.children) =
      (List.range (parametersOf t.children).length).map fun j => slotFrom [j + 1] .item t s := by
  refine Stacklet.paramSlots_eq fun j p hp => ?_
  have hfun := h
  obtain ⟨f, loc, ty, ps, body, Γ', -, hty, hps, hbody⟩ := h
  have hblock := hbody.kind_eq
  have hparams := parametersOf_function (kind_of_isValue hty) hps.kind_eq hblock
  rw [hparams] at hp ⊢
  have hj := (List.getElem?_eq_some_iff.mp hp).1
  have hchild : (ty :: (ps ++ [body]))[j + 1]? = some p := by
    rw [getElem?_cons_succ, getElem?_append_left hj, hp]
  rw [hfun.slotFrom_parameter hchild (hps.kind_eq p (mem_of_getElem? hp)), take_succ_cons,
    tail_cons, take_append_of_le_length (Nat.le_of_lt hj)]

section Stores

variable {t u c : Tree} {p : List Nat} {k : Nat}

theorem Tree.slotAt_declarator {ty : Ty} (hp : partAt? p .program t = some (.declarator, u))
    (hrole : t.roleAt p = .declarator ty) :
    t.slotAt p = (Emit.after (initialValue ty u) (t.loweredAt p)).newSlot u.text := by
  have hslot := slotFrom_append hp [] .program t.start
  rw [append_nil] at hslot
  rw [slotAt, hslot, show (Emit.reach p .program t t.start).1 = _ from hrole]
  simp [slotFrom]
  rfl

section

variable {N : String → Prop} (ht : TypedTree N t)

include ht

theorem TypedTree.exists_code {part : Tree.Part}
    (hp : partAt? p .program t = some (part, u)) :
    (t.roleAt p).Suits part u ∧
      ∃ behind, t.lower.code.toList = t.codeAhead p ++
        (code (lower (t.roleAt p) u) (t.loweredAt p) ++ behind) := by
  obtain ⟨hsuits, behind, hcode, -⟩ := ht.typedPart.splits_reach (.program t) hp t.start
  exact ⟨hsuits, behind, hcode⟩

theorem TypedTree.exists_store (hp : partAt? p .program t = some (.declarator, u)) :
    ∃ ty initial behind, t.slotAt p =
      (Emit.after (initialValue ty u) (t.loweredAt p)).newSlot u.text ∧
      t.lower.code.toList = t.codeAhead p ++ (initial ++ Instr.store (t.slotAt p) :: behind) := by
  obtain ⟨hsuits, behind, hcode⟩ := ht.exists_code hp
  obtain ⟨ty, hrole⟩ : ∃ ty, t.roleAt p = .declarator ty := by
    generalize t.roleAt p = r at hsuits
    obtain ⟨⟩ | ⟨⟩ | ⟨⟩ | ⟨⟩ | ⟨⟩ | ⟨ty, _⟩ := hsuits
    exact ⟨ty, rfl⟩
  have hslot := slotAt_declarator hp hrole
  rw [hrole, lower, code_declarator, append_assoc, ← hslot] at hcode
  exact ⟨ty, _, behind, hslot, hcode⟩

omit ht in
theorem FunctionIn.exists_stores (ht : FunctionIn N t k c) :
    ∃ behind, t.lower.code.toList = t.codeAhead [k] ++ (Instr.label c.text ::
      ((range (parametersOf c.children).length).map
        fun j => .store (t.slotAt [k, j + 1])).reverse ++ behind) := by
  have hc := ht.child_eq
  have hfun := ht.isFunction
  have hp := ht.at_item
  obtain ⟨hsuits, behind, hcode⟩ := ht.exists_code hp
  have hfunction := ((ht.reach hp).typedFunction hfun).2
  have hslot (j : Nat) : t.slotAt [k, j + 1] = slotFrom [j + 1] (t.roleAt [k]) c
      (t.loweredAt [k]) :=
    slotFrom_append hp [j + 1] .program t.start
  generalize t.roleAt [k] = r at hsuits hcode hslot
  obtain ⟨⟩ := hsuits
  simp only [hslot]
  rw [lower, item_of_function hfun, code_function, code_opening, code_prologue,
    hfunction.paramSlots_eq] at hcode
  simp only [map_map, append_assoc, cons_append] at hcode ⊢
  exact ⟨_, hcode⟩

end

end Stores

end Names

/-- **Names stand for the same variables in typing and in lowering.** In an accepted source whose
items are functions:

* Every occurrence of a variable is lowered to an access to the slot of the declaration that its
  name stands for where it occurs, with the type that typing finds for the name.
* Everywhere inside of the functions, the scopes of typing are the declarations in scope, behind
  which there are functions only. The declarations stand where they say. The slots of those in
  scope, hidden by others or not, and the hidden slots in use are all different.
* A declared variable is set in its slot, which none of those in scope and no value that is held
  has. So are the parameters of a function. -/
theorem compile_resolves_names {source : String} {program : Program}
    (h : compile source = .ok program)
    (hfun : ∀ c ∈ (parse source).1.children, c.kind = .function) :
    let t := (parse source).1
    (∀ p x, t.variableAt? p = some x → ∃ d behind, Tree.resolve? (t.scopeAt p) x = some d ∧
      (t.checkedAt p).scopes.lookup? x = some (.var d.ty d.isArray) ∧
      program.code.toList = t.codeAhead p ++ ((t.roleAt p).access (t.slotAt d.place) ++ behind)) ∧
    (∀ p part u, Tree.partAt? p .program t = some (part, u) → part.IsInner →
      (∃ G : Scopes, G.FunctionsOnly ∧ (t.checkedAt p).scopes =
        ((t.scopeAt p).map fun scope => scope.map fun d => (d.name, .var d.ty d.isArray)) ++ G) ∧
      (∀ d ∈ (t.scopeAt p).flatten, t.declarationAt? d.place = some d) ∧
      (((t.scopeAt p).flatten.map fun d => t.slotAt d.place) ++ t.heldAt p).Nodup ∧
      ∀ d ∈ (t.scopeAt p).flatten, ∀ k, t.slotAt d.place ≠ (Slot.hidden k).text) ∧
    (∀ p u, Tree.partAt? p .program t = some (.declarator, u) →
      t.slotAt p ∉ ((t.scopeAt p).flatten.map fun d => t.slotAt d.place) ++ t.heldAt p ∧
      ∃ initial behind, program.code.toList =
        t.codeAhead p ++ (initial ++ Instr.store (t.slotAt p) :: behind)) ∧
    ∀ k c, t.children[k]? = some c → ∃ behind, program.code.toList =
      t.codeAhead [k] ++ (Instr.label c.text :: ((List.range (parametersOf c.children).length).map
        fun j => .store (t.slotAt [k, j + 1])).reverse ++ behind) := by
  obtain ⟨ht, rfl⟩ := compile_typedTree h
  intro t
  have function {k : Nat} {c : Tree} (hc : t.children[k]? = some c) : FunctionIn IsName t k c :=
    ⟨ht, hc, hfun c (List.mem_of_getElem? hc)⟩
  have aligned {p : List Nat} {part : Tree.Part} {u : Tree}
      (hp : Tree.partAt? p .program t = some (part, u)) (hpart : part.IsInner) :
      ∃ G : Scopes, G.FunctionsOnly ∧ Aligned G t.slotAt (t.scopeAt p) (t.passedAt p) (t.heldAt p)
        (t.loweredAt p) (t.checkedAt p).scopes := by
    match p with
    | [] =>
      cases hp
      exact absurd rfl hpart.1
    | k :: p =>
      obtain ⟨c, _, hc, -, -⟩ := Tree.partAt?_cons hp
      exact ⟨_, ht.functionsOnly hfun k, (function hc).aligned hp hpart⟩
  refine ⟨fun p x hx => ?_, fun p part u hp hpart => ?_, fun p u hp => ?_,
    fun k c hc => (function hc).exists_stores⟩
  · obtain ⟨e, hp, hident, rfl⟩ := Tree.variableAt?_eq_some hx
    obtain ⟨G, hG, ha⟩ := aligned hp ⟨nofun, nofun⟩
    obtain ⟨hsuits, behind, hcode⟩ := ht.exists_code hp
    cases ht.reach hp with
    | expression _ _ _ ty _ hty =>
      obtain ⟨⟨isArray, hlookup⟩, haccess⟩ := hty.code_variable hident hsuits (t.loweredAt p)
      have hfound := (ha.lookup?_eq e.text).symm.trans hlookup
      -- outside of the function there are no variables
      cases hd : Tree.resolve? (t.scopeAt p) e.text with
      | none =>
        rw [hd] at hfound
        obtain ⟨_, _, hentry⟩ := hG _ _ hfound
        cases hentry
      | some d =>
        rw [hd] at hfound
        rw [haccess, ha.slotOf_eq hd] at hcode
        exact ⟨d, behind, rfl, hlookup.trans hfound.symm, hcode⟩
  · obtain ⟨G, hG, ha⟩ := aligned hp hpart
    refine ⟨⟨G, hG, ha.types_eq⟩, ?_, ha.nodup,
      fun d hd k => (ha.owned d (ha.subset hd)).ne_hidden k⟩
    exact ht.typedPart.declarationAt?_reach (rfl : Tree.partAt? [] .program t = _)
      (List.forall_mem_nil _) hp
  · obtain ⟨G, -, ha⟩ := aligned hp ⟨nofun, nofun⟩
    obtain ⟨ty, initial, behind, hslot, hcode⟩ := ht.exists_store hp
    have hname := (ht.reach hp).isName_declarator
    exact ⟨hslot ▸ (ha.after (Emit.initialValue ty u)).newSlot_notMem hname, initial, behind, hcode⟩

/-- A source text with many variables of one name. -/
def manyShadows : String :=
  "fn int f(int x) { int a[4]; for (int x = x; x < 2;) { int x = x; x = a[x] = x; } return x; }"

/-- The index of the item that is assigned is the third variable `x`. The item is held meanwhile. -/
theorem manyShadows_resolves_names :
    compile manyShadows = .ok (parse manyShadows).1.lower ∧
    (∀ c ∈ (parse manyShadows).1.children, c.kind = .function) ∧
    (parse manyShadows).1.variableAt? [0, 2, 1, 3, 1, 0, 1, 0, 1] = some "x" ∧
    (parse manyShadows).1.heldAt [0, 2, 1, 3, 1, 0, 1, 0, 1] = ["#t3"] ∧
    ∃ behind, (parse manyShadows).1.lower.code.toList =
      (parse manyShadows).1.codeAhead [0, 2, 1, 3, 1, 0, 1, 0, 1] ++ (.load "x#2" :: behind) := by
  have hfacts : (parse manyShadows).2.isEmpty ∧ (parse manyShadows).1.typeErrors.isEmpty ∧
      (∀ c ∈ (parse manyShadows).1.children, c.kind = .function) ∧
      (parse manyShadows).1.variableAt? [0, 2, 1, 3, 1, 0, 1, 0, 1] = some "x" ∧
      (parse manyShadows).1.heldAt [0, 2, 1, 3, 1, 0, 1, 0, 1] = ["#t3"] ∧
      (Tree.resolve? ((parse manyShadows).1.scopeAt [0, 2, 1, 3, 1, 0, 1, 0, 1]) "x").map (fun d =>
        ((parse manyShadows).1.roleAt [0, 2, 1, 3, 1, 0, 1, 0, 1],
          (parse manyShadows).1.slotAt d.place)) =
        some (.value .value, "x#2") := by
    rw [parse_ofList manyShadows rfl]
    decide +kernel
  obtain ⟨hparse, htypes, hfun, hx, hheld, hslot⟩ := hfacts
  have hcompile := compile_of_isEmpty hparse htypes
  obtain ⟨d, behind, hd, -, hcode⟩ := (compile_resolves_names hcompile hfun).1 _ _ hx
  rw [hd] at hslot
  obtain ⟨hrole, hslot⟩ := Prod.mk.inj (Option.some.inj hslot)
  rw [hrole, hslot] at hcode
  exact ⟨hcompile, hfun, hx, hheld, behind, hcode⟩

end Stacklet
