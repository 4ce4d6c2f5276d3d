import Stacklet.Proofs.Scoping.Program
/-!
# Variables that are visible at a place

* `Tree.undeclaredAhead`: no part from which control may come to a place declares a name.
* `Tree.Variable`: a variable of a function, or one from outside of it whose name was not declared
  yet. `Tree.VisibleAhead`, `Tree.VisibleBehind`: the variables that can be relied on ahead of a
  part and behind it.
* `FunctionIn.slot_injOn`: no two visible variables have the same slot.
-/

namespace Stacklet

open Stacklet.Tree List

variable {t : Tree}

namespace Tree

/-! ## Declared names -/

/-- Whether a node declares a name. -/
def declaresName (x : String) (t : Tree) : Bool :=
  (t.kind == .declarator || t.kind == .parameter) && t.text == x

/-- Whether no node in a tree declares a name. -/
def lacks (x : String) (t : Tree) : Bool := t.all fun u => !u.declaresName x

/-- Whether control may come from the child with number `j` of a node to the one with number `i`. -/
def reaches : (parent : Kind) → (j i : Nat) → Bool
  | .function, j, i | .block, j, i | .declaration, j, i => j < i
  | .whileLoop, _, _ | .doWhile, _, _ => true
  | .forLoop, _, i => 0 < i
  | _, _, _ => false

/-- Whether no part from which control may come to a place declares a name. -/
def undeclaredAhead (x : String) : List Nat → Tree → Bool
  | [], _ => true
  | i :: p, t => (t.children.zipIdx.all fun (c, j) => !reaches t.kind j i || c.lacks x) &&
    match t.children[i]? with
    | some c => undeclaredAhead x p c
    | none => true

variable {x : String} {t c u : Tree} {i j : Nat} {p q : List Nat} {part part' : Part}

theorem lacks_child (h : t.lacks x) (hc : t.children[i]? = some c) : c.lacks x :=
  all_of_mem h (mem_of_getElem? hc)

theorem text_ne_of_lacks (h : t.lacks x) (hk : t.kind = .declarator ∨ t.kind = .parameter) :
    t.text ≠ x := by
  have hself := (all_iff.mp h).1
  rintro rfl
  rcases hk with hk | hk <;> simp [declaresName, hk] at hself

theorem undeclaredAhead_cons : undeclaredAhead x (i :: p) t ↔
    (∀ j c, t.children[j]? = some c → reaches t.kind j i → c.lacks x) ∧
      ∀ c, t.children[i]? = some c → undeclaredAhead x p c := by
  have hall : (t.children.zipIdx.all fun (c, j) => !reaches t.kind j i || c.lacks x) ↔
      ∀ j c, t.children[j]? = some c → reaches t.kind j i → c.lacks x := by
    rw [all_eq_true]
    constructor
    · intro h j c hc hj
      have := h (c, j) (mk_mem_zipIdx_iff_getElem?.mpr hc)
      simpa [hj] using this
    · rintro h ⟨c, j⟩ hmem
      have := h j c (mk_mem_zipIdx_iff_getElem?.mp hmem)
      cases hj : reaches t.kind j i with
      | false => simp [hj]
      | true => simp [this hj]
  rw [undeclaredAhead, Bool.and_eq_true, hall]
  cases t.children[i]? <;> simp

theorem undeclaredAhead_append (hp : partAt? p part t = some (part', u)) :
    undeclaredAhead x (p ++ q) t ↔ undeclaredAhead x p t ∧ undeclaredAhead x q u := by
  induction p generalizing part t with
  | nil =>
    cases hp
    simp [undeclaredAhead]
  | cons i p ih =>
    obtain ⟨c, part₁, hc, -, hp⟩ := partAt?_cons hp
    rw [cons_append, undeclaredAhead_cons, undeclaredAhead_cons, and_assoc]
    refine and_congr_right fun _ => ?_
    simp [hc, ih hp]

theorem undeclaredAhead_snoc (hp : partAt? p part t = some (part', u)) :
    undeclaredAhead x (p ++ [i]) t ↔
      undeclaredAhead x p t ∧ ∀ j c, u.children[j]? = some c → reaches u.kind j i → c.lacks x := by
  rw [undeclaredAhead_append hp, undeclaredAhead_cons]
  simp [undeclaredAhead]

theorem undeclaredAhead_of_lacks (h : ∀ (j : Nat) (c : Tree), t.children[j]? = some c → c.lacks x) :
    undeclaredAhead x p t := by
  induction p generalizing t with
  | nil => rfl
  | cons i p ih =>
    refine undeclaredAhead_cons.mpr ⟨fun j c hc _ => h j c hc, fun c hc => ih fun j c' hc' => ?_⟩
    exact lacks_child (h i c hc) hc'

end Tree

section Typed

variable {N : String → Prop} {Γ : Scopes} {x : String}

theorem Tree.lacks_of_kind (hk : t.kind ≠ .declarator ∧ t.kind ≠ .parameter)
    (h : ∀ c ∈ t.children, c.lacks x) : t.lacks x := by
  refine all_iff.mpr ⟨?_, h⟩
  simp [declaresName, hk.1, hk.2]

theorem Tree.lacks_nameAt (y : String) (loc : Loc) : (nameAt y loc).lacks x :=
  lacks_of_kind ⟨nofun, nofun⟩ (forall_mem_nil _)

mutual

theorem HasType.lacks {e : Tree} {ty : Ty} : HasType Γ e ty → e.lacks x
  | .number .. | .string .. =>
    lacks_of_kind ⟨nofun, nofun⟩ (forall_mem_nil _)
  | .var y loc .. => lacks_nameAt y loc
  | .unary _ _ _ _ _ he _ =>
    lacks_of_kind ⟨nofun, nofun⟩ (forall_mem_singleton.mpr he.lacks)
  | .binary _ _ _ _ _ _ _ hl hr _ | .comma _ _ _ _ _ hl hr =>
    lacks_of_kind ⟨nofun, nofun⟩
      (forall_mem_cons.mpr ⟨hl.lacks, forall_mem_singleton.mpr hr.lacks⟩)
  | .assign _ loc y _ _ _ _ _ hv _ =>
    lacks_of_kind ⟨nofun, nofun⟩
      (forall_mem_cons.mpr ⟨lacks_nameAt y loc, forall_mem_singleton.mpr hv.lacks⟩)
  | .assignItem _ _ loc y _ _ _ _ _ hi hv _ =>
    lacks_of_kind ⟨nofun, nofun⟩
      (forall_mem_cons.mpr ⟨lacks_of_kind ⟨nofun, nofun⟩
        (forall_mem_cons.mpr ⟨lacks_nameAt y loc, forall_mem_singleton.mpr hi.lacks⟩),
        forall_mem_singleton.mpr hv.lacks⟩)
  | .call _ loc f _ _ _ _ hargs =>
    lacks_of_kind ⟨nofun, nofun⟩
      (forall_mem_cons.mpr ⟨lacks_nameAt f loc, hargs.lacks⟩)
  | .index _ _ _ _ hbase _ hi _ =>
    lacks_of_kind ⟨nofun, nofun⟩
      (forall_mem_cons.mpr ⟨hbase.lacks, forall_mem_singleton.mpr hi.lacks⟩)

theorem HasArgs.lacks {params : List (Ty × Bool)} {args : List Tree} : HasArgs Γ params args →
    ∀ arg ∈ args, arg.lacks x
  | .nil => forall_mem_nil _
  | .cons _ _ _ _ _ _ harg _ _ hargs => forall_mem_cons.mpr ⟨harg.lacks, hargs.lacks⟩

end

theorem TypedPart.kind_of_declares {σ : Checker.State} {part : Tree.Part} (h : TypedPart N σ part t)
    (hpart : part = .declarator ∨ part = .parameter) :
    t.kind = .declarator ∨ t.kind = .parameter := by
  cases h with
  | parameter _ hk => exact .inr hk
  | declarator _ _ _ _ _ _ _ hd => cases hd <;> exact .inl rfl
  | _ => rcases hpart with hp | hp <;> cases hp

end Typed

/-! ## Scopes along places -/

namespace Tree

section Scopes

variable {t u c : Tree} {p q here : List Nat} {part part' : Part} {i : Nat}
  {D : List (List Declaration)} {d : Declaration}

theorem scopeTo_append (hp : partAt? p part t = some (part', u)) :
    scopeTo here (p ++ q) t D = scopeTo (here ++ p) q u (scopeTo here p t D) := by
  induction p generalizing here part t D with
  | nil =>
    cases hp
    rw [append_nil]
    rfl
  | cons i p ih =>
    obtain ⟨c, part₁, hc, -, hp⟩ := partAt?_cons hp
    rw [cons_append, scopeTo_cons hc, scopeTo_cons hc, ih hp, append_assoc, singleton_append]

theorem scopeAt_snoc (hp : partAt? p .program t = some (part, u)) (hc : u.children[i]? = some c) :
    t.scopeAt (p ++ [i]) = scopeAhead p u i (t.scopeAt p) := by
  rw [scopeAt, scopeTo_append hp, scopeTo_cons hc]
  rfl

theorem mem_scopeAhead_of_mem (hk : t.kind ≠ .function) (hd : d ∈ D.flatten) :
    d ∈ (scopeAhead here t i D).flatten := by
  unfold scopeAhead
  split
  · next h => exact absurd h hk
  · exact mem_append_right _ hd
  · exact mem_append_right _ hd
  · cases D with
    | nil => cases hd
    | cons scope outer =>
      rw [modifyHead_cons, flatten_cons, append_assoc]
      exact mem_append_right _ hd
  · exact hd

end Scopes

end Tree

section Scopes

variable {N : String → Prop} {σ : Checker.State} {t u : Tree} {p here : List Nat}
  {part part' : Tree.Part} {x : String}
  {D : List (List Tree.Declaration)} {d : Tree.Declaration}

theorem TypedPart.mem_scopeTo_of_mem (h : TypedPart N σ part t) (hinner : part.IsInner)
    (hp : partAt? p part t = some (part', u)) (hd : d ∈ D.flatten) :
    d ∈ (scopeTo here p t D).flatten := by
  induction p generalizing here t part σ D with
  | nil => exact hd
  | cons i p ih =>
    obtain ⟨c, part₁, hc, hpart, hp⟩ := partAt?_cons hp
    obtain ⟨hprogram, hfunction⟩ := h.kind_ne hinner
    rw [scopeTo_cons hc]
    exact ih (h.step hc hpart) (part?_isInner hprogram hpart) hp
      (mem_scopeAhead_of_mem hfunction hd)

theorem Tree.exists_of_mem_declared {place : Nat → List Nat} {ty : Tree → Ty}
    {ts : List Tree} {i : Nat} (hd : d ∈ declared place ty (ts.take i).tail) :
    ∃ j u, j + 1 < i ∧ ts[j + 1]? = some u ∧ u.text = d.name := by
  obtain ⟨j, u, hu, rfl⟩ := mem_declared.mp hd
  rw [getElem?_tail] at hu
  have hlt := (List.getElem?_eq_some_iff.mp hu).1
  rw [length_take] at hlt
  exact ⟨j, u, by omega, (getElem?_of_take hu).1, rfl⟩

/-- **A name that is not declared ahead of a place** is none of those in scope there. -/
theorem TypedPart.name_ne (h : TypedPart N σ part t) (hD : ∀ d ∈ D.flatten, d.name ≠ x)
    (hp : partAt? p part t = some (part', u)) (hx : undeclaredAhead x p t) :
    ∀ d ∈ (scopeTo here p t D).flatten, d.name ≠ x := by
  induction p generalizing here t part σ D with
  | nil => exact hD
  | cons i p ih =>
    obtain ⟨c, part₁, hc, hpart, hp⟩ := partAt?_cons hp
    obtain ⟨hlacks, hrest⟩ := undeclaredAhead_cons.mp hx
    rw [scopeTo_cons hc]
    refine ih (h.step hc hpart) (fun d hd => ?_) hp (hrest c hc)
    rcases mem_scopeAhead hd with hd | ⟨hk, hd⟩ | ⟨hk, hd⟩ | ⟨hk, j, v, hj, hv, hpart', hd⟩
    · exact hD d hd
    · obtain ⟨j, v, hj, hv, hname⟩ := exists_of_mem_declared hd
      have hmem : v ∈ parametersOf (t.children.take i) := by
        obtain ⟨-, hall⟩ := (h.typedFunction hk).2.part_cases hc hpart
        rw [hall]
        refine mem_of_getElem? (i := j) ?_
        rw [getElem?_tail, List.getElem?_take_of_lt hj, hv]
      have hparam : v.kind = .parameter := beq_iff_eq.mp (mem_filter.mp hmem).2
      have hreach : reaches t.kind (j + 1) i := by simpa [reaches, hk] using hj
      exact hname ▸ text_ne_of_lacks (hlacks _ v hv hreach) (.inr hparam)
    · obtain ⟨j, v, hj, hv, hname⟩ := exists_of_mem_declared hd
      have htyped := h.step hv (by rw [hk]; rfl : part? t.kind (j + 1) v = some .declarator)
      have hreach : reaches t.kind (j + 1) i := by simpa [reaches, hk] using hj
      exact hname ▸ text_ne_of_lacks (hlacks _ v hv hreach) (htyped.kind_of_declares (.inl rfl))
    · have htyped := h.step hv hpart'
      have hreach : reaches t.kind j i := by
        rcases hk with hk | hk <;> simp [reaches, hk]
        · exact hj
        · omega
      have hlacks := hlacks j v hv hreach
      unfold declaredBy at hd
      split at hd
      · next hdecl =>
        obtain ⟨j', w, hw, rfl⟩ := mem_declared.mp hd
        rw [getElem?_tail] at hw
        have hw' := htyped.step hw (by rw [hdecl]; rfl : part? v.kind (j' + 1) w = some .declarator)
        exact text_ne_of_lacks (lacks_child hlacks hw) (hw'.kind_of_declares (.inl rfl))
      · cases hd

end Scopes

/-! ## Names of top-level variables -/

/-- Scopes whose variables have proper names. -/
def Scopes.Named (N : String → Prop) (Γ : Scopes) : Prop :=
  ∀ x ty isArray, Γ.lookup? x = some (.var ty isArray) → N x

section Named

variable {N : String → Prop} {Γ Γ' : Scopes} {x : String}

theorem Scopes.Named.declare {e : Entry} (h : Γ.Named N) (hx : N x)
    (hd : Γ.declare? x e = some Γ') : Γ'.Named N := by
  intro y ty isArray hy
  rw [Scopes.lookup?_declare? hd] at hy
  split at hy
  · next heq => exact heq ▸ hx
  · exact h y ty isArray hy

theorem DeclaresAll.named {ty : Ty} {ds : List Tree} (h : DeclaresAll N ty Γ ds Γ')
    (hΓ : Γ.Named N) : Γ'.Named N := by
  induction h with
  | nil => exact hΓ
  | cons _ _ _ _ _ hd _ ih =>
    refine ih ?_
    cases hd with
    | plain _ _ _ hx hd | initial _ _ _ _ _ hx _ _ hd | array _ _ _ _ hx _ hd =>
      exact hΓ.declare hx hd

theorem Typed.named {ret : Option Ty} {loop : Bool} (h : Typed N ret loop Γ t Γ') (hΓ : Γ.Named N) :
    Γ'.Named N := by
  cases h with
  | declaration _ _ _ _ _ _ _ hds => exact hds.named hΓ
  | _ => exact hΓ

theorem TypedTree.named (ht : TypedTree N t) (k : Nat) :
    (t.checkedAt [k]).scopes.Named N := by
  obtain ⟨Γ, hdeclares, -, hscopes⟩ := ht.exists_scopes
  refine hscopes (Scopes.Named N) (fun _ _ _ _ _ ht hΓ => ht.named hΓ) (fun x ty isArray hx => ?_) k
  obtain ⟨_, _, hentry⟩ := hdeclares.functionsOnly x _ hx
  cases hentry

end Named

/-! ## Visible variables -/

namespace Tree

/-- A variable of a function, or one from outside of it. -/
inductive Variable where
  | declared (d : Declaration)
  | outer (x : String)

variable (t : Tree) (p : List Nat)

def Variable.slot : Variable → String
  | declared d => t.slotAt d.place
  | outer x => x

/-- The variables that can be relied on ahead of a part: those in scope, and those from outside of
the function whose names were not declared yet. -/
def VisibleAhead : Variable → Prop
  | .declared d => d ∈ (t.scopeAt p).flatten
  | .outer x => IsName x ∧ undeclaredAhead x p t

/-- What a part declares for what comes behind it. -/
def declaredAt : List Declaration :=
  match partAt? p .program t with
  | some (.declarator, _) => (t.declarationAt? p).toList
  | some (.statement, u) => declaredBy p u
  | _ => []

/-- The variables that can be relied on behind a part. -/
def VisibleBehind : Variable → Prop
  | .declared d => d ∈ t.declaredAt p ∨ d ∈ (t.scopeAt p).flatten
  | .outer x =>
    IsName x ∧ undeclaredAhead x p t ∧ ∀ part u, partAt? p .program t = some (part, u) → u.lacks x

/-- The variable that a name stands for at a place. -/
def variableOf (x : String) : Variable := ((resolve? (t.scopeAt p) x).map .declared).getD (.outer x)

variable {t p} {u c : Tree} {part part' : Part} {v v' : Variable} {x : String}
  {d : Declaration} {i : Nat}

theorem mem_of_resolve? {D : List (List Declaration)} (h : resolve? D x = some d) :
    d ∈ D.flatten ∧ d.name = x := by
  obtain ⟨scope, hscope, hfind⟩ := exists_of_findSome?_eq_some h
  exact ⟨mem_flatten.mpr ⟨scope, hscope, mem_of_find?_eq_some hfind⟩,
    (beq_iff_eq.mp (find?_some (p := fun d : Declaration => x == d.name) hfind)).symm⟩

theorem VisibleBehind.ahead (h : t.VisibleBehind p v) (hp : t.declaredAt p = []) :
    t.VisibleAhead p v := by
  cases v with
  | declared d =>
    rcases h with h | h
    · rw [hp] at h
      cases h
    · exact h
  | outer x => exact ⟨h.1, h.2.1⟩

end Tree

section Slots

variable {t u c e : Tree} {k : Nat} {p : List Nat} {part : Tree.Part} {v v' : Tree.Variable}
  {x : String}
  (ht : TypedTree IsName t)

include ht

theorem TypedTree.name_ne (hp : partAt? p .program t = some (part, u))
    (hx : undeclaredAhead x p t) :
    ∀ d ∈ (t.scopeAt p).flatten, d.name ≠ x :=
  ht.typedPart.name_ne (forall_mem_nil _) hp hx

omit ht

variable (hf : FunctionIn IsName t k c)

include hf

theorem FunctionIn.isName (hx : t.variableAt? (k :: p) = some x) : IsName x := by
  obtain ⟨e, hp, hident, rfl⟩ := variableAt?_eq_some hx
  have ha := hf.aligned hp ⟨nofun, nofun⟩
  cases hf.reach hp with
  | expression _ _ _ ty _ hty =>
    obtain ⟨⟨isArray, hlookup⟩, -⟩ :=
      hty.code_variable hident (hf.exists_code hp).1 (t.loweredAt (k :: p))
    have hfound := (ha.lookup?_eq e.text).symm.trans hlookup
    cases hd : resolve? (t.scopeAt (k :: p)) e.text with
    | none =>
      rw [hd] at hfound
      exact hf.named k _ _ _ hfound
    | some d =>
      obtain ⟨hmem, hname⟩ := mem_of_resolve? hd
      exact hname ▸ (ha.owned d (ha.subset hmem)).1

variable (hp : partAt? (k :: p) .program t = some (part, u)) (hpart : part.IsInner)

include hp hpart

theorem FunctionIn.slotAt_ne (hx : IsName x) (hundeclared : undeclaredAhead x (k :: p) t) :
    ∀ d ∈ (t.scopeAt (k :: p)).flatten, t.slotAt d.place ≠ x := by
  intro d hd heq
  have ha := hf.aligned hp hpart
  obtain ⟨-, hslot | ⟨n, -, hslot⟩⟩ := ha.owned d (ha.subset hd)
  · exact hf.name_ne hp hundeclared d hd (hslot.symm.trans heq)
  · exact Slot.plain_ne_numbered hx (heq.symm.trans hslot)

/-- **No two visible variables have the same slot.** -/
theorem FunctionIn.slot_injOn (hv : t.VisibleAhead (k :: p) v) (hv' : t.VisibleAhead (k :: p) v')
    (h : v.slot t = v'.slot t) : v = v' := by
  cases v with
  | declared d =>
    cases v' with
    | declared d' =>
      have hnodup := (hf.aligned hp hpart).slots_nodup
      exact congrArg Tree.Variable.declared (inj_on_of_nodup_map hnodup hv hv' h)
    | outer x => exact absurd h (hf.slotAt_ne hp hpart hv'.1 hv'.2 d hv)
  | outer x =>
    cases v' with
    | declared d' => exact absurd h.symm (hf.slotAt_ne hp hpart hv.1 hv.2 d' hv')
    | outer y => exact congrArg Tree.Variable.outer h

theorem FunctionIn.slotOf_eq (x : String) :
    (t.loweredAt (k :: p)).slotOf x = (t.variableOf (k :: p) x).slot t := by
  have ha := hf.aligned hp hpart
  rw [Emit.State.slotOf, ha.slot?_eq, variableOf]
  cases resolve? (t.scopeAt (k :: p)) x <;> rfl

/-- **The slot of a name is the slot of no other visible variable.** -/
theorem FunctionIn.eq_variableOf (hx : IsName x) (hv : t.VisibleAhead (k :: p) v)
    (h : v.slot t = (t.loweredAt (k :: p)).slotOf x) : v = t.variableOf (k :: p) x := by
  rw [hf.slotOf_eq hp hpart] at h
  cases hd : resolve? (t.scopeAt (k :: p)) x with
  | some d =>
    have hvar : t.variableOf (k :: p) x = .declared d := by rw [variableOf, hd]; rfl
    rw [hvar] at h ⊢
    exact hf.slot_injOn hp hpart hv (mem_of_resolve? hd).1 h
  | none =>
    have hvar : t.variableOf (k :: p) x = .outer x := by rw [variableOf, hd]; rfl
    rw [hvar] at h ⊢
    cases v with
    | declared d =>
      -- a variable of the function with this slot would have the name
      have ha := hf.aligned hp hpart
      obtain ⟨-, hslot | ⟨n, -, hslot⟩⟩ := ha.owned d (ha.subset hv)
      · exact absurd (hslot.symm.trans h) (ne_of_findSome?_eq_none hd d hv)
      · exact absurd (h.symm.trans hslot) (Slot.plain_ne_numbered hx)
    | outer y => exact congrArg Tree.Variable.outer h

end Slots

section NewSlot

open Emit

variable {t u c : Tree} {k : Nat} {p : List Nat} {v : Tree.Variable} (ht : FunctionIn IsName t k c)
  (hp : partAt? (k :: p) .program t = some (.declarator, u))

include ht hp

/-- **Behind a declared name**, it is visible, and all other variables were visible ahead of it.
They have other slots. -/
theorem FunctionIn.visibleBehind_declarator (ty : Ty) (hv : t.VisibleBehind (k :: p) v) :
    (∃ d, v = .declared d ∧ t.declarationAt? (k :: p) = some d) ∨
      t.VisibleAhead (k :: p) v ∧
        v.slot t ≠ (after (initialValue ty u) (t.loweredAt (k :: p))).newSlot u.text := by
  have ha := (ht.aligned hp ⟨nofun, nofun⟩).after (initialValue ty u)
  have htyped := ht.reach hp
  have hname := htyped.isName_declarator
  cases v with
  | declared d =>
    rcases hv with hd | hd
    · rw [declaredAt, hp] at hd
      exact .inl ⟨d, rfl, by simpa using hd⟩
    · exact .inr ⟨hd, ha.slot_ne_newSlot hname hd⟩
  | outer x =>
    obtain ⟨hx, hundeclared, hlacks⟩ := hv
    refine .inr ⟨⟨hx, hundeclared⟩, fun heq => ?_⟩
    rw [Tree.Variable.slot, State.newSlot] at heq
    split at heq
    · exact Slot.plain_ne_numbered hx heq
    · exact text_ne_of_lacks (hlacks _ u hp) (htyped.kind_of_declares (.inl rfl)) heq.symm

end NewSlot

end Stacklet
