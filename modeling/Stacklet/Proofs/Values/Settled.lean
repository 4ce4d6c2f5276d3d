import Stacklet.Proofs.Values.Activation
/-!
# Variables and hidden slots around expressions

* `Tree.mem_heldAt`: what waits in hidden slots waits in those that are in use.
* `TypedTree.lookup?_base`: the items of a name are assigned to only if it stands for an array.
* `Tree.Formed`, `Tree.FormedBehind`: the variables that are visible at a place have their forms.
* `Tree.Settled`: so it is, and the values in the hidden slots that are in use there have their
  forms too. `FunctionIn.settled_alter`, `FunctionIn.settled_hold`: it stays so when a variable or a
  hidden slot is set.
-/

namespace Stacklet

open Emit List
open Stacklet.Tree hiding lower

/-! ## Hidden slots -/

namespace Emit

theorem heldTo_blank (p : List Nat) (r : Role) (t : Tree) (s : State) (held : List String) :
    heldTo p r t s.blank held = heldTo p r t s held := by
  cases p with
  | nil => rfl
  | cons i p =>
    rw [heldTo, heldTo, heldAhead, heldAhead]
    simp

theorem heldTo_append {p : List Nat} {part part' : Tree.Part} {t u : Tree}
    (hp : partAt? p part t = some (part', u)) (q : List Nat) (r : Role) (s : State)
    (held : List String) :
    heldTo (p ++ q) r t s held = heldTo q (reach p r t s).1 u (after (reach p r t) s)
      (heldTo p r t s held) := by
  induction p generalizing part t r s held with
  | nil =>
    cases hp
    exact (heldTo_blank q r u s held).symm
  | cons i p ih =>
    obtain ⟨c, part₁, hc, -, hp⟩ := partAt?_cons hp
    rw [cons_append, heldTo_cons hc, heldTo_cons hc, ih hp, reach_cons hc, after_bind, result_bind]

theorem heldAhead_append (r : Role) (t : Tree) (i : Nat) (s : State) (held : List String) :
    heldAhead r t i s held = heldAhead r t i s [] ++ held := by
  unfold heldAhead
  split
  · split <;> rfl
  · rfl

end Emit

namespace Tree

variable {t u c : Tree} {p : List Nat} {part : Part} {i : Nat}

theorem heldAt_snoc (hp : partAt? p .program t = some (part, u)) (hc : u.children[i]? = some c) :
    t.heldAt (p ++ [i]) = heldAhead (t.roleAt p) u i (t.loweredAt p) [] ++ t.heldAt p := by
  rw [heldAt, heldTo_append hp, heldTo_cons hc, ← heldAhead_append]
  rfl

theorem mem_heldAt {S : Shaping} {r : Part × Tree} {e : String × Form}
    (hp : partAt? p .program t = some r) (he : e ∈ (t.waitingAt S p).2) : e.1 ∈ t.heldAt p := by
  induction p using reverseRecOn generalizing r with
  | nil =>
    simp [waitingAt, waiting] at he
  | append_singleton q i ih =>
    rw [partAt?_append, Option.bind_eq_some_iff] at hp
    obtain ⟨⟨part, u⟩, hq, hi⟩ := hp
    obtain ⟨c, -, hc, -, -⟩ := partAt?_cons hi
    have hself (hr : (t.roleAt q).isExpression) : t.waiting S q.reverse = t.waitingAt S q :=
      (if_pos hr).symm
    rw [waitingAt, reverse_append, reverse_singleton, singleton_append, waiting,
      reverse_reverse] at he
    rw [heldAt_snoc hq hc, mem_append]
    split at he
    · split at he
      · next d e' hr he' =>
        cases hq.symm.trans (expressionAt?_eq_some he')
        rw [mem_append, hself (by rw [hr]; rfl)] at he
        refine he.imp (fun he => ?_) (ih hq)
        obtain ⟨x, hx, rfl⟩ := mem_map.mp he
        rwa [hr]
      · next d e' hr _ =>
        rw [hself (by rw [hr]; rfl)] at he
        exact .inr (ih hq he)
      · cases he
    · cases he

end Tree

/-! ## What is assigned to -/

/-- Whether a role is one of what is assigned to. -/
def Role.isAssigned : Role → Bool
  | .target _ | .base => true
  | _ => false

namespace Emit

theorem not_isAssigned_bind {α : Type} {x : Emit α} {f : α → Emit Role}
    (h : ∀ a s, (f a s).1.isAssigned = false) (s : State) : ((x >>= f) s).1.isAssigned = false :=
  h (x s).1 (x s).2

theorem not_isAssigned_statement (t : Tree) (i : Nat) (s : State) :
    (ahead .statement t i s).1.isAssigned = false := by
  obtain ⟨kind, text, isArray, loc, children⟩ := t
  cases kind with
  | function =>
    simp only [ahead]
    cases children[i]? with
    | none => rfl
    | some c =>
      dsimp only
      split <;> exact not_isAssigned_bind (fun _ _ => rfl) s
  | block | declaration => exact not_isAssigned_bind (fun _ _ => rfl) s
  | conditional =>
    rcases children with _ | ⟨c, _ | ⟨body, rest⟩⟩
    · rfl
    · rfl
    · rcases i with _ | _ | i <;> exact not_isAssigned_bind (fun _ _ => rfl) s
  | elseIf | whileLoop | doWhile =>
    cases children with
    | nil => rfl
    | cons c rest => cases i <;> exact not_isAssigned_bind (fun _ _ => rfl) s
  | forLoop =>
    rcases children with _ | ⟨first, _ | ⟨c, _ | ⟨step, _ | ⟨body, rest⟩⟩⟩⟩
    · rfl
    · rfl
    · rfl
    · rfl
    · rcases i with _ | _ | _ | i <;> exact not_isAssigned_bind (fun _ _ => rfl) s
  | _ => rfl

theorem isAssigned_ahead {r : Role} {t : Tree} {i : Nat} {s : State}
    (h : (ahead r t i s).1.isAssigned) :
    i = 0 ∧ ((∃ d, r = .target d) ∨ (∃ d, r = .value d) ∧ t.kind = .assign) := by
  obtain ⟨kind, text, isArray, loc, children⟩ := t
  have plain (hfalse : (ahead r ⟨kind, text, isArray, loc, children⟩ i s).1.isAssigned = false) :
      False := by
    rw [hfalse] at h
    cases h
  cases r with
  | program => exact (plain (not_isAssigned_bind (fun _ _ => rfl) s)).elim
  | declarator ty => exact (plain rfl).elim
  | value d =>
    cases kind with
    | assign =>
      match children, i with
      | _ :: _ :: _, 0 => exact ⟨rfl, .inr ⟨⟨d, rfl⟩, rfl⟩⟩
      | _ :: _ :: _, i + 1 | [], _ | [_], _ =>
        exact (plain (not_isAssigned_bind (fun _ _ => rfl) s)).elim
    | unary => cases h
    | _ => exact (plain (not_isAssigned_bind (fun _ _ => rfl) s)).elim
  | target d =>
    match children, i with
    | [_, e], 0 => exact ⟨rfl, .inl ⟨d, rfl⟩⟩
    | [_, e], i + 1 | [], _ | [_], _ | _ :: _ :: _ :: _, _ => exact (plain rfl).elim
  | item | statement | parameter | branch | base =>
    exact (plain (not_isAssigned_statement ⟨kind, text, isArray, loc, children⟩ i s)).elim

end Emit

section Assigned

variable {t e : Tree} {k : Nat} {p : List Nat} {x : String} {loc : Loc} (ht : TypedTree IsName t)

include ht

theorem TypedTree.exists_assigned (hp : partAt? (k :: p) .program t = some (.expression, e))
    (hr : (t.roleAt (k :: p)).isAssigned) : ∃ q v, p = q ++ [0] ∧
      partAt? (k :: q) .program t = some (.expression, v) ∧ v.children[0]? = some e ∧
      ((∃ d, t.roleAt (k :: q) = .target d ∧ t.roleAt (k :: p) = .base) ∨
        (∃ d, t.roleAt (k :: q) = .value d ∧ t.roleAt (k :: p) = .target d) ∧
        v.kind = .assign) := by
  obtain ⟨q, i, part, v, heq, hq, hchild, hpart⟩ := exists_parent hp Tree.Part.noConfusion
  rw [heq, roleAt_snoc hq hchild] at hr
  obtain ⟨rfl, hrole⟩ := isAssigned_ahead hr
  have hsuits := (ht.exists_code hq).1
  have hexpr : part = .expression := by
    rcases hrole with ⟨d, hrole⟩ | ⟨⟨d, hrole⟩, -⟩ <;> rw [hrole] at hsuits <;> cases hsuits <;> rfl
  subst hexpr
  match q with
  | [] => cases hq
  | k' :: q =>
    rw [cons_append, cons.injEq] at heq
    obtain ⟨rfl, rfl⟩ := heq
    refine ⟨q, v, rfl, hq, hchild, ?_⟩
    have hsnoc := roleAt_snoc hq hchild
    rw [cons_append] at hsnoc
    rw [hsnoc]
    cases ht.reach hq with | expression _ _ _ ty _ hv =>
    rcases hrole with ⟨d, hrole⟩ | ⟨⟨d, hrole⟩, hkind⟩
    · rw [hrole] at hsuits ⊢
      generalize t.loweredAt (k :: q) = s
      cases hsuits with
      | name => cases hchild
      | entry _ y loc loc' j => exact .inl ⟨d, rfl, (ahead_base loc d s y loc' j).role_eq⟩
    · rw [hrole]
      generalize t.loweredAt (k :: q) = s
      refine .inr ⟨⟨d, rfl, ?_⟩, hkind⟩
      cases hv with
      | assign loc loc' y value => exact (ahead_target_name loc d s y loc' value).role_eq
      | assignItem loc loc' loc'' y j value =>
        by_cases hd : d = .effect
        · subst hd
          exact (ahead_target_effect loc s y loc' loc'' j value).role_eq
        · exact (ahead_target_entry loc d s hd y loc' loc'' j value).role_eq
      | _ => cases hkind

/-- **The items of a name are assigned to only if it stands for an array.** -/
theorem TypedTree.lookup?_base
    (hp : partAt? (k :: p) .program t = some (.expression, .nameAt x loc))
    (hr : t.roleAt (k :: p) = .base) :
    ∃ ty, (t.checkedAt (k :: p)).scopes.lookup? x = some (.var ty true) := by
  obtain ⟨q, v, rfl, hq, hv, ⟨d, hrole, -⟩ | ⟨⟨d, -, htarget⟩, -⟩⟩ :=
    ht.exists_assigned hp (by rw [hr]; rfl)
  · obtain ⟨q', w, rfl, hq', hw, ⟨d', -, hbase⟩ | ⟨-, hkind⟩⟩ :=
      ht.exists_assigned hq (by rw [hrole]; rfl)
    · rw [hrole] at hbase
      cases hbase
    · have hchecked : t.checkedAt (k :: (q' ++ [0] ++ [0])) = t.checkedAt (k :: q') :=
        (ht.checkedAt_child hq hv (partAt?_snoc_inv hq hp).2).trans
          (ht.checkedAt_child hq' hw (partAt?_snoc_inv hq' hq).2)
      rw [hchecked]
      cases ht.reach hq' with | expression _ _ _ ty _ hw' =>
      cases hw' with
      | assignItem _ _ loc'' y j value _ _ hy =>
        cases hw
        cases hv
        exact ⟨ty, hy⟩
      | assign =>
        cases hw
        cases hv
      | _ => cases hkind
  · rw [hr] at htarget
    cases htarget

end Assigned

/-! ## Variables with their forms -/

section Settled

variable (S : Shaping) (t : Tree) (p : List Nat)

/-- A variable has its form, seen from the function with the number `k`. -/
def Tree.Variable.IsFormed (k : Nat) (v : Tree.Variable) (ls : Locals) : Prop :=
  (v.form S t k).Has (ls.load (v.slot t))

/-- The values in the hidden slots that are in use at a place have their forms. -/
def Tree.Holds (ls : Locals) : Prop := ∀ e ∈ (t.waitingAt S p).2, e.2.Has (ls.load e.1)

/-- The variables that are visible ahead of a place have their forms. -/
def Tree.Formed (ls : Locals) : Prop := ∀ v, t.VisibleAhead p v → v.IsFormed S t (p.headD 0) ls

/-- The variables that are visible behind a place have their forms. -/
def Tree.FormedBehind (ls : Locals) : Prop :=
  ∀ v, t.VisibleBehind p v → v.IsFormed S t (p.headD 0) ls

/-- The variables that are visible ahead of a place have their forms, and so have the values in
hidden slots. -/
def Tree.Settled (ls : Locals) : Prop := t.Formed S p ls ∧ t.Holds S p ls

end Settled

section Stores

variable {S : Shaping} {t c : Tree} {k : Nat} {p : List Nat} {part : Tree.Part} {u : Tree}
  {x : String} {loc : Loc}
  (ht : FunctionIn IsName t k c)

include ht

/-- What a name stands for can be relied on, if it is not from outside, or nothing ahead of it
declares it. -/
theorem FunctionIn.visible_variableOf (hsep : t.separatesNames)
    (hx : t.variableAt? (k :: p) = some x) :
    t.VisibleAhead (k :: p) (t.variableOf (k :: p) x) := by
  obtain ⟨e, hp, -, -⟩ := variableAt?_eq_some hx
  have hat := apply_of_everywhere hsep ht hp
  rw [separatesNamesAt, hx] at hat
  have hname := ht.isName hx
  dsimp only at hat
  cases hd : resolve? (t.scopeAt (k :: p)) x with
  | some d =>
    rw [variableOf, hd]
    exact (mem_of_resolve? hd).1
  | none =>
    have houter : t.variableOf (k :: p) x = .outer x := by rw [variableOf, hd]; rfl
    rw [houter] at hat ⊢
    exact ⟨hname, hat⟩

variable (hp : partAt? (k :: p) .program t = some (part, u)) (hpart : part.IsInner)

include hp hpart

theorem FunctionIn.nameForm_eq {ty : Ty} {isArray : Bool}
    (hx : (t.checkedAt (k :: p)).scopes.lookup? x = some (.var ty isArray)) :
    t.nameForm S (k :: p) x = ⟨ty, S.own isArray⟩ ∨
      t.nameForm S (k :: p) x = ⟨ty, S.outer isArray⟩ := by
  have hlookup := ((ht.aligned hp hpart).lookup?_eq x).symm.trans hx
  rw [nameForm, variableOf]
  cases hd : resolve? (t.scopeAt (k :: p)) x with
  | some d =>
    rw [hd] at hlookup
    cases hlookup
    exact .inl rfl
  | none =>
    rw [hd] at hlookup
    have hlookup : (t.checkedAt [k]).scopes.lookup? x = some (.var ty isArray) := hlookup
    exact .inr (by simp [Tree.Variable.form, hlookup])

theorem FunctionIn.slot_ne_held {v : Tree.Variable} {y : String} (hv : t.VisibleAhead (k :: p) v)
    (hy : y ∈ t.heldAt (k :: p)) : v.slot t ≠ y := by
  have ha := ht.aligned hp hpart
  obtain ⟨n, -, rfl⟩ := ha.hidden y hy
  cases v with
  | declared d => exact (ha.owned d (ha.subset hv)).ne_hidden n
  | outer x => exact Slot.plain_ne_hidden hv.1

/-- **Variables and hidden slots keep their forms** when the variable that a name stands for gets a
value of its form. -/
theorem FunctionIn.settled_alter {ls : Locals} {f : Option Value → Value} (hx : IsName x)
    (hvisible : t.VisibleAhead (k :: p) (t.variableOf (k :: p) x)) (h : t.Settled S (k :: p) ls)
    (hf : (t.nameForm S (k :: p) x).Has (f (ls.lookup ((t.loweredAt (k :: p)).slotOf x)))) :
    t.Settled S (k :: p) (ls.alter ((t.loweredAt (k :: p)).slotOf x) f) := by
  refine ⟨fun v hv => ?_, fun e he => ?_⟩
  · rw [Tree.Variable.IsFormed]
    by_cases hslot : v.slot t = (t.loweredAt (k :: p)).slotOf x
    · obtain rfl := ht.eq_variableOf hp hpart hx hv hslot
      rw [hslot, Locals.load_alter_self]
      exact hf
    · rw [Locals.load_alter_ne _ _ hslot]
      exact h.1 v hv
  · have hslot := ht.slot_ne_held hp hpart hvisible (mem_heldAt hp he)
    rw [← ht.slotOf_eq hp hpart] at hslot
    rw [Locals.load_alter_ne _ _ hslot.symm]
    exact h.2 e he

/-- **Variables and hidden slots keep their forms** when a new hidden slot is set. -/
theorem FunctionIn.settled_hold {ls : Locals} {α : Type} (y : Emit α) [Plain y] (v : Value)
    (h : t.Settled S (k :: p) ls) :
    t.Settled S (k :: p) (ls.store (hiddenSlot (after y (t.loweredAt (k :: p)))).1 v) := by
  have ha := (ht.aligned hp hpart).after y
  refine ⟨fun w hw => ?_, fun e he => ?_⟩
  · have hslot : w.slot t ≠ (hiddenSlot (after y (t.loweredAt (k :: p)))).1 := by
      cases w with
      | declared d => exact (ha.owned d (ha.subset hw)).ne_hidden _
      | outer x => exact Slot.plain_ne_hidden hw.1
    rw [Tree.Variable.IsFormed, Locals.store, Locals.load_alter_ne _ _ hslot]
    exact h.1 w hw
  · have hslot : e.1 ≠ (hiddenSlot (after y (t.loweredAt (k :: p)))).1 := by
      intro heq
      exact (nodup_cons.mp ha.hold.held_nodup).1 (heq ▸ mem_heldAt hp he)
    rw [Locals.store, Locals.load_alter_ne _ _ hslot]
    exact h.2 e he

end Stores

end Stacklet
