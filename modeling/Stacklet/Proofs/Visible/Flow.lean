import Stacklet.Proofs.Emission.Order
import Stacklet.Proofs.Logic.Statement
import Stacklet.Proofs.Visible
/-!
# Visible variables along control

* `Outline.visible`: something holds of all variables that are visible at a place.
* `TypedTree.flows_visible`: wherever control goes between the parts of a statement, the variables
  that are visible there were visible before.
-/

namespace Stacklet

open Stacklet.Tree List

variable {loc : Loc} {i : Nat} {body cond : Tree}

variable {X : Type}

/-- Something holds of all variables that are visible ahead of a part, or behind it. The number of
the function stands first in every place. -/
def Outline.visible (t : Tree) (V : Nat → Tree.Variable → X → Prop) : Outline X where
  ahead p x := ∀ v, t.VisibleAhead p v → V (p.headD 0) v x
  behind p x := ∀ v, t.VisibleBehind p v → V (p.headD 0) v x

namespace Tree

variable {t u c : Tree} {here p : List Nat} {part part' : Part} {v : Variable} {i j : Nat}

theorem declaredAt_of_kind (hp : partAt? here .program t = some (part, u))
    (hpart : part ≠ .declarator) (hk : u.kind ≠ .declaration) : t.declaredAt here = [] := by
  rw [declaredAt, hp]
  cases part with
  | declarator => exact absurd rfl hpart
  | statement => exact if_neg hk
  | _ => rfl

theorem partAt?_snoc_inv (hp : partAt? here .program t = some (part, u))
    (h : partAt? (here ++ [j]) .program t = some (part', c)) :
    u.children[j]? = some c ∧ part? u.kind j c = some part' := by
  rw [partAt?_append, hp] at h
  have h : partAt? [j] part u = some (part', c) := h
  obtain ⟨c', part₁, hc, hpart, h⟩ := partAt?_cons h
  cases h
  exact ⟨hc, hpart⟩

section Siblings

variable (hp : partAt? here .program t = some (part, u))

include hp

theorem VisibleAhead.of_child (hv : t.VisibleAhead (here ++ [i]) v) (hc : u.children[i]? = some c)
    (hscope : ∀ D, (scopeAhead here u i D).flatten = D.flatten) : t.VisibleAhead here v := by
  cases v with
  | declared d =>
    have hmem : d ∈ (t.scopeAt (here ++ [i])).flatten := hv
    rwa [scopeAt_snoc hp hc, hscope] at hmem
  | outer x => exact ⟨hv.1, ((undeclaredAhead_snoc hp).mp hv.2).1⟩

theorem undeclaredAhead_sibling {x : String} (hx : t.undeclaredAhead x (here ++ [i]))
    (hreach : ∀ n, n < u.children.length → reaches u.kind n j → reaches u.kind n i) :
    t.undeclaredAhead x (here ++ [j]) := by
  obtain ⟨hundeclared, hlacks⟩ := (undeclaredAhead_snoc hp).mp hx
  refine (undeclaredAhead_snoc hp).mpr ⟨hundeclared, fun n c hc hn => ?_⟩
  exact hlacks n c hc (hreach n (List.getElem?_eq_some_iff.mp hc).1 hn)

theorem VisibleAhead.ahead_sibling (hv : t.VisibleAhead (here ++ [i]) v)
    (hscope : ∀ d ∈ (t.scopeAt (here ++ [i])).flatten, d ∈ (t.scopeAt (here ++ [j])).flatten)
    (hreach : ∀ n, n < u.children.length → reaches u.kind n j → reaches u.kind n i) :
    t.VisibleAhead (here ++ [j]) v := by
  cases v with
  | declared d => exact hscope d hv
  | outer x => exact ⟨hv.1, undeclaredAhead_sibling hp hv.2 hreach⟩

theorem VisibleAhead.behind_sibling (hv : t.VisibleAhead (here ++ [i]) v)
    (hscope : ∀ d ∈ (t.scopeAt (here ++ [i])).flatten,
      d ∈ t.declaredAt (here ++ [j]) ∨ d ∈ (t.scopeAt (here ++ [j])).flatten)
    (hreach : ∀ n, n < u.children.length → reaches u.kind n j → reaches u.kind n i)
    (hlacks : ∀ x c, u.children[j]? = some c → reaches u.kind j i ∨ c.lacks x) :
    t.VisibleBehind (here ++ [j]) v := by
  cases v with
  | declared d => exact hscope d hv
  | outer x =>
    refine ⟨hv.1, undeclaredAhead_sibling hp hv.2 hreach, fun part' c hc => ?_⟩
    have hc := (partAt?_snoc_inv hp hc).1
    exact (hlacks x c hc).elim (((undeclaredAhead_snoc hp).mp hv.2).2 j c hc) id

theorem VisibleAhead.enter (hv : t.VisibleAhead here v) (hk : u.kind ≠ .function)
    (hc : u.children[i]? = some c) (hreach : ∀ n, reaches u.kind n i = false) :
    t.VisibleAhead (here ++ [i]) v := by
  cases v with
  | declared d =>
    rw [VisibleAhead, scopeAt_snoc hp hc]
    exact mem_scopeAhead_of_mem hk hv
  | outer x =>
    refine ⟨hv.1, (undeclaredAhead_snoc hp).mpr ⟨hv.2, fun n c _ hn => ?_⟩⟩
    rw [hreach n] at hn
    cases hn

end Siblings

theorem VisibleAhead.behind_expression (ht : TypedTree IsName t)
    (hp : partAt? here .program t = some (.expression, u)) (hv : t.VisibleAhead here v) :
    t.VisibleBehind here v := by
  cases v with
  | declared d => exact .inr hv
  | outer x =>
    refine ⟨hv.1, hv.2, fun part u' hu' => ?_⟩
    cases hp.symm.trans hu'
    cases ht.reach hp with
    | expression _ _ _ _ _ hty => exact hty.lacks

end Tree

section Inclusions

variable {t u c : Tree} {k i j : Nat} {here p : List Nat} {part part' : Tree.Part}
  {v : Tree.Variable}
  (ht : TypedTree IsName t)
  (hp : partAt? here .program t = some (part, u)) (hpart : part.IsInner)

include ht hp hpart

/-- What is visible behind a part is visible ahead of all places in it, unless the part declares
it. -/
theorem TypedTree.visibleAhead_of_behind (hd : t.declaredAt here = [])
    (hq : partAt? p part u = some (part', c)) (hv : t.VisibleBehind here v) :
    t.VisibleAhead (here ++ p) v := by
  cases v with
  | declared d =>
    have hmem : d ∈ (t.scopeAt here).flatten := hv.ahead hd
    rw [Tree.VisibleAhead, scopeAt, scopeTo_append hp]
    exact (ht.reach hp).mem_scopeTo_of_mem hpart hq hmem
  | outer x =>
    obtain ⟨hx, hundeclared, hlacks⟩ := hv
    refine ⟨hx, (undeclaredAhead_append hp).mpr ⟨hundeclared, ?_⟩⟩
    exact undeclaredAhead_of_lacks fun j c hc => lacks_child (hlacks _ u hp) hc

theorem TypedTree.visibleBehind_child (hd : t.declaredAt here = []) (hc : u.children[j]? = some c)
    (hj : part? u.kind j c = some part') (hv : t.VisibleBehind here v) :
    t.VisibleBehind (here ++ [j]) v := by
  have hahead := ht.visibleAhead_of_behind hp hpart hd (p := [j])
    (Outline.partAt?_child hc hj []) hv
  cases v with
  | declared d => exact .inr hahead
  | outer x =>
    refine ⟨hahead.1, hahead.2, fun part'' c' hc' => ?_⟩
    exact lacks_child (hv.2.2 _ u hp) (partAt?_snoc_inv hp hc').1

end Inclusions

/-! ## Statements -/

section Flows

variable {t u c : Tree} {k : Nat} {p : List Nat} {part : Tree.Part}
  {V : Nat → Tree.Variable → X → Prop}
  {T : Tracking X} {N : String → Prop} {ret : Option Ty} {loop : Bool} {Γ Γ' : Scopes}

theorem TypedBranches.length_eq {ts : List Tree} {j : Nat} (h : TypedBranches N ret loop Γ ts)
    (hc : ts[j]? = some c) (hk : c.kind ≠ .elseIf) : ts.length = j + 1 := by
  induction ts generalizing j with
  | nil => cases hc
  | cons t ts ih =>
    cases h with
    | last => cases j with
      | zero => rfl
      | succ => cases hc
    | elseIf _ _ _ _ _ _ _ _ hts =>
      cases j with
      | zero =>
        cases hc
        exact absurd rfl hk
      | succ j => exact congrArg Nat.succ (ih hts hc)

theorem TypedPart.kind_ne_continueStmt {σ : Checker.State} {q : List Nat} {part' : Tree.Part}
    {w : Tree} (h : TypedPart N σ part u)
    (hpart : u.kind = .declaration ∨ part = .declarator ∨ part = .expression)
    (hq : partAt? q part u = some (part', w)) : w.kind ≠ .continueStmt := by
  induction q generalizing part u σ with
  | nil =>
    cases hq
    rcases hpart with hk | rfl | rfl
    · rw [hk]
      exact nofun
    · cases h with
      | declarator _ _ _ _ _ _ _ hd => cases hd <;> exact nofun
    · cases h with
      | expression _ _ _ _ _ he => cases he <;> exact nofun
  | cons i q ih =>
    obtain ⟨c, part₁, hc, hpart₁, hq⟩ := partAt?_cons hq
    refine ih (h.step hc hpart₁) (.inr ?_) hq
    rcases hpart with hk | hplain
    · rw [hk] at hpart₁
      match i with
      | 0 => cases hpart₁
      | _ + 1 => exact .inl (Option.some.inj hpart₁).symm
    · exact .inr (h.part_eq_expression hplain hpart₁)

section Statements

variable (ht : TypedTree IsName t)
  (hp : partAt? (k :: p) .program t = some (part, u)) (hinner : part.IsInner)

include hp

theorem Tree.mem_scopeAt_block {d : Tree.Declaration} (hu : u.kind = .block)
    (hc : u.children[i]? = some c) :
    d ∈ (t.scopeAt ((k :: p) ++ [i])).flatten ↔
      (∃ j v, (u.children.take i)[j]? = some v ∧ d ∈ declaredBy ((k :: p) ++ [j]) v) ∨
        d ∈ (t.scopeAt (k :: p)).flatten := by
  rw [scopeAt_snoc hp hc, scopeAhead, hu, flatten_cons, mem_append, mem_declaredByAll]

/-- Control goes from a node to a child before which it declares nothing, or past the node. -/
theorem Outline.next_visible {x : X} (hd : t.declaredAt (k :: p) = [])
    (hscope : ∀ D, (scopeAhead (k :: p) u i D).flatten = D.flatten)
    (hx : (Outline.visible t V).ahead (k :: p) x) :
    (Outline.visible t V).next (k :: p) u i x := by
  unfold Outline.next
  split
  · next hlen => exact fun v hv => hx v (hv.of_child hp (getElem?_eq_getElem hlen) hscope)
  · exact fun v hv => hx v (hv.ahead hd)

include ht

/-- Behind a test, the same variables are visible as ahead of its node, if control comes to it from
there only. -/
theorem TypedTree.visible_of_test {v : Tree.Variable} {e : Tree} (he : u.children[i]? = some e)
    (hpart : part? u.kind i e = some .expression) (hu : u.kind ≠ .function)
    (hreach : ∀ n, reaches u.kind n i = false) (hv : t.VisibleAhead (k :: p) v) :
    t.VisibleBehind ((k :: p) ++ [i]) v :=
  (hv.enter hp hu he hreach).behind_expression ht (partAt?_snoc hp he hpart)

include hinner

theorem TypedTree.flows_visible_block (hu : u.kind = .block) (hpart : part ≠ .declarator) :
    (Outline.visible t V).Flows T (k :: p) u := by
  have hd := declaredAt_of_kind hp hpart (hu ▸ nofun)
  have hpart? (j : Nat) (c : Tree) : part? u.kind j c = some .statement := by rw [hu]; rfl
  rw [Outline.Flows, hu]
  dsimp only
  refine ⟨fun x => Outline.next_visible hp hd fun D => ?_, fun j hj x hx => ?_⟩
  · rw [scopeAhead, hu]
    rfl
  · unfold Outline.next
    have hget := getElem?_eq_getElem hj
    split
    · next hlen =>
      refine fun v hv => hx v (hv.behind_sibling hp (fun d hd => ?_) (fun n _ hn => ?_)
        fun x c _ => .inl ?_)
      · rw [mem_scopeAt_block hp hu hget]
        rcases (mem_scopeAt_block hp hu (getElem?_eq_getElem hlen)).mp hd with ⟨j', w, hw, hd⟩ | hd
        · obtain ⟨hw', -⟩ := getElem?_of_take hw
          have hj' : j' < j + 1 := by
            have := (List.getElem?_eq_some_iff.mp hw).1
            rw [length_take] at this
            omega
          by_cases heq : j' = j
          · subst heq
            have hat := partAt?_snoc hp hw' (hpart? j' w)
            exact .inl (by rwa [declaredAt, hat])
          · exact .inr (.inl ⟨j', w, by rw [List.getElem?_take_of_lt (by omega), hw'], hd⟩)
        · exact .inr (.inr hd)
      · simp [reaches, hu] at hn ⊢
        omega
      · simp [reaches, hu]
    · exact fun v hv => hx v (ht.visibleBehind_child hp hinner hd hget (hpart? j _) hv)

omit ht hinner in
theorem Tree.mem_scopeAt_declaration {j n : Nat} {d : Tree.Declaration} (hu : u.kind = .declaration)
    (hne : t.scopeAt (k :: p) ≠ []) (hc : u.children[j + 1]? = some c) (hn : n ≤ j + 2)
    (hd : d ∈ declared (fun j => (k :: p) ++ [j + 1]) (fun _ => .ofFirst u.children)
      (u.children.take n).tail) :
    d ∈ t.declaredAt ((k :: p) ++ [j + 1]) ∨ d ∈ (t.scopeAt ((k :: p) ++ [j + 1])).flatten := by
  have hat :=
    declarationAt?_of_declared hp hu (fun j w hw => (getElem?_of_take (getElem?_tail ▸ hw)).1) hd
  obtain ⟨j', w, hw, rfl⟩ := mem_declared.mp hd
  rw [getElem?_tail] at hw
  have hlt := (List.getElem?_eq_some_iff.mp hw).1
  rw [length_take] at hlt
  obtain ⟨hw', -⟩ := getElem?_of_take hw
  by_cases heq : j' = j
  · subst heq
    have hpart := partAt?_snoc hp hw' (by rw [hu]; rfl : part? u.kind (j' + 1) w = some .declarator)
    refine .inl ?_
    rw [declaredAt, hpart]
    dsimp only
    rw [hat]
    exact mem_singleton_self _
  · obtain ⟨scope, outer, hscope⟩ := exists_cons_of_ne_nil hne
    refine .inr ?_
    rw [scopeAt_snoc hp hc, scopeAhead, hu, hscope, modifyHead_cons, flatten_cons]
    refine mem_append_left _ (mem_append_left _ (mem_declared.mpr ⟨j', w, ?_, rfl⟩))
    rw [List.getElem?_tail, List.getElem?_take_of_lt (by omega), hw']

omit ht hinner in
theorem Tree.flows_visible_declaration (hu : u.kind = .declaration) (hpart : part = .statement)
    (hne : t.scopeAt (k :: p) ≠ []) : (Outline.visible t V).Flows T (k :: p) u := by
  subst hpart
  have hdeclared : t.declaredAt (k :: p) = declaredBy (k :: p) u := by rw [declaredAt, hp]
  have hpart? (j : Nat) (c : Tree) : part? u.kind (j + 1) c = some .declarator := by rw [hu]; rfl
  rw [Outline.Flows, hu]
  dsimp only
  refine ⟨fun x hx => ?_, fun j hj x hx => ?_⟩
  · unfold Outline.next
    split
    · next hlen =>
      refine fun v hv => hx v (hv.of_child hp (getElem?_eq_getElem hlen) fun D => ?_)
      rw [scopeAhead, hu]
      cases u.children <;> cases D <;> rfl
    · next hlen =>
      refine fun v hv => hx v (hv.ahead ?_)
      rw [hdeclared, declaredBy, if_pos hu, ← drop_one, drop_eq_nil_of_le (by omega)]
      rfl
  · unfold Outline.next
    have hget := getElem?_eq_getElem hj
    have hbefore (d : Tree.Declaration) (hd : d ∈ (t.scopeAt (k :: p)).flatten) :
        d ∈ (t.scopeAt ((k :: p) ++ [j + 1])).flatten := by
      rw [scopeAt_snoc hp hget]
      exact mem_scopeAhead_of_mem (by simp [hu]) hd
    split
    · next hlen =>
      refine fun v hv => hx v (hv.behind_sibling hp (fun d hd => ?_) (fun n _ hn => ?_)
        fun x c _ => .inl ?_)
      · rw [scopeAt_snoc hp (getElem?_eq_getElem hlen)] at hd
        rcases mem_scopeAhead hd with hd | ⟨hkind, -⟩ | ⟨-, hd⟩ | ⟨hkind | hkind, -⟩
        · exact .inr (hbefore d hd)
        · exact absurd (hu.symm.trans hkind) (by simp)
        · exact mem_scopeAt_declaration hp hu hne hget (Nat.le_refl _) hd
        · exact absurd (hu.symm.trans hkind) (by simp)
        · exact absurd (hu.symm.trans hkind) (by simp)
      · simp [reaches, hu] at hn ⊢
        omega
      · simp [reaches, hu]
    · next hlen =>
      intro v hv
      refine hx v ?_
      cases v with
      | declared d =>
        rcases hv with hd | hd
        · rw [hdeclared, declaredBy, if_pos hu] at hd
          refine mem_scopeAt_declaration hp hu hne hget (Nat.le_refl (j + 2)) ?_
          rwa [take_of_length_le (Nat.le_of_not_lt hlen)]
        · exact .inr (hbefore d hd)
      | outer x =>
        obtain ⟨hx, hundeclared, hlacks⟩ := hv
        have hchild (n : Nat) (c : Tree) (hc : u.children[n]? = some c) : c.lacks x :=
          lacks_child (hlacks _ u hp) hc
        refine ⟨hx, (undeclaredAhead_snoc hp).mpr ⟨hundeclared, fun n c hc _ => hchild n c hc⟩,
          fun _ c hc => ?_⟩
        exact hchild _ c (partAt?_snoc_inv hp hc).1

/-- Out of a loop control goes from any place in it, and on to a child that every part of the loop
comes to. -/
theorem TypedTree.exits_visible {n : Nat} (hpart : part = .statement)
    (hd : t.declaredAt (k :: p) = []) (hu : u.kind ≠ .continueStmt)
    (hreach : ∀ m, reaches u.kind m n)
    (hscope : ∀ j q part' w, partAt? (j :: q) .statement u = some (part', w) →
      w.kind = .continueStmt →
      ∀ d ∈ (t.scopeAt ((k :: p) ++ [n])).flatten, d ∈ (t.scopeAt ((k :: p) ++ [j])).flatten) :
    (Outline.visible t V).Exits (k :: p) u n := by
  subst hpart
  refine fun q part' w hq => ⟨fun _ x hx v hv => ?_, fun hw x hx v hv => hx v ?_⟩
  · exact hx v (ht.visibleAhead_of_behind hp hinner hd hq hv)
  cases q with
  | nil =>
    cases hq
    exact absurd hw hu
  | cons j q =>
    obtain ⟨c, part₁, hc, hpart₁, hq'⟩ := partAt?_cons hq
    have hat := partAt?_snoc hp hc hpart₁
    have hprogram := ((ht.reach hp).kind_ne hinner).1
    cases v with
    | declared d =>
      have hmem := hscope j q part' w hq hw d hv
      rw [Tree.VisibleAhead, show (k :: p) ++ j :: q = ((k :: p) ++ [j]) ++ q by simp, scopeAt,
        scopeTo_append hat]
      exact (ht.reach hat).mem_scopeTo_of_mem (part?_isInner hprogram hpart₁) hq' hmem
    | outer x =>
      obtain ⟨hx, hundeclared⟩ := hv
      obtain ⟨hundeclared, hlacks⟩ := (undeclaredAhead_snoc hp).mp hundeclared
      refine ⟨hx, (undeclaredAhead_append hp).mpr ⟨hundeclared, ?_⟩⟩
      exact undeclaredAhead_of_lacks fun m c hc => hlacks m c hc (hreach m)

variable (hV : ∀ i l v x x', T.acts i (.jumpIfZero l) x x' → V k v x → V k v x')

include hV

theorem TypedTree.flows_visible_conditional {rest : List Tree}
    (hu : u = ⟨.conditional, "If", false, loc, cond :: body :: rest⟩) (hpart : part = .statement)
    (hrest : TypedBranches N ret loop Γ rest) : (Outline.visible t V).Flows T (k :: p) u := by
  subst hu hpart
  have hd := declaredAt_of_kind hp nofun nofun
  have hnext {j : Nat} {x : X} := Outline.next_visible (i := j) (V := V) (x := x) hp hd fun D => rfl
  refine ⟨fun x hx v hv => hx v (hv.of_child hp rfl fun D => rfl), fun i l x x' hx hacts => ?_,
    fun x hx v hv => ?_, fun j c hc => ?_⟩
  · have htest (v : Tree.Variable) (hv : t.VisibleAhead (k :: p) v) : V k v x' :=
      hV i l v x x' hacts (hx v (ht.visible_of_test hp rfl rfl nofun (fun _ => rfl) hv))
    exact ⟨fun v hv => htest v (hv.of_child hp rfl fun D => rfl), hnext htest⟩
  · exact hx v (ht.visibleBehind_child hp hinner hd rfl rfl hv)
  · have hat := partAt?_snoc hp hc rfl
    cases ht.reach hat with
    | branch _ _ _ _ hc' =>
      cases hc' with
      | last _ _ _ hb =>
        -- behind the last block control goes past the conditional
        have hlen : rest.length = j + 1 := hrest.length_eq hc (by cases hb; exact nofun)
        have hnext : (Outline.visible t V).next (k :: p)
            ⟨.conditional, "If", false, loc, cond :: body :: rest⟩ (j + 3) =
              (Outline.visible t V).behind (k :: p) := if_neg (by simp [hlen])
        rw [hnext]
        cases hb
        exact fun x hx v hv => hx v (ht.visibleBehind_child hp hinner hd hc rfl hv)
      | elseIf _ _ loc cond' body' _ hcond' hbody' =>
        have hd' := declaredAt_of_kind hat nofun nofun
        refine ⟨fun x hx v hv => hx v (hv.of_child hat rfl fun D => rfl),
          fun i l x x' hx hacts => ?_, fun x hx v hv => ?_⟩
        · have htest (v : Tree.Variable) (hv : t.VisibleAhead (k :: (p ++ [j + 2])) v) : V k v x' :=
            hV i l v x x' hacts (hx v (ht.visible_of_test hat rfl rfl nofun (fun _ => rfl) hv))
          refine ⟨fun v hv => htest v (hv.of_child hat rfl fun D => rfl),
            hnext fun v hv => htest v ?_⟩
          exact hv.enter hp nofun hc fun _ => rfl
        · have hv := ht.visibleBehind_child hp hinner hd hc rfl hv
          exact hx v (ht.visibleBehind_child hat ⟨nofun, nofun⟩ hd' rfl rfl hv)

/-- Control that comes to a test from all parts of its loop goes on from it to the body and out. -/
theorem TypedTree.tests_visible {i j : Nat} (hd : t.declaredAt (k :: p) = [])
    (hc : u.children[i]? = some cond) (hcond : part? u.kind i cond = some .expression)
    (hreach : ∀ n, reaches u.kind n j)
    (hscope : t.scopeAt ((k :: p) ++ [i]) = t.scopeAt ((k :: p) ++ [j])) :
    T.Tests ((Outline.visible t V).behind ((k :: p) ++ [i]))
      ((Outline.visible t V).ahead ((k :: p) ++ [j])) ((Outline.visible t V).behind (k :: p)) := by
  intro m l x x' hx hacts
  have hat := partAt?_snoc hp hc hcond
  have htest (v : Tree.Variable) (hv : t.VisibleAhead ((k :: p) ++ [i]) v) : V k v x' :=
    hV m l v x x' hacts (hx v (hv.behind_expression ht hat))
  refine ⟨fun v hv => htest v (hv.ahead_sibling hp (fun d hd => ?_) fun n _ _ => hreach n),
    fun v hv => htest v ?_⟩
  · rwa [hscope]
  · rw [partAt?_append, hp] at hat
    exact ht.visibleAhead_of_behind hp hinner hd hat hv

/-- A loop of a test and a body, whichever comes first. -/
theorem TypedTree.loop_visible {i j : Nat} (hu : u.kind = .whileLoop ∨ u.kind = .doWhile)
    (hpart : part = .statement) (hc : u.children[i]? = some cond)
    (hcond : part? u.kind i cond = some .expression) (hb : u.children[j]? = some body) :
    T.Tests ((Outline.visible t V).behind ((k :: p) ++ [i]))
        ((Outline.visible t V).ahead ((k :: p) ++ [j])) ((Outline.visible t V).behind (k :: p)) ∧
      (∀ x, (Outline.visible t V).behind ((k :: p) ++ [j]) x →
        (Outline.visible t V).ahead ((k :: p) ++ [i]) x) ∧
      (Outline.visible t V).Exits (k :: p) u i := by
  have hreach (n m : Nat) : reaches u.kind n m := by rcases hu with hu | hu <;> rw [hu] <;> rfl
  have hscope (n : Nat) (c : Tree) (hn : u.children[n]? = some c) :
      t.scopeAt ((k :: p) ++ [n]) = t.scopeAt (k :: p) := by
    rw [scopeAt_snoc hp hn, scopeAhead]
    rcases hu with hu | hu <;> rw [hu]
  have hd : t.declaredAt (k :: p) = [] :=
    declaredAt_of_kind hp (hpart ▸ nofun) (by rcases hu with hu | hu <;> simp [hu])
  refine ⟨ht.tests_visible hp hinner hV hd hc hcond (hreach · j)
    ((hscope i cond hc).trans (hscope j body hb).symm), fun x hx v hv => hx v ?_, ?_⟩
  · refine hv.behind_sibling hp (fun d hd => .inr ?_) (fun n _ _ => hreach n i)
      fun _ _ _ => .inl (hreach j i)
    rwa [hscope j body hb, ← hscope i cond hc]
  · refine ht.exits_visible hp hinner hpart hd (by rcases hu with hu | hu <;> simp [hu])
      (hreach · i) fun n q part' w hq _ d hd => ?_
    obtain ⟨c, _, hn, -, -⟩ := partAt?_cons hq
    rwa [hscope n c hn, ← hscope i cond hc]

theorem TypedTree.flows_visible_whileLoop
    (hu : u = ⟨.whileLoop, "While", false, loc, [cond, body]⟩) (hpart : part = .statement) :
    (Outline.visible t V).Flows T (k :: p) u := by
  subst hu
  obtain ⟨htest, hbody, hexits⟩ :=
    ht.loop_visible hp hinner hV (i := 0) (j := 1) (.inl rfl) hpart rfl rfl rfl
  exact ⟨fun x hx v hv => hx v (hv.of_child hp rfl fun D => rfl), htest, hbody, hexits⟩

theorem TypedTree.flows_visible_doWhile
    (hu : u = ⟨.doWhile, "DoWhile", false, loc, [body, cond]⟩) (hpart : part = .statement) :
    (Outline.visible t V).Flows T (k :: p) u := by
  subst hu
  obtain ⟨htest, hbody, hexits⟩ :=
    ht.loop_visible hp hinner hV (i := 1) (j := 0) (.inr rfl) hpart rfl rfl rfl
  exact ⟨fun x hx v hv => hx v (hv.of_child hp rfl fun D => rfl), hbody, htest, hexits⟩

theorem TypedTree.flows_visible_forLoop {first step : Tree}
    (hu : u = ⟨.forLoop, "For", false, loc, [first, cond, step, body]⟩)
    (hpart : part = .statement) : (Outline.visible t V).Flows T (k :: p) u := by
  subst hu hpart
  have hd := declaredAt_of_kind hp (by simp) (by simp)
  have hfirst := partAt?_snoc hp (i := 0) (c := first) rfl rfl
  -- behind the first statement, all parts of the loop have the same scope
  have hscope (i j : Nat) (c c' : Tree) (hi : [first, cond, step, body][i + 1]? = some c)
      (hj : [first, cond, step, body][j + 1]? = some c') :
      t.scopeAt ((k :: p) ++ [i + 1]) = t.scopeAt ((k :: p) ++ [j + 1]) := by
    rw [scopeAt_snoc hp hi, scopeAt_snoc hp hj, scopeAhead, scopeAhead]
    simp
  have hdeclared (d : Tree.Declaration) (hmem : d ∈ (t.scopeAt ((k :: p) ++ [1])).flatten) :
      d ∈ declaredBy ((k :: p) ++ [0]) first ∨ d ∈ (t.scopeAt ((k :: p) ++ [0])).flatten := by
    rw [scopeAt_snoc hp (i := 0) (c := first) rfl]
    rw [scopeAt_snoc hp (i := 1) (c := cond) rfl] at hmem
    simpa [scopeAhead, declaredByAll] using hmem
  refine ⟨fun x hx v hv => hx v (hv.of_child hp rfl fun D => rfl), fun x hx v hv => hx v ?_, ?_,
    fun x hx v hv => hx v ?_, fun x hx v hv => ?_, ?_⟩
  · refine hv.behind_sibling hp (fun d hd => ?_) (fun _ _ h => by cases h) fun _ _ _ => .inl rfl
    rw [declaredAt, hfirst]
    exact hdeclared d hd
  · split
    · exact fun x hx v hv => hx v
        (hv.ahead_sibling hp (fun d hd => by rwa [hscope 0 2 cond body rfl rfl]) fun _ _ _ => rfl)
    · next he =>
      exact ht.tests_visible hp hinner hV (i := 1) hd rfl (if_neg he) (fun _ => rfl)
        (hscope 0 2 cond body rfl rfl)
  · refine hv.behind_sibling hp (fun d hd => .inr ?_) (fun _ _ _ => rfl) fun _ _ _ => .inl rfl
    rwa [hscope 2 1 body step rfl rfl]
  · have hv := hv.ahead_sibling (j := 2) hp (fun d hd => by rwa [hscope 1 0 step cond rfl rfl])
      fun _ _ _ => rfl
    split at hx
    · exact hx v hv
    · next he => exact hx v (hv.behind_expression ht (partAt?_snoc hp rfl (if_neg he)))
  · refine ht.exits_visible hp hinner rfl hd (by simp) (fun _ => rfl)
      fun j q part' w hq hw d hd => ?_
    obtain ⟨c, part₁, hc, hpart₁, hq⟩ := partAt?_cons hq
    rcases j with _ | j
    · cases hc
      cases hpart₁
      rw [hscope 1 0 step cond rfl rfl] at hd
      refine (hdeclared d hd).resolve_left fun hd => ?_
      unfold declaredBy at hd
      split at hd
      · next hdecl => exact (ht.reach hfirst).kind_ne_continueStmt (.inl hdecl) hq hw
      · cases hd
    · rwa [hscope j 1 c step hc rfl]

omit ht in
/-- **Wherever control goes between the parts of a statement, the variables that are visible there
were visible before.** -/
theorem FunctionIn.flows_visible (hf : FunctionIn IsName t k c) (hparam : part ≠ .parameter)
    (hret : ∀ x, T.needs .ret x) : (Outline.visible t V).Flows T (k :: p) u := by
  cases hf.reach hp with
  | program => exact absurd rfl hinner.1
  | function | item => exact absurd rfl hinner.2
  | parameter => exact absurd rfl hparam
  | branch _ _ _ _ hu =>
    cases hu with
    | last _ _ _ hb =>
      obtain ⟨⟩ := hb
      exact hf.flows_visible_block hp hinner rfl nofun
    | elseIf => trivial
  | declarator _ _ _ _ _ _ _ hd => cases hd <;> trivial
  | expression _ _ _ _ _ he => cases he <;> trivial
  | statement _ _ _ _ _ hu =>
    cases hu with
    | omitted | breakStmt | continueStmt =>
      exact fun x hx v hv => hx v (hv.ahead (declaredAt_of_kind hp nofun nofun))
    | block _ _ _ hb =>
      obtain ⟨⟩ := hb
      exact hf.flows_visible_block hp hinner rfl nofun
    | declaration => exact flows_visible_declaration hp rfl rfl (hf.aligned hp hinner).ne_nil
    | exprStmt =>
      have hd := declaredAt_of_kind hp nofun nofun
      exact ⟨fun x hx v hv => hx v (hv.of_child hp rfl fun D => rfl),
        fun x hx v hv => hx v (hf.visibleBehind_child hp hinner hd rfl rfl hv)⟩
    | returnStmt =>
      exact ⟨fun x hx v hv => hx v (hv.of_child hp rfl fun D => rfl), fun x _ => hret x⟩
    | conditional _ _ _ _ _ _ _ _ hrest =>
      exact hf.flows_visible_conditional hp hinner hV rfl rfl hrest
    | whileLoop => exact hf.flows_visible_whileLoop hp hinner hV rfl rfl
    | doWhile => exact hf.flows_visible_doWhile hp hinner hV rfl rfl
    | forLoop => exact hf.flows_visible_forLoop hp hinner hV rfl rfl

end Statements

end Flows

/-! ## Expressions -/

section Expressions

variable {t u c : Tree} {k i : Nat} {p : List Nat} {part : Tree.Part}
  {V : Nat → Tree.Variable → X → Prop}
  {v : Tree.Variable} (ht : TypedTree IsName t)

include ht

theorem TypedTree.visibleBehind_expression_iff
    (hp : partAt? (k :: p) .program t = some (.expression, u)) :
    t.VisibleBehind (k :: p) v ↔ t.VisibleAhead (k :: p) v := by
  refine ⟨fun hv => hv.ahead ?_, fun hv => hv.behind_expression ht hp⟩
  rw [declaredAt, hp]

theorem TypedTree.visibleAhead_child_iff (hp : partAt? (k :: p) .program t = some (part, u))
    (hplain : part = .declarator ∨ part = .expression) (hc : u.children[i]? = some c) :
    t.VisibleAhead ((k :: p) ++ [i]) v ↔ t.VisibleAhead (k :: p) v := by
  have hkind : u.kind ≠ .function ∧ (∀ D, scopeAhead (k :: p) u i D = D) ∧
      ∀ n, reaches u.kind n i = false := by
    have htyped := ht.reach hp
    rcases hplain with rfl | rfl
    · cases htyped with
      | declarator _ _ _ _ _ _ _ hd =>
        cases hd <;> exact ⟨nofun, fun _ => rfl, fun _ => rfl⟩
    · cases htyped with
      | expression _ _ _ _ _ he =>
        cases he <;> exact ⟨nofun, fun _ => rfl, fun _ => rfl⟩
  refine ⟨fun hv => hv.of_child hp hc fun D => ?_, fun hv => hv.enter hp hkind.1 hc hkind.2.2⟩
  rw [hkind.2.1]

theorem TypedTree.visible_behind (hp : partAt? (k :: p) .program t = some (.expression, u)) :
    (Outline.visible t V).behind (k :: p) = (Outline.visible t V).ahead (k :: p) :=
  funext fun _ =>
    propext (forall_congr' fun _ => imp_congr_left (ht.visibleBehind_expression_iff hp))

theorem TypedTree.visible_ahead_child (hp : partAt? (k :: p) .program t = some (part, u))
    (hplain : part = .declarator ∨ part = .expression) (hc : u.children[i]? = some c) :
    (Outline.visible t V).ahead ((k :: p) ++ [i]) = (Outline.visible t V).ahead (k :: p) :=
  funext fun _ =>
    propext (forall_congr' fun _ => imp_congr_left (ht.visibleAhead_child_iff hp hplain hc))

theorem TypedTree.visible_behind_child (hp : partAt? (k :: p) .program t = some (part, u))
    (hplain : part = .declarator ∨ part = .expression) (hc : u.children[i]? = some c)
    (hpart : part? u.kind i c = some .expression) :
    (Outline.visible t V).behind ((k :: p) ++ [i]) = (Outline.visible t V).ahead (k :: p) :=
  (ht.visible_behind (partAt?_snoc hp hc hpart)).trans (ht.visible_ahead_child hp hplain hc)

end Expressions

end Stacklet
