import Stacklet.Proofs.Scoping.Around
/-!
# Where passed declarations stand

* **`TypedTree.standsIn`**: what was passed is declared where it says, in the same function.
* **`FunctionIn.slotAt_eq_name_iff`**: the slot of a variable is its plain name if no variable of
  this name was in scope where it is declared.
-/

namespace Stacklet

open Emit List
open Stacklet.Tree hiding lower

/-! ## Passed declarations -/

namespace Tree

variable {t : Tree} {here : List Nat} {d : Declaration} {i : Nat} {P : List Declaration}

theorem mem_declaredWithinAll {place : Nat → List Nat} {ts : List Tree} :
    d ∈ declaredWithinAll place ts ↔ ∃ j c, ts[j]? = some c ∧ d ∈ declaredWithin (place j) c := by
  induction ts generalizing place with
  | nil => simp [declaredWithinAll]
  | cons t ts ih =>
    simp only [declaredWithinAll, mem_append, ih]
    constructor
    · rintro (⟨j, c, hc, hd⟩ | hd)
      · exact ⟨j + 1, c, hc, hd⟩
      · exact ⟨0, t, rfl, hd⟩
    · rintro ⟨_ | j, c, hc, hd⟩
      · simp only [getElem?_cons_zero, Option.some.injEq] at hc
        exact .inr (hc ▸ hd)
      · exact .inl ⟨j, c, hc, hd⟩

theorem mem_declaredWithin (hd : d ∈ declaredWithin here t) :
    (t.kind = .declaration ∧ d ∈ declared (fun j => here ++ [j + 1]) (fun _ => .ofFirst t.children)
      t.children.tail) ∨
      (t.kind ≠ .declaration ∧ ∃ j c, t.children[j]? = some c ∧
        d ∈ declaredWithin (here ++ [j]) c) := by
  obtain ⟨kind, text, isArray, loc, children⟩ := t
  unfold declaredWithin at hd
  split at hd
  case h_1 => exact .inl ⟨rfl, hd⟩
  case h_8 => cases hd
  all_goals exact .inr ⟨by simp, mem_declaredWithinAll.mp hd⟩

theorem mem_passedAhead (hd : d ∈ passedAhead here t i P) :
    d ∈ P ∨ (t.kind = .function ∧ d ∈ declared (fun j => here ++ [j + 1]) parameterTy
      (t.children.take i).tail) ∨ d ∈ declaredWithin here t := by
  obtain ⟨kind, text, isArray, loc, children⟩ := t
  have row {n : Nat} (hd : d ∈ declaredWithinAll (fun j => here ++ [j]) (children.take n) ++ P) :
      d ∈ P ∨ d ∈ declaredWithinAll (fun j => here ++ [j]) children := by
    rcases mem_append.mp hd with hd | hd
    · obtain ⟨j, c, hc, hd⟩ := mem_declaredWithinAll.mp hd
      exact .inr (mem_declaredWithinAll.mpr ⟨j, c, (getElem?_of_take hc).1, hd⟩)
    · exact .inl hd
  unfold passedAhead at hd
  split at hd
  case h_1 hk => exact .inr (.inl ⟨hk, hd⟩)
  case h_2 hk =>
    rcases mem_append.mp hd with hd | hd
    · obtain ⟨j, u, hu, rfl⟩ := mem_declared.mp hd
      rw [getElem?_tail] at hu
      refine .inr (.inr ?_)
      simp only at hk
      simp only [hk, declaredWithin]
      exact mem_declared.mpr ⟨j, u, by rw [getElem?_tail, (getElem?_of_take hu).1], rfl⟩
    · exact .inl hd
  case h_9 => exact .inl hd
  all_goals
    next hk =>
      simp only at hk
      simpa [hk, declaredWithin] using row hd

end Tree

/-- A declaration stands where it says, inside of the node at the place `here`. -/
def Tree.StandsIn (root : Tree) (here : List Nat) (d : Tree.Declaration) : Prop :=
  root.declarationAt? d.place = some d ∧ here <+: d.place

section Standing

variable {N : String → Prop} {σ : Checker.State} {ret : Option Ty} {loop : Bool} {Γ Γ' : Scopes}
  {root t c u : Tree}
  {here top p : List Nat} {part part' : Tree.Part} {d : Tree.Declaration}
  {P : List Tree.Declaration} {i j k : Nat}

theorem Tree.StandsIn.up (h : root.StandsIn here d) (htop : top <+: here) : root.StandsIn top d :=
  ⟨h.1, htop.trans h.2⟩

theorem Typed.isSome_part? (ht : Typed N ret loop Γ t Γ') (hk : t.kind ≠ .declaration)
    (hc : t.children[j]? = some c) (hne : c.kind ≠ .empty) : (part? t.kind j c).isSome := by
  cases ht with
  | omitted | breakStmt | continueStmt => cases hc
  | declaration => exact absurd rfl hk
  | block _ _ _ hb =>
    obtain ⟨⟩ := hb
    rfl
  | exprStmt | returnStmt =>
    match j with
    | 0 => rfl
    | _ + 1 => cases hc
  | conditional =>
    match j with
    | 0 | 1 | _ + 2 => rfl
  | whileLoop | doWhile =>
    match j with
    | 0 | 1 => rfl
    | _ + 2 => cases hc
  | forLoop =>
    match j with
    | 0 | 3 => rfl
    | 1 | 2 => simp [part?, hne]
    | _ + 4 => cases hc

theorem TypedPart.isSome_part? (h : TypedPart N σ part t) (hk : t.kind ≠ .declaration)
    (hd : d ∈ declaredWithin here t) (hc : t.children[j]? = some c) (hne : c.kind ≠ .empty) :
    (part? t.kind j c).isSome := by
  cases h with
  | item _ _ _ _ ht | statement _ _ _ _ _ ht => exact ht.isSome_part? hk hc hne
  | branch _ loop _ _ ht =>
    cases ht with
    | last _ _ _ hb => exact (Typed.block loop _ t hb).isSome_part? hk hc hne
    | elseIf =>
      match j with
      | 0 | 1 => rfl
      | _ + 2 => cases hc
  | expression _ _ _ _ _ he => simp [he.declaredWithin_eq] at hd
  | declarator _ _ _ _ _ _ _ hdecl => cases hdecl <;> simp [declaredWithin] at hd
  | program _ _ _ hkind | parameter _ hkind =>
    obtain ⟨kind, text, isArray, loc, children⟩ := t
    cases hkind
    simp [declaredWithin] at hd
  | function _ _ hf => cases hf; simp [declaredWithin] at hd

/-- **What is declared inside of a part** stands inside of it. -/
theorem TypedPart.standsIn :
    ∀ {σ : Checker.State} {part : Tree.Part} {here : List Nat}, TypedPart N σ part t →
    partAt? here .program root = some (part, t) → d ∈ declaredWithin here t →
    root.StandsIn here d := by
  induction t using induction with
  | h t ih =>
    intro σ part here h hhere hd
    rcases mem_declaredWithin hd with ⟨hk, hrow⟩ | ⟨hk, j, c, hc, hchild⟩
    · refine ⟨declarationAt?_of_declared hhere hk (fun j u hu => by rwa [getElem?_tail] at hu) hrow,
        ?_⟩
      obtain ⟨j, u, -, rfl⟩ := mem_declared.mp hrow
      exact prefix_append ..
    · have hne : c.kind ≠ .empty := by
        intro hempty
        obtain ⟨kind, text, isArray, loc, children⟩ := c
        cases hempty
        simp [declaredWithin] at hchild
      obtain ⟨part', hpart⟩ := Option.isSome_iff_exists.mp (h.isSome_part? hk hd hc hne)
      exact (ih c (mem_of_getElem? hc) (h.step hc hpart) (partAt?_snoc hhere hc hpart) hchild).up
        (prefix_append ..)

section

variable (h : TypedPart N σ part t) (hhere : partAt? here .program root = some (part, t))
  (htop : top <+: here)
  (hP : ∀ d ∈ P, root.StandsIn top d)

include h hhere htop hP

theorem TypedPart.standsIn_ahead (hc : t.children[i]? = some c)
    (hpart : part? t.kind i c = some part') :
    ∀ d ∈ passedAhead here t i P, root.StandsIn top d := by
  intro d hd
  rcases mem_passedAhead hd with hd | ⟨hk, hd⟩ | hd
  · exact hP d hd
  · have hscope : d ∈ (scopeAhead here t i []).flatten := by simpa [scopeAhead, hk] using hd
    obtain ⟨j, u, -, rfl⟩ := mem_declared.mp hd
    exact ⟨h.declarationAt?_eq hhere (forall_mem_nil _) hc hpart hscope,
      htop.trans (prefix_append ..)⟩
  · exact (h.standsIn hhere hd).up htop

theorem TypedPart.standsIn_reach (hp : partAt? p part t = some (part', u)) :
    ∀ d ∈ passedTo here p t P, root.StandsIn top d := by
  induction p generalizing here t part σ P with
  | nil => exact hP
  | cons i p ih =>
    obtain ⟨c, part₁, hc, hpart₁, hp⟩ := partAt?_cons hp
    rw [passedTo_cons hc]
    exact ih (h.step hc hpart₁) (partAt?_snoc hhere hc hpart₁) (htop.trans (prefix_append ..))
      (h.standsIn_ahead hhere htop hP hc hpart₁) hp

end

/-- **What was passed at a place** stands in the same item. -/
theorem TypedTree.standsIn (ht : TypedTree N t)
    (hp : partAt? (k :: p) .program t = some (part, u)) :
    ∀ d ∈ t.passedAt (k :: p), t.StandsIn [k] d := by
  obtain ⟨c, part₁, hc, hpart₁, hp⟩ := partAt?_cons hp
  have hat : partAt? [k] .program t = some (part₁, c) :=
    partAt?_snoc (rfl : partAt? [] .program t = _) hc hpart₁
  have hnone : passedAhead [] t k [] = [] := by simp [passedAhead, ht.kind_eq]
  rw [passedAt, passedTo_cons hc, hnone]
  exact (ht.typedPart.step hc hpart₁).standsIn_reach hat prefix_rfl (forall_mem_nil _) hp

end Standing

/-! ## Plain slots -/

section Plain

variable {t c : Tree} {k : Nat} {d : Tree.Declaration} (ht : FunctionIn IsName t k c)

theorem Aligned.newSlot_eq_iff {G Γ : Scopes} {slot : List Nat → String}
    {D : List (List Tree.Declaration)} {P : List Tree.Declaration} {held : List String}
    {s : Emit.State} {x : String} (h : Aligned G slot D P held s Γ) (hx : IsName x) :
    s.newSlot x = x ↔ resolve? D x = none := by
  rw [State.newSlot, h.slot?_eq]
  cases resolve? D x with
  | none => simp
  | some d =>
    simp only [Option.map_some, Option.isSome_some, if_true, reduceCtorEq, iff_false]
    exact (Slot.plain_ne_numbered (k := s.nextSlot + 1) hx).symm

include ht

/-- **The slot of a variable is its plain name** if no variable of this name was in scope where it
is declared. -/
theorem FunctionIn.slotAt_eq_name_iff (hd : t.StandsIn [k] d) (hname : IsName d.name) :
    t.slotAt d.place = d.name ↔ resolve? (t.scopeAt d.place) d.name = none := by
  obtain ⟨hat, q, hq⟩ := hd
  rw [← hq] at hat ⊢
  obtain ⟨part, u, hp, hpart, htext⟩ : ∃ part u, partAt? ([k] ++ q) .program t = some (part, u) ∧
      (part = .parameter ∨ part = .declarator) ∧ d.name = u.text := by
    unfold declarationAt? at hat
    split at hat
    · next u hp => exact ⟨_, u, hp, .inl rfl, by simp [← Option.some.inj hat]⟩
    · next u hp =>
      obtain ⟨_, -, rfl⟩ := Option.map_eq_some_iff.mp hat
      exact ⟨_, u, hp, .inr rfl, rfl⟩
    · cases hat
  have ha := ht.aligned hp (by rcases hpart with rfl | rfl <;> exact ⟨nofun, nofun⟩)
  have hsuits := (ht.exists_code hp).1
  have hslot : t.slotAt ([k] ++ q) = slotFrom [] (t.roleAt ([k] ++ q)) u
      (t.loweredAt ([k] ++ q)) := by
    have hslot := slotFrom_append hp [] .program t.start
    rwa [append_nil] at hslot
  generalize t.roleAt ([k] ++ q) = r at hsuits hslot
  rw [htext] at hname ⊢
  rcases hpart with rfl | rfl
  · cases hsuits
    have hnew : slotFrom [] .parameter u (t.loweredAt ([k] ++ q)) =
        (t.loweredAt ([k] ++ q)).newSlot u.text := by
      simp [slotFrom]
    rw [hslot, hnew]
    exact ha.newSlot_eq_iff hname
  · cases hsuits with
    | declarator ty =>
      have hnew : slotFrom [] (.declarator ty) u (t.loweredAt ([k] ++ q)) =
          (Emit.after (initialValue ty u) (t.loweredAt ([k] ++ q))).newSlot u.text := by
            simp [slotFrom]
      rw [hslot, hnew]
      exact (ha.after (initialValue ty u)).newSlot_eq_iff hname

end Plain

end Stacklet
