import Mathlib.Data.List.Pairwise
import Stacklet.Proofs.Emission.Places
import Stacklet.Proofs.Height.Program
import Stacklet.Proofs.Simulation.Frame
/-!
# Names in typing and in lowering

Typing and lowering keep scopes of their own. Lowering also keeps the slots of all doubles up to the
end of the function, even of those that are out of scope.

* `Tree.Declaration`, `Tree.scopeAt`: the declarations in scope at a place, read off the tree.
  `Tree.passedAt`: those whose code stands ahead of a place, in scope or not.
* `Tree.slotAt`: the slot that a declaration gets. `Tree.heldAt`: the hidden slots in use at a
  place.
* `Aligned`: the scopes of typing and those of lowering have the same declarations, and no two of
  them have the same slot. The slots of doubles are those of the declarations that were passed, and
  two of these have one slot only if it is the plain name of both.
* `Aligned.mem_doubles_iff`: so a slot is that of a double if its own variable is one, or if it is a
  plain name and a double had it before.
-/

namespace Stacklet

open Stacklet.Tree List

variable {i : Nat} {c t : Tree} {ty : Ty}

namespace Tree

/-! ## Declarations in scope -/

/-- A declared parameter or variable, and where it is declared. -/
structure Declaration where
  place : List Nat
  name : String
  ty : Ty
  isArray : Bool
  deriving DecidableEq

/-- What the declared names in a row stand for, the last one first. -/
def declared (place : Nat → List Nat) (ty : Tree → Ty) (ds : List Tree) : List Declaration :=
  (ds.mapIdx fun j d => ⟨place j, d.text, ty d, d.isArray⟩).reverse

/-- The variables that a statement at a place declares for the statements behind it. -/
def declaredBy (here : List Nat) (t : Tree) : List Declaration :=
  if t.kind = .declaration then declared (fun j => here ++ [j + 1]) (fun _ => .ofFirst t.children)
    t.children.tail
  else []

def declaredByAll (place : Nat → List Nat) (ts : List Tree) : List Declaration :=
  (ts.mapIdx fun j t => declaredBy (place j) t).reverse.flatten

/-- The declarations in scope at the child with number `i` of a node at the place `here`, given
those in scope at the node. A function sees nothing but its own. -/
def scopeAhead (here : List Nat) (t : Tree) (i : Nat) (D : List (List Declaration)) :
    List (List Declaration) :=
  match t.kind with
  | .function => [declared (fun j => here ++ [j + 1]) parameterTy (t.children.take i).tail]
  | .block => declaredByAll (fun j => here ++ [j]) (t.children.take i) :: D
  | .forLoop => declaredByAll (fun j => here ++ [j]) (t.children.take (min i 1)) :: D
  | .declaration => D.modifyHead
      (declared (fun j => here ++ [j + 1]) (fun _ => .ofFirst t.children)
        (t.children.take i).tail ++ ·)
  | _ => D

/-- The declarations in scope at a place of the node at `here`. -/
def scopeTo : (here p : List Nat) → Tree → List (List Declaration) → List (List Declaration)
  | _, [], _, D => D
  | here, i :: p, t, D =>
    match t.children[i]? with
    | some c => scopeTo (here ++ [i]) p c (scopeAhead here t i D)
    | none => D

theorem scopeTo_cons (h : t.children[i]? = some c) (here p : List Nat)
    (D : List (List Declaration)) :
    scopeTo here (i :: p) t D = scopeTo (here ++ [i]) p c (scopeAhead here t i D) := by
  rw [scopeTo, h]

/-- The declarations in scope at a place of a program, the innermost scope first. Top-level
variables are not among them. -/
def scopeAt (t : Tree) (p : List Nat) : List (List Declaration) := scopeTo [] p t []

/-! ## Declarations that were passed -/

mutual

/-- All variables that are declared inside of a statement, the last one first. -/
def declaredWithin (here : List Nat) : Tree → List Declaration
  | { kind, children, .. } =>
    match kind with
    | .declaration => declared (fun j => here ++ [j + 1]) (fun _ => .ofFirst children) children.tail
    | .block | .conditional | .elseIf | .whileLoop | .doWhile | .forLoop =>
      declaredWithinAll (fun j => here ++ [j]) children
    | _ => []

def declaredWithinAll (place : Nat → List Nat) : List Tree → List Declaration
  | [] => []
  | t :: ts => declaredWithinAll (fun j => place (j + 1)) ts ++ declaredWithin (place 0) t

end

/-- The declarations that were passed at the child with number `i` of a node at the place `here`,
given those that were passed at the node. A function starts with none, and the body of a loop comes
ahead of its last step. -/
def passedAhead (here : List Nat) (t : Tree) (i : Nat) (P : List Declaration) : List Declaration :=
  match t.kind with
  | .function => declared (fun j => here ++ [j + 1]) parameterTy (t.children.take i).tail
  | .declaration =>
    declared (fun j => here ++ [j + 1]) (fun _ => .ofFirst t.children) (t.children.take i).tail ++ P
  | .block | .conditional | .elseIf | .whileLoop | .doWhile =>
    declaredWithinAll (fun j => here ++ [j]) (t.children.take i) ++ P
  | .forLoop =>
    declaredWithinAll (fun j => here ++ [j]) (t.children.take (if i = 2 then 4 else i)) ++ P
  | _ => P

/-- The declarations that were passed at a place of the node at `here`. -/
def passedTo : (here p : List Nat) → Tree → List Declaration → List Declaration
  | _, [], _, P => P
  | here, i :: p, t, P =>
    match t.children[i]? with
    | some c => passedTo (here ++ [i]) p c (passedAhead here t i P)
    | none => P

theorem passedTo_cons {i : Nat} {t c : Tree} (h : t.children[i]? = some c) (here p : List Nat)
    (P : List Declaration) :
    passedTo here (i :: p) t P = passedTo (here ++ [i]) p c (passedAhead here t i P) := by
  rw [passedTo, h]

/-- The declarations of the function around a place whose code stands ahead of the place, the last
one first. -/
def passedAt (t : Tree) (p : List Nat) : List Declaration := passedTo [] p t []

/-- The declaration that a name stands for. -/
def resolve? (D : List (List Declaration)) (x : String) : Option Declaration :=
  D.findSome? fun scope => scope.find? fun d => x == d.name

end Tree

open Emit

namespace Emit

/-! ## Slots -/

/-- The slot that the declaration at a place gets when the node is lowered. -/
def slotFrom : List Nat → Role → Tree → State → String
  | [], .declarator ty, t, s => ((do initialValue ty t; declare t.text) s).1
  | [], _, t, s => (declare t.text s).1
  | i :: p, r, t, s =>
    match t.children[i]? with
    | some c => slotFrom p (ahead r t i s).1 c (after (ahead r t i) s)
    | none => t.text

theorem slotFrom_cons (h : t.children[i]? = some c) (p : List Nat) (r : Role) (s : State) :
    slotFrom (i :: p) r t s = slotFrom p (ahead r t i s).1 c (after (ahead r t i) s) := by
  rw [slotFrom, h]

@[simp] theorem slotFrom_blank (p : List Nat) (r : Role) (t : Tree) (s : State) :
    slotFrom p r t s.blank = slotFrom p r t s := by
  cases p with
  | nil => cases r <;> simp [slotFrom]
  | cons i p =>
    rw [slotFrom, slotFrom]
    simp

@[simp] theorem slotFrom_branch (p : List Nat) (done : String) (t : Tree) (s : State) :
    slotFrom p (.branch done) t s = slotFrom p .statement t s := by
  cases p with
  | nil => rfl
  | cons i p => rw [slotFrom, slotFrom, ahead_branch]

/-- Whether an assignment to an item is evaluated for its value, so that a hidden slot holds it. -/
def holds : Role → Tree → Bool
  | .value d, { kind := .assign, children := target :: _, .. } => target.kind = .index ∧ d ≠ .effect
  | _, _ => false

/-- The hidden slots in use at the child with number `i`. The code ahead of it ends with a load of
the new one. -/
def heldAhead (r : Role) (t : Tree) (i : Nat) (s : State) (held : List String) : List String :=
  if i = 0 ∧ holds r t then
    match (code (ahead r t i) s).getLast? with
    | some (.load x) => x :: held
    | _ => held
  else held

theorem heldAhead_eq {r : Role} (h : holds r t = false) (i : Nat) (s : State) (held : List String) :
    heldAhead r t i s held = held := by
  simp [heldAhead, h]

/-- The hidden slots in use at a place. -/
def heldTo : List Nat → Role → Tree → State → List String → List String
  | [], _, _, _, held => held
  | i :: p, r, t, s, held =>
    match t.children[i]? with
    | some c => heldTo p (ahead r t i s).1 c (after (ahead r t i) s) (heldAhead r t i s held)
    | none => held

theorem heldTo_cons (h : t.children[i]? = some c) (p : List Nat) (r : Role) (s : State)
    (held : List String) : heldTo (i :: p) r t s held =
      heldTo p (ahead r t i s).1 c (after (ahead r t i) s) (heldAhead r t i s held) := by
  rw [heldTo, h]

end Emit

/-- The slot of a declaration of a program. -/
def Tree.slotAt (t : Tree) (p : List Nat) : String := slotFrom p .program t t.start

def Tree.heldAt (t : Tree) (p : List Nat) : List String := heldTo p .program t t.start []

/-! ## Scopes with the same declarations -/

/-- A slot of a variable `x`: its plain name, or one with a number up to `n`. -/
def IsSlotOf (n : Nat) (x slot : String) : Prop :=
  IsName x ∧ (slot = x ∨ ∃ k, k ≤ n ∧ slot = (Slot.numbered x k).text)

namespace IsSlotOf

variable {n n' : Nat} {x y slot : String} {s : Emit.State}

theorem mono (h : IsSlotOf n x slot) (hle : n ≤ n') : IsSlotOf n' x slot := by
  refine ⟨h.1, h.2.imp_right ?_⟩
  rintro ⟨k, hk, heq⟩
  exact ⟨k, Nat.le_trans hk hle, heq⟩

theorem newSlot (s : Emit.State) (hx : IsName x) (ty : Ty) :
    IsSlotOf (s.declaredAs x ty).nextSlot x (s.newSlot x) := by
  refine ⟨hx, ?_⟩
  rw [Fits.nextSlot_declaredAs, State.newSlot]
  split
  · exact .inr ⟨_, Nat.le_refl _, rfl⟩
  · exact .inl rfl

theorem ne_hidden (h : IsSlotOf n x slot) (k : Nat) : slot ≠ (Slot.hidden k).text := by
  obtain ⟨hname, rfl | ⟨j, -, rfl⟩⟩ := h
  · exact Slot.plain_ne_hidden hname
  · exact Slot.numbered_ne_hidden hname

/-- A new slot that is in use has no number: a new number is larger than those in use. -/
theorem newSlot_eq (h : IsSlotOf s.nextSlot y (s.newSlot x)) :
    (s.slot? x).isSome = false ∧ s.newSlot x = x := by
  obtain ⟨hname, hslot⟩ := h
  unfold State.newSlot at hslot ⊢
  split at hslot
  · rcases hslot with hslot | ⟨k, hk, hslot⟩
    · exact absurd hslot.symm (Slot.plain_ne_numbered hname)
    · have hnumber := (Slot.numbered_injective (k := s.nextSlot + 1) hname hslot.symm).2
      omega
  · next hvisible => simp [hvisible]

end IsSlotOf

theorem Emit.State.doubles_declaredAs (s : State) (x : String) (ty : Ty) :
    (s.declaredAs x ty).doubles = if ty = .double then s.newSlot x :: s.doubles else s.doubles := by
  unfold declaredAs
  split <;> rfl

/-- Two declarations have the same slot only if it is the plain name of both. -/
def Tree.Declaration.Apart (slot : List Nat → String) (d e : Tree.Declaration) : Prop :=
  slot d.place = slot e.place → slot d.place = d.name ∧ slot e.place = e.name

instance (slot : List Nat → String) : Std.Symm (Tree.Declaration.Apart slot) where
  symm _ _ h heq := (h heq.symm).symm

/-- The scopes of lowering and of typing have the declarations `D` inside of the scopes `G`, with
slots of their own that are given by `slot`. The slots of doubles are those of the declarations in
`P`, which were passed. No two of these share a slot with a number. The hidden slots in `held` are
in use. -/
structure Aligned (G : Scopes) (slot : List Nat → String) (D : List (List Tree.Declaration))
    (P : List Tree.Declaration) (held : List String) (s : Emit.State) (Γ : Scopes) : Prop where
  ne_nil : D ≠ []
  scopes_eq : s.scopes = D.map fun scope => scope.map fun d => (d.name, slot d.place)
  types_eq : Γ = (D.map fun scope => scope.map fun d => (d.name, .var d.ty d.isArray)) ++ G
  doubles_eq : s.doubles = (P.filter fun d => d.ty = .double).map fun d => slot d.place
  subset : D.flatten ⊆ P
  owned : ∀ d ∈ P, IsSlotOf s.nextSlot d.name (slot d.place)
  slots_nodup : (D.flatten.map fun d => slot d.place).Nodup
  apart : P.Pairwise (Tree.Declaration.Apart slot)
  held_nodup : held.Nodup
  hidden : ∀ x ∈ held, ∃ k, k ≤ s.nextSlot ∧ x = (Slot.hidden k).text

namespace Aligned

variable {G : Scopes} {slot : List Nat → String} {D : List (List Tree.Declaration)}
  {P P' : List Tree.Declaration} {held : List String} {s s' : Emit.State} {Γ Γ' : Scopes}
  {x : String}
  {d : Tree.Declaration}

section

variable (h : Aligned G slot D P held s Γ)

include h

theorem of_eq (hs : s'.scopes = s.scopes) (hd : s'.doubles = s.doubles)
    (hle : s.nextSlot ≤ s'.nextSlot) :
    Aligned G slot D P held s' Γ :=
  { h with
    scopes_eq := hs.trans h.scopes_eq
    doubles_eq := hd.trans h.doubles_eq
    owned := fun d hd => (h.owned d hd).mono hle
    hidden := fun x hx =>
      have ⟨k, hk, heq⟩ := h.hidden x hx
      ⟨k, Nat.le_trans hk hle, heq⟩ }

theorem after {α : Type} (x : Emit α) [Plain x] : Aligned G slot D P held (Emit.after x s) Γ := by
  obtain ⟨k, hk, heq⟩ := Plain.after_eq (x := x) s
  rw [heq]
  exact h.of_eq rfl rfl hk

theorem blank : Aligned G slot D P held s.blank Γ := h.of_eq rfl rfl (Nat.le_refl _)

theorem labelled : Aligned G slot D P held s.labelled Γ := h.of_eq rfl rfl (Nat.le_refl _)

theorem within (labels : LoopLabels) : Aligned G slot D P held (s.within labels) Γ :=
  h.of_eq rfl rfl (Nat.le_refl _)

theorem past : Aligned G slot D P held s.past Γ := h.of_eq rfl rfl (Nat.le_refl _)

theorem unlessOmitted (c : Tree) (done : String) :
    Aligned G slot D P held (Emit.after (Emit.unlessOmitted c done) s) Γ := by
  rw [Emit.unlessOmitted]
  split
  · exact h.after _
  · rw [after_unlessTrue]
    exact h.after _

theorem hold : Aligned G slot D P ((hiddenSlot s).1 :: held) (Emit.after hiddenSlot s) Γ := by
  have hnew := h.after hiddenSlot
  have hnext : (Emit.after hiddenSlot s).nextSlot = s.nextSlot + 1 := by simp
  refine { hnew with held_nodup := nodup_cons.mpr ⟨fun hmem => ?_, h.held_nodup⟩, hidden := ?_ }
  · obtain ⟨k, hk, heq⟩ := h.hidden _ hmem
    have := Slot.hidden_injective (k := s.nextSlot + 1) heq.symm
    omega
  · exact forall_mem_cons.mpr ⟨⟨s.nextSlot + 1, Nat.le_of_eq hnext.symm, rfl⟩, hnew.hidden⟩

theorem enter : Aligned G slot ([] :: D) P held s.enter ([] :: Γ) :=
  { h with
    ne_nil := cons_ne_nil _ _
    scopes_eq := congrArg ([] :: ·) h.scopes_eq
    types_eq := congrArg ([] :: ·) h.types_eq }

theorem leave {scope : List Tree.Declaration} (hin : Aligned G slot (scope :: D) P' held s' Γ') :
    Aligned G slot D P' held s'.leave Γ :=
  { hin with
    ne_nil := h.ne_nil
    scopes_eq := congrArg tail hin.scopes_eq
    types_eq := h.types_eq
    subset := fun _ hd => hin.subset (mem_append_right scope hd)
    slots_nodup := h.slots_nodup }

end

/-! ## Names in scope -/

section

variable (h : Aligned G slot D P held s Γ)

include h

theorem slot?_eq (x : String) : s.slot? x = (resolve? D x).map fun d => slot d.place := by
  rw [State.slot?, h.scopes_eq]
  exact findSome?_lookup_map Tree.Declaration.name _ D x

theorem slotOf_eq (hd : resolve? D x = some d) : s.slotOf x = slot d.place := by
  rw [State.slotOf, h.slot?_eq, hd]
  rfl

/-- **Typing sees the declaration that a name stands for**, and else what is outside of the
function. -/
theorem lookup?_eq (x : String) :
    Γ.lookup? x = ((resolve? D x).map fun d => .var d.ty d.isArray).or (G.lookup? x) := by
  rw [h.types_eq, Scopes.lookup?, findSome?_append]
  exact congrArg (Option.or · _) (findSome?_lookup_map Tree.Declaration.name _ D x)

/-- **No two of the slots in use are the same.** -/
theorem nodup : ((D.flatten.map fun d => slot d.place) ++ held).Nodup := by
  refine nodup_append.mpr ⟨h.slots_nodup, h.held_nodup, ?_⟩
  intro a ha b hb hab
  obtain ⟨d, hd, rfl⟩ := mem_map.mp ha
  obtain ⟨k, -, rfl⟩ := h.hidden b hb
  exact (h.owned d (h.subset hd)).ne_hidden k hab

end

/-! ## New variables -/

theorem slot_ne_newSlot (h : Aligned G slot D P held s Γ) (hx : IsName x) (hd : d ∈ D.flatten) :
    slot d.place ≠ s.newSlot x := by
  intro heq
  have hown := h.owned d (h.subset hd)
  rw [heq] at hown
  obtain ⟨hvis, hplain⟩ := hown.newSlot_eq
  rw [hplain] at hown
  rcases hown.2 with hname | ⟨k, -, hslot⟩
  · have hnone : resolve? D x = none := by simpa [h.slot?_eq] using hvis
    exact ne_of_findSome?_eq_none hnone d hd hname.symm
  · exact Slot.plain_ne_numbered hx hslot

/-- **A new slot is not in use.** -/
theorem newSlot_notMem (h : Aligned G slot D P held s Γ) (hx : IsName x) :
    s.newSlot x ∉ (D.flatten.map fun d => slot d.place) ++ held := by
  intro hmem
  rcases mem_append.mp hmem with hmem | hmem
  · obtain ⟨d, hd, heq⟩ := mem_map.mp hmem
    exact h.slot_ne_newSlot hx hd heq
  · obtain ⟨k, -, heq⟩ := h.hidden _ hmem
    exact (IsSlotOf.newSlot s hx .int).ne_hidden k heq

/-- **The declarations behind a new one.** -/
theorem declare (h : Aligned G slot D P held s Γ) {q : List Nat} {isArray : Bool} (hx : IsName x)
    (hd : Γ.declare? x (.var ty isArray) = some Γ') (hq : slot q = s.newSlot x) :
    Aligned G slot (D.modifyHead (⟨q, x, ty, isArray⟩ :: ·)) (⟨q, x, ty, isArray⟩ :: P) held
      (s.declaredAs x ty) Γ' := by
  obtain ⟨scope, outer, rfl⟩ := exists_cons_of_ne_nil h.ne_nil
  have hle := (extends_declaredAs ty s x).slot_le
  refine ⟨cons_ne_nil _ _, ?_, ?_, ?_, ?_, ?_, ?_, ?_, h.held_nodup, fun x hx => ?_⟩
  · rw [Fits.scopes_declaredAs, s.text_slotFor, h.scopes_eq, ← hq]
    rfl
  · rw [h.types_eq, map_cons, cons_append, Scopes.declare?, Option.ite_none_left_eq_some] at hd
    exact (Option.some.inj hd.2).symm
  · rw [State.doubles_declaredAs, h.doubles_eq]
    by_cases hty : ty = .double <;> simp [hty, hq]
  · exact cons_subset_cons _ h.subset
  · exact forall_mem_cons.mpr ⟨hq ▸ .newSlot s hx ty, fun d hd => (h.owned d hd).mono hle⟩
  · refine nodup_cons.mpr ⟨fun hmem => ?_, h.slots_nodup⟩
    obtain ⟨d, hd, heq⟩ := mem_map.mp hmem
    exact h.slot_ne_newSlot hx hd (heq.trans hq)
  · refine pairwise_cons.mpr ⟨fun d hd heq => ?_, h.apart⟩
    have hown := h.owned d hd
    have hplain := (heq.symm.trans hq ▸ hown).newSlot_eq.2
    obtain ⟨hname, hslot | ⟨k, -, hslot⟩⟩ := hown
    · exact ⟨hq.trans hplain, hslot⟩
    · have hnumbered : x = (Slot.numbered d.name k).text := by rw [← hplain, ← hq, heq, hslot]
      exact absurd hnumbered (Slot.plain_ne_numbered hx)
  · obtain ⟨k, hk, heq⟩ := h.hidden x hx
    exact ⟨k, Nat.le_trans hk hle, heq⟩

/-! ## Slots of doubles -/

theorem name_mem_doubles_iff (h : Aligned G slot D P held s Γ) (hx : IsName x) :
    x ∈ s.doubles ↔ ∃ e ∈ P, e.ty = .double ∧ e.name = x ∧ slot e.place = e.name := by
  simp only [h.doubles_eq, mem_map, mem_filter, decide_eq_true_eq]
  constructor
  · rintro ⟨e, ⟨he, hty⟩, rfl⟩
    obtain ⟨-, hslot | ⟨k, -, hslot⟩⟩ := h.owned e he
    · exact ⟨e, he, hty, hslot.symm, hslot⟩
    · exact absurd hslot (Slot.plain_ne_numbered hx)
  · rintro ⟨e, he, hty, rfl, hslot⟩
    exact ⟨e, ⟨he, hty⟩, hslot⟩

/-- **The slot of a variable is the slot of a double** if the variable is one, or if it has a plain
name that a double had too. -/
theorem mem_doubles_iff (h : Aligned G slot D P held s Γ) (hd : d ∈ P) :
    slot d.place ∈ s.doubles ↔
      d.ty = .double ∨ slot d.place = d.name ∧ ∃ e ∈ P, e.ty = .double ∧ e.name = d.name ∧
      slot e.place = e.name := by
  have hname := (h.owned d hd).1
  constructor
  · intro hmem
    by_cases hplain : slot d.place = d.name
    · rw [hplain, h.name_mem_doubles_iff hname] at hmem
      exact .inr ⟨hplain, hmem⟩
    · -- only plain names are shared
      simp only [h.doubles_eq, mem_map, mem_filter, decide_eq_true_eq] at hmem
      obtain ⟨e, ⟨he, hty⟩, heq⟩ := hmem
      by_cases hed : e = d
      · exact .inl (hed ▸ hty)
      · have hpair := h.apart.forall he hd hed heq
        exact absurd hpair.2 hplain
  · rintro (hty | ⟨hplain, hdouble⟩)
    · simp only [h.doubles_eq, mem_map, mem_filter, decide_eq_true_eq]
      exact ⟨d, ⟨hd, hty⟩, rfl⟩
    · rwa [hplain, h.name_mem_doubles_iff hname]

end Aligned

end Stacklet
