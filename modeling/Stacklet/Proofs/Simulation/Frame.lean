import Mathlib.Data.List.Nodup
import Stacklet.Proofs.Sharing
import Stacklet.Proofs.Slots
/-!
# Variables of the source and slots of the machine

* `Binding`, `Frame`: the variables in scope, each with its type and its slot.
* `Frame.env`: the environment of the source, read off the variables of the machine.
* `Fits`: a frame fits a state of lowering, the scopes of typing and the marks. No two variables
  have the same slot, and a slot counts as one of a `double` if its variable is one, or has the slot
  of an earlier one.
* `Frame.env_alter`, `Fits.env_declare`: storing in a slot is assigning to its variable.
-/

namespace Stacklet

open List

/-! ## Variables of the machine -/

namespace Locals

theorem lookup_alter (L : Locals) (x y : String) (f : Option Value → Value) :
    (L.alter x f).lookup y = if y = x then some (f (L.lookup x)) else L.lookup y := by
  induction L with
  | nil =>
    by_cases hy : y = x
    · simp [alter, hy]
    · simp [alter, hy, lookup_cons, beq_eq_false_iff_ne.mpr hy]
  | cons p L ih =>
    obtain ⟨z, v⟩ := p
    rw [alter]
    by_cases hz : x = z
    · subst hz
      by_cases hy : y = x
      · simp [hy]
      · simp [hy, lookup_cons, beq_eq_false_iff_ne.mpr hy]
    · by_cases hy : y = x
      · subst hy
        simp [hz, lookup_cons, beq_eq_false_iff_ne.mpr hz, ih]
      · simp [hz, hy, lookup_cons, ih]

theorem load_alter_self (L : Locals) (x : String) (f : Option Value → Value) :
    (L.alter x f).load x = f (L.lookup x) := by
  rw [load, lookup_alter, if_pos rfl]
  rfl

theorem load_alter_ne (L : Locals) {x y : String} (f : Option Value → Value) (h : y ≠ x) :
    (L.alter x f).load y = L.load y := by
  rw [load, lookup_alter, if_neg h]
  rfl

theorem load_store_self (L : Locals) (x : String) (v : Value) : (L.store x v).load x = v :=
  load_alter_self L x _

theorem storeAt_load (L : Locals) (x : String) (i : Int64) (v : Value) :
    Value.storeAt (L.lookup x) i v = Value.storeAt (some (L.load x)) i v := by
  unfold load
  cases L.lookup x with
  | some _ => rfl
  | none => unfold Value.storeAt Value.zero; cases Value.position? i <;> rfl

end Locals

/-! ## Names in nested scopes -/

section Nested

variable {α β : Type} (name : β → String) (g : β → α) {scopes : List (List β)} {x : String} {b : β}

theorem lookup_map (scope : List β) (x : String) :
    (scope.map fun b => (name b, g b)).lookup x = (scope.find? fun b => x == name b).map g := by
  induction scope with
  | nil => rfl
  | cons b scope ih =>
    rw [map_cons, lookup_cons, find?_cons, ih]
    cases x == name b <;> rfl

theorem findSome?_lookup_map (scopes : List (List β)) (x : String) :
    (scopes.map fun scope => scope.map fun b => (name b, g b)).findSome?
      (fun scope => scope.lookup x) =
      (scopes.findSome? fun scope => scope.find? fun b => x == name b).map g := by
  induction scopes with
  | nil => rfl
  | cons scope scopes ih =>
    rw [map_cons, findSome?_cons, findSome?_cons, ih, lookup_map]
    cases scope.find? (fun b => x == name b) <;> rfl

variable {name}

theorem mem_of_findSome? (h : (scopes.findSome? fun scope => scope.find? fun b => x == name b) =
      some b) :
    b ∈ scopes.flatten ∧ name b = x := by
  obtain ⟨scope, hscope, hb⟩ := exists_of_findSome?_eq_some h
  refine ⟨mem_flatten.mpr ⟨scope, hscope, mem_of_find?_eq_some hb⟩, ?_⟩
  have hx := find?_some hb
  exact (beq_iff_eq.mp hx).symm

theorem ne_of_findSome?_eq_none
    (h : (scopes.findSome? fun scope => scope.find? fun b => x == name b) = none) :
    ∀ b ∈ scopes.flatten, name b ≠ x := by
  rintro b hb rfl
  obtain ⟨scope, hscope, hb⟩ := mem_flatten.mp hb
  have hnone := findSome?_eq_none_iff.mp h scope hscope
  exact find?_eq_none.mp hnone b hb (beq_self_eq_true (name b))

end Nested

/-! ## Frames -/

/-- A variable in scope. It is stale if it is no `double` but has the slot of an earlier one. -/
structure Binding where
  name : String
  ty : Ty
  isArray : Bool
  slot : Slot
  stale : Bool

/-- The variables in scope, the innermost scope first. -/
abbrev Frame := List (List Binding)

namespace Frame

variable {α : Type} {Δ : Frame} {x : String} {b : Binding}

def lookup? (Δ : Frame) (x : String) : Option Binding :=
  Δ.findSome? fun scope => scope.find? fun b => x == b.name

/-- The names in scope, each with something of its variable. -/
def view (Δ : Frame) (g : Binding → α) : List (List (String × α)) :=
  Δ.map fun scope => scope.map fun b => (b.name, g b)

def env (Δ : Frame) (L : Locals) : Environment :=
  Δ.view fun b => ⟨b.ty = .double, L.load b.slot.text⟩

def declare (Δ : Frame) (b : Binding) : Frame := Δ.modifyHead (b :: ·)

theorem findSome?_view (Δ : Frame) (g : Binding → α) (x : String) :
    (Δ.view g).findSome? (fun scope => scope.lookup x) = (Δ.lookup? x).map g :=
  findSome?_lookup_map Binding.name g Δ x

theorem mem_of_lookup? (h : Δ.lookup? x = some b) : b ∈ Δ.flatten ∧ b.name = x := mem_of_findSome? h

theorem name_ne_of_lookup? (h : Δ.lookup? x = none) : ∀ b ∈ Δ.flatten, b.name ≠ x :=
  ne_of_findSome?_eq_none h

theorem lookup?_env (L : Locals) (h : Δ.lookup? x = some b) :
    (Δ.env L).lookup? x = some ⟨b.ty = .double, L.load b.slot.text⟩ := by
  rw [Environment.lookup?, env, findSome?_view, h]
  rfl

/-! ## Stores -/

section Stores

variable (L : Locals) (y : String) (f : Option Value → Value)

theorem env_alter_of_notMem (h : ∀ b ∈ Δ.flatten, b.slot.text ≠ y) :
    Δ.env (L.alter y f) = Δ.env L := by
  refine map_congr_left fun scope hscope => map_congr_left fun b hb => ?_
  dsimp only
  rw [L.load_alter_ne f (h b (mem_flatten.mpr ⟨scope, hscope, hb⟩))]

theorem updateScope_map {scope : List Binding} (g : Value → Value)
    (hb : scope.find? (fun b => x == b.name) = some b) (hs : (scope.map fun b => b.slot.text).Nodup)
    (hf : f (L.lookup b.slot.text) = g (L.load b.slot.text)) :
    Environment.updateScope x g
      (scope.map fun b => (b.name, ⟨b.ty = .double, L.load b.slot.text⟩)) =
      scope.map fun b' =>
        (b'.name, ⟨b'.ty = .double, (L.alter b.slot.text f).load b'.slot.text⟩) := by
  induction scope with
  | nil => cases hb
  | cons b' scope ih =>
    rw [map_cons, nodup_cons] at hs
    rw [map_cons, map_cons, Environment.updateScope]
    by_cases hx : x = b'.name
    · obtain rfl : b' = b := by simpa [hx] using hb
      rw [if_pos hx, L.load_alter_self, hf]
      refine congrArg _ (map_congr_left fun b hb => ?_)
      rw [L.load_alter_ne f fun h => hs.1 (mem_map.mpr ⟨b, hb, h⟩)]
    · rw [find?_cons, beq_eq_false_iff_ne.mpr hx] at hb
      have hne : b'.slot.text ≠ b.slot.text := fun h =>
        hs.1 (mem_map.mpr ⟨b, mem_of_find?_eq_some hb, h.symm⟩)
      rw [if_neg hx, ih hb hs.2, L.load_alter_ne f hne]

/-- **Storing in the slot of a variable** is assigning to the variable. -/
theorem env_alter (g : Value → Value) (hb : Δ.lookup? x = some b)
    (hs : (Δ.flatten.map fun b => b.slot.text).Nodup)
    (hf : f (L.lookup b.slot.text) = g (L.load b.slot.text)) :
    Δ.env (L.alter b.slot.text f) = (Δ.env L).update x g := by
  induction Δ with
  | nil => cases hb
  | cons scope Δ ih =>
    rw [flatten_cons, map_append, nodup_append] at hs
    obtain ⟨hscope, houter, hdisjoint⟩ := hs
    rw [lookup?, findSome?_cons] at hb
    show _ = Environment.update x g ((scope.map _) :: env Δ L)
    rw [Environment.update, lookup_map Binding.name]
    cases hfind : scope.find? fun b => x == b.name with
    | some b' =>
      rw [hfind] at hb
      obtain rfl : b' = b := Option.some.inj hb
      have hmem : b'.slot.text ∈ scope.map fun b => b.slot.text :=
        mem_map.mpr ⟨b', mem_of_find?_eq_some hfind, rfl⟩
      have hother : ∀ b ∈ Δ.flatten, b.slot.text ≠ b'.slot.text := fun b hb heq =>
        hdisjoint _ hmem _ (mem_map.mpr ⟨b, hb, rfl⟩) heq.symm
      rw [Option.map_some, Option.isSome_some, if_pos rfl, updateScope_map L f g hfind hscope hf]
      exact congrArg _ (env_alter_of_notMem L _ f hother)
    | none =>
      rw [hfind] at hb
      have hmem : b.slot.text ∈ Δ.flatten.map fun b => b.slot.text :=
        mem_map.mpr ⟨b, (mem_of_lookup? hb).1, rfl⟩
      have hother : ∀ b' ∈ [scope].flatten, b'.slot.text ≠ b.slot.text := fun b' hb' heq =>
        hdisjoint _ (mem_map.mpr ⟨b', by simpa using hb', rfl⟩) _ hmem heq
      rw [Option.map_none, Option.isSome_none, if_neg Bool.false_ne_true, ← ih hb houter]
      exact congrArg (fun scopes => scopes ++ env Δ _) (env_alter_of_notMem L b.slot.text f hother)

end Stores

end Frame

/-! ## Frames that fit -/

/-- The slot of a variable that is declared next. -/
def Emit.State.slotFor (s : Emit.State) (x : String) : Slot :=
  if (s.slot? x).isSome then .numbered x (s.nextSlot + 1) else .plain x

theorem Emit.State.text_slotFor (s : Emit.State) (x : String) :
    (s.slotFor x).text = s.newSlot x := by
  unfold slotFor newSlot
  split <;> rfl

/-- A frame fits what lowering, typing and marking know of the names in scope. The functions `G` are
around it. -/
structure Fits (arity : String → Option Nat) (G : Scopes) (Δ : Frame) (s : Emit.State) (Γ : Scopes)
    (M : Marks) :
    Prop where
  ready : Emit.Ready arity s Γ
  functions : G.FunctionsOnly
  ne_nil : Δ ≠ []
  scopes_eq : s.scopes = Δ.view fun b => b.slot.text
  types_eq : Γ = (Δ.view fun b => .var b.ty b.isArray) ++ G
  marks_eq : M.scopes = Δ.view Binding.stale
  slots_nodup : (Δ.flatten.map fun b => b.slot.text).Nodup
  owned : ∀ b ∈ Δ.flatten, IsName b.name ∧
    (b.slot = .plain b.name ∨ ∃ k, k ≤ s.nextSlot ∧ b.slot = .numbered b.name k)
  doubles_eq : ∀ b ∈ Δ.flatten, s.doubles.contains b.slot.text = (b.stale || b.ty = .double)
  plain_eq : ∀ x, IsName x → s.doubles.contains x = M.doubles.contains x
  numbered_le : ∀ x k, IsName x → s.doubles.contains (Slot.numbered x k).text → k ≤ s.nextSlot

namespace Fits

variable {arity : String → Option Nat} {G : Scopes} {Δ Δ' : Frame} {s s' : Emit.State}
  {Γ Γ' : Scopes} {M M' : Marks}
  {x : String}

section

variable (h : Fits arity G Δ s Γ M)

include h

theorem of_eq (hf : s'.functions = s.functions) (hv : s'.valued = s.valued)
    (hs : s'.scopes = s.scopes) (hd : s'.doubles = s.doubles) (hle : s.nextSlot ≤ s'.nextSlot) :
    Fits arity G Δ s' Γ M where
  ready := h.ready.of_eq hf hv
  functions := h.functions
  ne_nil := h.ne_nil
  scopes_eq := hs.trans h.scopes_eq
  types_eq := h.types_eq
  marks_eq := h.marks_eq
  slots_nodup := h.slots_nodup
  owned b hb := by
    obtain ⟨hname, hslot⟩ := h.owned b hb
    refine ⟨hname, hslot.imp_right ?_⟩
    rintro ⟨k, hk, heq⟩
    exact ⟨k, Nat.le_trans hk hle, heq⟩
  doubles_eq := hd ▸ h.doubles_eq
  plain_eq := hd ▸ h.plain_eq
  numbered_le x k hx hmem := Nat.le_trans (h.numbered_le x k hx (hd ▸ hmem)) hle

theorem after {α : Type} (x : Emit α) [Emit.Plain x] : Fits arity G Δ (Emit.after x s) Γ M := by
  obtain ⟨k, hk, heq⟩ := Emit.Plain.after_eq (x := x) s
  rw [heq]
  exact h.of_eq rfl rfl rfl rfl hk

theorem labelled : Fits arity G Δ s.labelled Γ M := h.of_eq rfl rfl rfl rfl (Nat.le_refl _)

theorem within (labels : LoopLabels) : Fits arity G Δ (s.within labels) Γ M :=
  h.of_eq rfl rfl rfl rfl (Nat.le_refl _)

theorem past : Fits arity G Δ s.past Γ M := h.of_eq rfl rfl rfl rfl (Nat.le_refl _)

theorem enter : Fits arity G ([] :: Δ) s.enter ([] :: Γ) M.enter where
  ready := h.ready.enter
  functions := h.functions
  ne_nil := cons_ne_nil _ _
  scopes_eq := congrArg ([] :: ·) h.scopes_eq
  types_eq := congrArg ([] :: ·) h.types_eq
  marks_eq := congrArg ([] :: ·) h.marks_eq
  slots_nodup := h.slots_nodup
  owned := h.owned
  doubles_eq := h.doubles_eq
  plain_eq := h.plain_eq
  numbered_le := h.numbered_le

theorem leave (h' : Fits arity G Δ' s' Γ' M') (htail : Δ'.tail = Δ)
    (hf : s'.functions = s.functions) (hv : s'.valued = s.valued) :
    Fits arity G Δ s'.leave Γ M'.leave := by
  obtain ⟨scope, rfl⟩ : ∃ scope, Δ' = scope :: Δ :=
    ⟨Δ'.head h'.ne_nil, by rw [← htail, cons_head_tail]⟩
  have hsub : ∀ b ∈ Δ.flatten, b ∈ (scope :: Δ).flatten := fun b hb => mem_append_right _ hb
  exact {
    ready := h.ready.of_eq hf hv
    functions := h.functions
    ne_nil := h.ne_nil
    scopes_eq := congrArg tail h'.scopes_eq
    types_eq := h.types_eq
    marks_eq := congrArg tail h'.marks_eq
    slots_nodup := h'.slots_nodup.sublist ((sublist_append_right _ _).map _)
    owned := fun b hb => h'.owned b (hsub b hb)
    doubles_eq := fun b hb => h'.doubles_eq b (hsub b hb)
    plain_eq := h'.plain_eq
    numbered_le := h'.numbered_le }

end

/-! ## Names in scope -/

section

variable (h : Fits arity G Δ s Γ M)

include h

theorem slot?_eq (x : String) : s.slot? x = (Δ.lookup? x).map fun b => b.slot.text := by
  rw [Emit.State.slot?, h.scopes_eq]
  exact Δ.findSome?_view _ x

theorem marks_lookup? (x : String) : M.lookup? x = (Δ.lookup? x).map Binding.stale := by
  rw [Marks.lookup?, h.marks_eq]
  exact Δ.findSome?_view _ x

theorem exists_lookup? {ty : Ty} {isArray : Bool}
    (hx : Γ.lookup? x = some (.var ty isArray)) : ∃ b, Δ.lookup? x = some b ∧ b.ty = ty := by
  rw [h.types_eq, Scopes.lookup?, findSome?_append, Frame.findSome?_view] at hx
  cases hb : Δ.lookup? x with
  | some b =>
    rw [hb] at hx
    cases hx
    exact ⟨b, rfl, rfl⟩
  | none =>
    rw [hb] at hx
    obtain ⟨_, _, he⟩ := h.functions x _ hx
    cases he

theorem slotOf_eq {b : Binding} (hb : Δ.lookup? x = some b) : s.slotOf x = b.slot.text := by
  rw [Emit.State.slotOf, h.slot?_eq, hb]
  rfl

/-- Where an assignment is allowed, its variable counts as a `double` if it is one, or no literal is
assigned. -/
theorem marked_of_allows {b : Binding} (hb : Δ.lookup? x = some b) {t target value : Tree}
    (ht : t.kind = .assign ∧ t.children = [target, value]) (hx : Marks.assigned target = x)
    (hallows : M.allows t) :
    widened? value = none ∨ s.doubles.contains b.slot.text = decide (b.ty = .double) := by
  obtain ⟨kind, text, isArray, loc, children⟩ := t
  obtain ⟨rfl, rfl⟩ : kind = .assign ∧ children = [target, value] := ht
  have hold : (widened? value).isNone || M.lookup? (Marks.assigned target) != some true := hallows
  rw [hx, h.marks_lookup?, hb] at hold
  rw [h.doubles_eq b (Frame.mem_of_lookup? hb).1]
  cases hstale : b.stale with
  | false => exact .inr (Bool.false_or _)
  | true => exact .inl (by simpa [hstale] using hold)

theorem named {b : Binding} (hb : b ∈ Δ.flatten) : b.slot.Named := by
  obtain ⟨hname, heq | ⟨k, -, heq⟩⟩ := h.owned b hb
  · rw [heq]
    exact hname
  · rw [heq]
    exact hname

theorem text_ne_hidden {b : Binding} (hb : b ∈ Δ.flatten) (k : Nat) :
    b.slot.text ≠ (Slot.hidden k).text := by
  intro heq
  have hslot := Slot.text_injective (b := .hidden k) (h.named hb) trivial heq
  obtain ⟨-, heq | ⟨_, -, heq⟩⟩ := h.owned b hb
  · cases hslot.symm.trans heq
  · cases hslot.symm.trans heq

theorem env_store_hidden (L : Locals) (k : Nat) (v : Value) :
    Δ.env (L.store (Slot.hidden k).text v) = Δ.env L :=
  Frame.env_alter_of_notMem L _ _ fun _ hb => h.text_ne_hidden hb k

end

/-! ## New variables -/

theorem isSome_slot? (h : Fits arity G Δ s Γ M) (x : String) :
    (s.slot? x).isSome = !(M.lookup? x).isNone := by
  rw [h.slot?_eq, h.marks_lookup?]
  cases Δ.lookup? x <;> rfl

/-- **A new variable has a slot of its own.** -/
theorem text_ne_newSlot (h : Fits arity G Δ s Γ M) (hx : IsName x) {b : Binding}
    (hb : b ∈ Δ.flatten) :
    b.slot.text ≠ s.newSlot x := by
  intro heq
  rw [← s.text_slotFor] at heq
  have hnamed : (s.slotFor x).Named := by
    unfold Emit.State.slotFor
    split <;> exact hx
  have hslot := Slot.text_injective (h.named hb) hnamed heq
  obtain ⟨-, hown⟩ := h.owned b hb
  rw [hslot] at hown
  unfold Emit.State.slotFor at hown
  by_cases hvis : (s.slot? x).isSome
  · rw [if_pos hvis] at hown
    rcases hown with hown | ⟨k, hk, hown⟩
    · cases hown
    · cases hown
      exact Nat.not_succ_le_self _ hk
  · rw [if_neg hvis] at hown
    rcases hown with hown | ⟨k, -, hown⟩
    · have hnone : Δ.lookup? x = none := by simpa [h.slot?_eq] using hvis
      exact Frame.name_ne_of_lookup? hnone b hb (Slot.plain.inj hown).symm
    · cases hown

theorem contains_declaredAs (s : Emit.State) (x y : String) (ty : Ty) :
    (s.declaredAs x ty).doubles.contains y =
      (decide (ty = .double) && y == s.newSlot x || s.doubles.contains y) := by
  unfold Emit.State.declaredAs
  by_cases hty : ty = .double
  · simp [hty]
    rfl
  · simp [hty]
    rfl

theorem contains_newSlot (h : Fits arity G Δ s Γ M) (hx : IsName x) (ty : Ty) :
    (s.declaredAs x ty).doubles.contains (s.newSlot x) =
      (M.isStale x (ty = .double) || ty = .double) := by
  rw [contains_declaredAs]
  by_cases hty : ty = .double
  · simp [hty]
  · have hold : s.doubles.contains (s.newSlot x) =
        ((M.lookup? x).isNone && M.doubles.contains x) := by
      unfold Emit.State.newSlot
      rw [h.isSome_slot?]
      cases hnone : (M.lookup? x).isNone with
      | true => exact h.plain_eq x hx
      | false =>
        rw [Bool.false_and, ← Bool.not_eq_true]
        intro hmem
        exact Nat.not_succ_le_self _ (h.numbered_le x (s.nextSlot + 1) hx hmem)
    rw [hold, Marks.isStale, decide_eq_false hty]
    simp

theorem nextSlot_declaredAs (s : Emit.State) (x : String) (ty : Ty) :
    (s.declaredAs x ty).nextSlot = if (s.slot? x).isSome then s.nextSlot + 1 else s.nextSlot := by
  unfold Emit.State.declaredAs
  split <;> rfl

theorem scopes_declaredAs (s : Emit.State) (x : String) (ty : Ty) :
    (s.declaredAs x ty).scopes = s.scopes.modifyHead ((x, (s.slotFor x).text) :: ·) := by
  rw [s.text_slotFor]
  unfold Emit.State.declaredAs
  split <;> rfl

theorem plain_declaredAs (h : Fits arity G Δ s Γ M) (x : String) (ty : Ty) {y : String}
    (hy : IsName y) :
    (s.declaredAs x ty).doubles.contains y = (M.declare x (ty = .double)).doubles.contains y := by
  rw [contains_declaredAs, h.plain_eq y hy, Marks.declare]
  have hvis := h.isSome_slot? x
  cases hnone : (M.lookup? x).isNone with
  | true =>
    have hslot : s.newSlot x = x := by simp [Emit.State.newSlot, hvis, hnone]
    rw [hslot, Bool.and_true]
    by_cases hty : ty = .double
    · subst hty
      rfl
    · rw [decide_eq_false hty]
      rfl
  | false =>
    have hslot : y ≠ s.newSlot x := by
      rw [← s.text_slotFor, Emit.State.slotFor, hvis, hnone]
      exact Slot.plain_ne_numbered hy
    rw [beq_eq_false_iff_ne.mpr hslot, Bool.and_false]
    rfl

theorem numbered_declaredAs (h : Fits arity G Δ s Γ M) (hx : IsName x) (ty : Ty) {y : String}
    {k : Nat} (hy : IsName y)
    (hmem : (s.declaredAs x ty).doubles.contains (Slot.numbered y k).text) :
    k ≤ (s.declaredAs x ty).nextSlot := by
  rw [contains_declaredAs, Bool.or_eq_true, Bool.and_eq_true, beq_iff_eq] at hmem
  rcases hmem with ⟨-, heq⟩ | hmem
  · rw [← s.text_slotFor, Emit.State.slotFor] at heq
    rw [nextSlot_declaredAs]
    split at heq
    · next hvis =>
      rw [if_pos hvis]
      exact Nat.le_of_eq (Slot.numbered_injective hy heq).2
    · exact absurd heq.symm (Slot.plain_ne_numbered hx)
  · exact Nat.le_trans (h.numbered_le y k hy hmem) (Emit.extends_declaredAs ty s x).slot_le

theorem types_declare (h : Fits arity G Δ s Γ M) {e : Entry} (hd : Γ.declare? x e = some Γ') :
    Γ' = ((Δ.view fun b => .var b.ty b.isArray).modifyHead ((x, e) :: ·)) ++ G := by
  obtain ⟨scope, outer, rfl⟩ := exists_cons_of_ne_nil h.ne_nil
  rw [h.types_eq, Frame.view, map_cons, cons_append, Scopes.declare?,
    Option.ite_none_left_eq_some] at hd
  exact (Option.some.inj hd.2).symm

end Fits

/-- A variable that is declared next. -/
def Binding.next (s : Emit.State) (M : Marks) (x : String) (ty : Ty) (isArray : Bool) : Binding :=
  ⟨x, ty, isArray, s.slotFor x, M.isStale x (ty = .double)⟩

theorem Frame.view_declare {α : Type} {Δ : Frame} (h : Δ ≠ []) (b : Binding) (g : Binding → α) :
    (Δ.declare b).view g = (Δ.view g).modifyHead ((b.name, g b) :: ·) := by
  obtain ⟨scope, outer, rfl⟩ := exists_cons_of_ne_nil h
  rfl

theorem Frame.flatten_declare {Δ : Frame} (h : Δ ≠ []) (b : Binding) :
    (Δ.declare b).flatten = b :: Δ.flatten := by
  obtain ⟨scope, outer, rfl⟩ := exists_cons_of_ne_nil h
  rfl

theorem Frame.tail_declare (Δ : Frame) (b : Binding) : (Δ.declare b).tail = Δ.tail :=
  tail_modifyHead ..

namespace Fits

variable {arity : String → Option Nat} {G : Scopes} {Δ : Frame} {s : Emit.State} {Γ Γ' : Scopes}
  {M : Marks}
  {x : String}

/-- **The frame behind a declaration.** -/
theorem declare (h : Fits arity G Δ s Γ M) (hx : IsName x) {ty : Ty} {isArray : Bool}
    (hty : ty.IsValue) (hd : Γ.declare? x (.var ty isArray) = some Γ') :
    Fits arity G (Δ.declare (.next s M x ty isArray)) (s.declaredAs x ty) Γ'
      (M.declare x (ty = .double)) where
  ready := (h.ready.extend (Emit.extends_declaredAs ty s x)).adds (.declare hd hty)
  functions := h.functions
  ne_nil := by
    obtain ⟨scope, outer, rfl⟩ := exists_cons_of_ne_nil h.ne_nil
    exact cons_ne_nil _ _
  scopes_eq := by
    rw [scopes_declaredAs, h.scopes_eq, Frame.view_declare h.ne_nil]
    rfl
  types_eq := by
    rw [h.types_declare hd, Frame.view_declare h.ne_nil]
    rfl
  marks_eq := by
    rw [Marks.declare, h.marks_eq, Frame.view_declare h.ne_nil]
    rfl
  slots_nodup := by
    rw [Frame.flatten_declare h.ne_nil, map_cons, nodup_cons, mem_map]
    refine ⟨?_, h.slots_nodup⟩
    rintro ⟨b, hb, heq⟩
    exact h.text_ne_newSlot hx hb (heq.trans (s.text_slotFor x))
  owned := by
    rw [Frame.flatten_declare h.ne_nil, forall_mem_cons]
    refine ⟨⟨hx, ?_⟩, fun b hb => ?_⟩
    · show s.slotFor x = _ ∨ ∃ k, _ ∧ s.slotFor x = _
      rw [nextSlot_declaredAs, Emit.State.slotFor]
      split
      · exact .inr ⟨_, Nat.le_refl _, rfl⟩
      · exact .inl rfl
    · obtain ⟨hname, hslot⟩ := h.owned b hb
      refine ⟨hname, hslot.imp_right ?_⟩
      rintro ⟨k, hk, heq⟩
      exact ⟨k, Nat.le_trans hk (Emit.extends_declaredAs ty s x).slot_le, heq⟩
  doubles_eq := by
    rw [Frame.flatten_declare h.ne_nil, forall_mem_cons]
    refine ⟨?_, fun b hb => ?_⟩
    · show (s.declaredAs x ty).doubles.contains (s.slotFor x).text = _
      rw [s.text_slotFor]
      exact h.contains_newSlot hx ty
    · rw [contains_declaredAs, beq_eq_false_iff_ne.mpr (h.text_ne_newSlot hx hb), Bool.and_false,
        Bool.false_or]
      exact h.doubles_eq b hb
  plain_eq y hy := h.plain_declaredAs x ty hy
  numbered_le y k hy hmem := h.numbered_declaredAs hx ty hy hmem

theorem env_declare (h : Fits arity G Δ s Γ M) (x : String) (ty : Ty) (isArray : Bool)
    (L : Locals) :
    (Δ.declare (.next s M x ty isArray)).env L =
      (Δ.env L).declare x ⟨ty = .double, L.load (s.newSlot x)⟩ := by
  rw [Frame.env, Frame.view_declare h.ne_nil, ← s.text_slotFor]
  rfl

theorem env_declare_store (h : Fits arity G Δ s Γ M) (hx : IsName x) (ty : Ty) (isArray : Bool)
    (L : Locals) (v : Value) :
    (Δ.declare (.next s M x ty isArray)).env (L.store (s.newSlot x) v) =
      (Δ.env L).declare x ⟨ty = .double, v⟩ := by
  have hold : Δ.env (L.store (s.newSlot x) v) = Δ.env L :=
    Frame.env_alter_of_notMem L _ _ fun b hb => h.text_ne_newSlot hx hb
  rw [h.env_declare, hold, L.load_store_self]

end Fits

end Stacklet
