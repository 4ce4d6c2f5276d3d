import Stacklet.Proofs.Emission.Forms
import Stacklet.Proofs.Labels
/-!
# Stack heights of code

Heights are found by going through code once from its start, without following jumps: wherever code
can be jumped to, the height must be zero.

* `heightBehind?`: the height behind code that begins at a given height, if its instructions find
  their operands. `Rises`: its graph, and the rules for code in a row.
* `Emit.Ready`: scopes whose functions the code of a program has.
* `HasType.rises`, `Typed.rises`: the code of an expression puts its value on the stack if it is
  wanted, and the code of a statement leaves the stack as high as it was. Only an index may not be
  taken of a call that has no value (`Tree.indexesValue`).
* `TypedFunction.rises`, `TypedItems.rises`: the code of functions and programs.
-/

namespace Stacklet

open Stacklet.Tree List

variable {s : Emit.State} {f : String} {c t : Tree} {ty : Ty}

/-! ## Heights -/

section Heights

variable (arity : String → Option Nat)

/-- The height at an instruction. Functions begin with their arguments on the stack. -/
def Instr.heightAt (h : Nat) : Instr → Nat
  | .label f => (arity f).getD h
  | _ => h

/-- The height behind an instruction at a height that takes and gives its operands; none if they are
missing. -/
def Instr.heightOnward? (i : Instr) (h : Nat) : Option Nat :=
  if i.takes ≤ h then some (h - i.takes + i.gives) else none

/-- The height behind an instruction at a height; none if it cannot stand there. -/
def Instr.heightBehind? (h : Nat) : Instr → Option Nat
  | .jump _ => if h = 0 then some 0 else none
  | .jumpIfZero _ | .ret => if h = 1 then some 0 else none
  | .label l => if (arity l).isSome ∨ h = 0 then some h else none
  | .call f =>
    if (Builtin.ofName? f).isSome then Instr.heightOnward? (.call f) h
    else (arity f).bind fun n => if n ≤ h then some (h - n + 1) else none
  | i => i.heightOnward? h

/-- The height behind code that begins at a height; none if an instruction cannot stand where it
stands. -/
def heightBehind? : Nat → List Instr → Option Nat
  | h, [] => some h
  | h, i :: c => (i.heightBehind? arity (i.heightAt arity h)).bind fun h' => heightBehind? h' c

/-- Code that leads from one height to another. -/
def Rises (h : Nat) (c : List Instr) (h' : Nat) : Prop := heightBehind? arity h c = some h'

end Heights

theorem heightBehind?_append (arity : String → Option Nat) (h : Nat) (c c' : List Instr) :
    heightBehind? arity h (c ++ c') = (heightBehind? arity h c).bind fun h' =>
      heightBehind? arity h' c' := by
  induction c generalizing h with
  | nil => rfl
  | cons i c ih =>
    rw [cons_append, heightBehind?, heightBehind?, Option.bind_assoc]
    exact congrArg _ (funext fun h' => ih h')

namespace Rises

variable {arity : String → Option Nat} {h h' h'' : Nat} {c c' : List Instr}

theorem nil : Rises arity h [] h := rfl

theorem append (hc : Rises arity h c h') (hc' : Rises arity h' c' h'') :
    Rises arity h (c ++ c') h'' := by
  rw [Rises, heightBehind?_append, hc]
  exact hc'

theorem cons {i : Instr} (hi : Rises arity h [i] h') (hc : Rises arity h' c h'') :
    Rises arity h (i :: c) h'' :=
  hi.append hc

theorem exists_of_append (hc : Rises arity h (c ++ c') h'') :
    ∃ h', Rises arity h c h' ∧ Rises arity h' c' h'' := by
  rw [Rises, heightBehind?_append] at hc
  exact Option.bind_eq_some_iff.mp hc

theorem single {i : Instr} (hi : i.heightBehind? arity (i.heightAt arity h) = some h') :
    Rises arity h [i] h' := by
  rw [Rises, heightBehind?, hi]
  rfl

theorem onward (i : Instr) (hs : i.isStraight) (ho : i.goesOn) (ht : i.takes ≤ h) :
    Rises arity h [i] (h - i.takes + i.gives) := by
  refine single ?_
  have hbehind : i.heightOnward? h = some (h - i.takes + i.gives) := if_pos ht
  cases i with
  | call f => exact (if_pos ho).trans hbehind
  | label | jump | jumpIfZero | ret => cases hs
  | _ => exact hbehind

theorem call {n : Nat} (hb : Builtin.ofName? f = none) (hf : arity f = some n) :
    Rises arity (h + n) [.call f] (h + 1) := by
  refine single ?_
  simp [Instr.heightBehind?, Instr.heightAt, hb, hf]

theorem label {l : String} (hl : arity l = none) : Rises arity 0 [.label l] 0 := by
  refine single ?_
  simp [Instr.heightBehind?, Instr.heightAt, hl]

theorem entry {n : Nat} (hf : arity f = some n) : Rises arity h [.label f] n := by
  refine single ?_
  simp [Instr.heightBehind?, Instr.heightAt, hf]

theorem jump (l : String) : Rises arity 0 [.jump l] 0 := rfl

theorem jumpIfZero (l : String) : Rises arity 1 [.jumpIfZero l] 0 := rfl

theorem ret : Rises arity 1 [.ret] 0 := rfl

end Rises

/-! ## Values under an index -/

namespace Tree

mutual

/-- Whether something holds of a tree and all trees in it. -/
def all (p : Tree → Bool) : Tree → Bool
  | ⟨kind, text, isArray, loc, children⟩ =>
    p ⟨kind, text, isArray, loc, children⟩ && allOf p children

def allOf (p : Tree → Bool) : List Tree → Bool
  | [] => true
  | t :: ts => all p t && allOf p ts

end

/-- What a chain of indices begins with. -/
def chainBase : Tree → Tree
  | ⟨.index, _, _, _, base :: _⟩ => chainBase base
  | t => t

/-- Whether a tree is a call of a built-in function without a value. -/
def callsVoid (t : Tree) : Bool :=
  t.kind == .call && (t.children.head?.bind fun f => Builtin.ofName? f.text).any fun b =>
    b.returns == .void

/-- Whether a tree is no index of a call without a value. -/
def indexesValue (t : Tree) : Bool := !(t.kind == .index && t.chainBase.callsVoid)

variable {p : Tree → Bool}

theorem all_iff : t.all p ↔ p t ∧ ∀ c ∈ t.children, c.all p := by
  obtain ⟨kind, text, isArray, loc, children⟩ := t
  have hall : ∀ ts : List Tree, allOf p ts ↔ ∀ c ∈ ts, c.all p := by
    intro ts
    induction ts with
    | nil => simp [allOf]
    | cons t ts ih => simp [allOf, ih]
  rw [all, Bool.and_eq_true, hall]

theorem all_of_mem (h : t.all p) (hc : c ∈ t.children) : c.all p := (all_iff.mp h).2 c hc

end Tree

/-! ## Scopes and the functions of a program -/

namespace Emit

/-- Scopes whose functions the code of a program has. -/
structure Ready (arity : String → Option Nat) (s : State) (Γ : Scopes) : Prop where
  known : Γ.Known
  builtin : ∀ f b ty params, Γ.lookup? f = some (.function ty params) → Builtin.ofName? f = some b →
    ty = b.returns ∧ params.length = b.params.length
  function : ∀ f ty params, Γ.lookup? f = some (.function ty params) → Builtin.ofName? f = none →
    arity f = some params.length ∧ f ∈ s.valued ∧ ty ≠ .void
  label : ∀ l, l ∉ s.functions → arity l = none

namespace Ready

variable {arity : String → Option Nat} {s s' : State} {Γ Γ' : Scopes}

section

variable (h : Ready arity s Γ)

include h

theorem of_eq (hf : s'.functions = s.functions) (hv : s'.valued = s.valued) : Ready arity s' Γ :=
  ⟨h.known, h.builtin, fun f ty params hf hb => hv ▸ h.function f ty params hf hb,
    fun l hl => h.label l (hf ▸ hl)⟩

theorem extend (hs : s.Extends s') : Ready arity s' Γ := h.of_eq hs.functions_eq hs.valued_eq

theorem after {α : Type} (x : Emit α) [Steady x] : Ready arity (after x s) Γ :=
  h.extend (Steady.extend s)

theorem labelled : Ready arity s.labelled Γ := h.extend (extends_labelled s)

theorem within (labels : LoopLabels) : Ready arity (s.within labels) Γ := h.of_eq rfl rfl

theorem past : Ready arity s.past Γ := h.of_eq rfl rfl

theorem adds (hΓ : Γ.Adds Γ') : Ready arity s Γ' where
  known x e hx := by
    rcases hΓ x e hx with hx | ⟨ty, _, rfl, hty⟩
    · exact h.known x e hx
    · exact hty
  builtin f b ty params hf := by
    rcases hΓ f _ hf with hf | ⟨_, _, he, _⟩
    · exact h.builtin f b ty params hf
    · cases he
  function f ty params hf := by
    rcases hΓ f _ hf with hf | ⟨_, _, he, _⟩
    · exact h.function f ty params hf
    · cases he
  label := h.label

theorem enter : Ready arity s.enter ([] :: Γ) := ⟨h.known, h.builtin, h.function, h.label⟩

theorem params_isValue {params : List (Ty × Bool)}
    (hf : Γ.lookup? f = some (.function ty params)) : ∀ p ∈ params, p.1.IsValue :=
  (h.known f _ hf).2

theorem leavesValue_eq {params : List (Ty × Bool)}
    (hf : Γ.lookup? f = some (.function ty params)) : s.leavesValue f = (ty != .void) := by
  unfold State.leavesValue
  cases hb : Builtin.ofName? f with
  | some b => rw [(h.builtin f b ty params hf hb).1]
  | none =>
    obtain ⟨-, hvalued, hty⟩ := h.function f ty params hf hb
    simp [hvalued, hty]

end

end Ready

end Emit

/-! ## Expressions -/

/-- The height behind an expression at a height. -/
def Demand.above (d : Demand) (h : Nat) : Nat := if d = .effect then h else h + 1

@[simp] theorem Demand.ofDouble_ne_effect (b : Bool) : Demand.ofDouble b ≠ .effect := by
  cases b <;> exact nofun

@[simp] theorem Demand.above_ofDouble (b : Bool) (h : Nat) : (Demand.ofDouble b).above h = h + 1 :=
  if_neg (Demand.ofDouble_ne_effect b)

@[simp] theorem Demand.above_plain (d : Demand) (h : Nat) :
    d.plain.above h = d.above h := by cases d <;> rfl

theorem Demand.plain_ne_effect {d : Demand} (h : d.plain ≠ .effect) : d ≠ .effect := by
  rintro rfl
  exact h rfl

section Expressions

variable {arity : String → Option Nat} {Γ : Scopes}

open Emit

theorem rises_dropped (d : Demand) (h : Nat) : Rises arity (h + 1) (dropped d) (d.above h) := by
  cases d with
  | effect => exact .onward .pop rfl rfl (Nat.le_add_left 1 h)
  | value | double => exact .nil

theorem rises_unaryCode (op : String) (h : Nat) : Rises arity (h + 1) (unaryCode op) (h + 1) := by
  unfold unaryCode
  split
  · exact .onward .neg rfl rfl (Nat.le_add_left 1 h)
  · exact .onward .not rfl rfl (Nat.le_add_left 1 h)
  · exact .nil

theorem chainBase_call (loc : Loc) (ts : List Tree) :
    chainBase ⟨.call, "Call", false, loc, ts⟩ =
      ⟨.call, "Call", false, loc, ts⟩ := by
  rw [chainBase]
  exact fun _ _ _ _ _ h => by cases h

theorem chainBase_index (loc : Loc) (base i : Tree) :
    chainBase ⟨.index, "Index", false, loc, [base, i]⟩ = base.chainBase := by
  rw [chainBase]

theorem HasType.ne_void_of_chainBase (hs : Ready arity s Γ) (h : HasType Γ t ty)
    (hk : isSuffixable t.kind) (hv : t.chainBase.callsVoid = false) : ty ≠ .void := by
  induction t using induction generalizing ty with
  | h t ih =>
    cases h with
    | var x _ _ _ hx => exact (hs.known x _ hx).1
    | call _ _ f _ _ params hf _ =>
      rintro rfl
      rw [chainBase_call] at hv
      cases hb : Builtin.ofName? f with
      | none => exact (hs.function f _ params hf hb).2.2 rfl
      | some b =>
        have hret := (hs.builtin f b _ params hf hb).1
        simp [callsVoid, nameAt, hb, ← hret] at hv
    | index loc base i _ hbase hkind _ _ =>
      exact ih base mem_cons_self hbase hkind (chainBase_index loc base i ▸ hv)
    | _ => cases hk

mutual

/-- **The code of an expression** puts its value on the stack if it is wanted, and else leaves the
stack as high as it was. -/
theorem HasType.rises {t : Tree} {ty : Ty} : HasType Γ t ty → t.all indexesValue →
    ∀ {s : Emit.State}, Ready arity s Γ → ∀ (d : Demand), (d ≠ .effect → ty ≠ .void) → ∀ h : Nat,
    Rises arity h (code (expression t d) s) (d.above h)
  | .number text loc, _, s, _, d, _, h => by
    rw [code_number]
    have hpush : Rises arity h [literal text d] (h + 1) := by
      unfold literal
      split
      · exact .onward (.pushDouble _) rfl rfl (Nat.zero_le h)
      · exact .onward (.pushInt _) rfl rfl (Nat.zero_le h)
    exact hpush.cons (rises_dropped d h)
  | .string text loc, _, s, _, d, _, h => by
    rw [code_string]
    exact (Rises.onward (.pushString text) rfl rfl (Nat.zero_le h)).cons (rises_dropped d h)
  | .var x loc ty isArray hx, _, s, _, d, _, h => by
    rw [code_name]
    exact (Rises.onward (.load (s.slotOf x)) rfl rfl (Nat.zero_le h)).cons (rises_dropped d h)
  | .unary op loc e ty ty' he hty, hall, s, hs, d, _, h => by
    rw [code_unary]
    have hoperand := he.rises (all_of_mem hall (by simp)) hs (.ofDouble (d = .double ∧ op = "-"))
      (fun _ => (unaryTy_isValue hty).1.1) h
    rw [Demand.above_ofDouble] at hoperand
    exact hoperand.append ((rises_unaryCode op h).append (rises_dropped d h))
  | .binary op loc l r ty ty' ty'' hl hr hty, hall, s, hs, d, _, h => by
    rw [code_binary]
    have hleft := hl.rises (all_of_mem hall (by simp)) hs .value
      (fun _ => (binaryTy_isValue hty).1.1) h
    have hright := hr.rises (all_of_mem hall (by simp)) (hs.after (expression l .value)) .value
      (fun _ => (binaryTy_isValue hty).2.1.1) (h + 1)
    have hop : Rises arity (h + 2) [.binary (.ofText op)] (h + 1) :=
      .onward _ rfl rfl (Nat.le_add_left 2 h)
    exact hleft.append (hright.append (hop.cons (rises_dropped d h)))
  | .comma loc l r ty ty' hl hr, hall, s, hs, d, hd, h => by
    rw [code_comma]
    have hleft := hl.rises (all_of_mem hall (by simp)) hs .effect (fun he => absurd rfl he) h
    have hright := hr.rises (all_of_mem hall (by simp)) (hs.after (expression l .effect)) d.plain
      (fun hp => hd (Demand.plain_ne_effect hp)) h
    rw [Demand.above_plain] at hright
    exact hleft.append hright
  | .assign loc loc' x value ty ty' isArray hx hv hacc, hall, s, hs, d, _, h => by
    rw [code_assign]
    have hty' := isValue_of_accepts hacc (hs.known x _ hx)
    have hvalue := hv.rises (all_of_mem hall (by simp)) hs (s.demandOf (s.slotOf x))
      (fun _ => hty'.1) h
    have hstore : Rises arity (h + 1) [.store (s.slotOf x)] h :=
      .onward _ rfl rfl (Nat.le_add_left 1 h)
    rw [State.demandOf, Demand.above_ofDouble] at hvalue
    refine hvalue.append (hstore.cons ?_)
    cases d with
    | effect => exact .nil
    | value | double => exact .onward (.load (s.slotOf x)) rfl rfl (Nat.zero_le h)
  | .assignItem loc loc' loc'' x i value ty ty' hx hi hv hacc, hall, s, hs, d, _, h => by
    have hty' := isValue_of_accepts hacc (hs.known x _ hx)
    have hvalue := hv.rises (all_of_mem hall (by simp)) hs (s.demandOf (s.slotOf x))
      (fun _ => hty'.1) h
    have hall' : i.all indexesValue :=
      all_of_mem (all_of_mem hall mem_cons_self) (by simp)
    have hs' := hs.after (expression value (s.demandOf (s.slotOf x)))
    have hstore : Rises arity (h + 2) [.storeIndex (s.slotOf x)] h :=
      .onward _ rfl rfl (Nat.le_add_left 2 h)
    rw [State.demandOf, Demand.above_ofDouble] at hvalue
    by_cases hd : d = .effect
    · subst hd
      rw [code_assignItem_effect]
      exact hvalue.append ((hi.rises hall' hs' .value (fun _ => Ty.noConfusion) (h + 1)).append
        hstore)
    · rw [code_assignItem _ _ _ _ _ _ _ _ hd]
      have hhold (x : String) : Rises arity (h + 1) [.store x] h :=
        .onward _ rfl rfl (Nat.le_add_left 1 h)
      have hload (x : String) : Rises arity h [.load x] (h + 1) := .onward _ rfl rfl (Nat.zero_le h)
      have hindex := hi.rises hall' (hs'.after hiddenSlot) .value (fun _ => Ty.noConfusion) (h + 1)
      rw [show d.above h = h + 1 from if_neg hd]
      exact hvalue.append ((hhold _).cons ((hload _).cons (hindex.append (hstore.cons (hload _)))))
  | .call loc loc' f args ty params hf hargs, hall, s, hs, d, hd, h => by
    rw [code_call, hs.leavesValue_eq hf]
    have hvalues := hargs.rises (fun a ha => all_of_mem hall (mem_cons_of_mem _ ha))
      (hs.params_isValue hf) hs h
    have hcall : Rises arity (h + params.length) [.call f] (h + if ty = .void then 0 else 1) := by
      cases hb : Builtin.ofName? f with
      | some b =>
        obtain ⟨rfl, hlen⟩ := hs.builtin f b ty params hf hb
        have ht : (Instr.call f).takes = params.length := by simp [Instr.takes, hb, hlen]
        have hg : (Instr.call f).gives = if b.returns = .void then 0 else 1 := by
          simp [Instr.gives, hb]
        have hle : (Instr.call f).takes ≤ h + params.length := ht ▸ Nat.le_add_left _ h
        have hon : Rises arity (h + params.length) [.call f] _ :=
          .onward _ rfl (by simp [Instr.goesOn, hb]) hle
        rwa [ht, hg, Nat.add_sub_cancel] at hon
      | none =>
        obtain ⟨hn, -, hty⟩ := hs.function f ty params hf hb
        rw [if_neg hty]
        exact .call hb hn
    refine hvalues.append (hcall.cons ?_)
    by_cases hv : ty = .void
    · have hd : d = .effect := by
        cases d with
        | effect => rfl
        | value | double => exact absurd hv (hd nofun)
      subst hd hv
      exact .nil
    · simpa [hv, dropped] using rises_dropped d h
  | .index loc base i ty hbase hk hi _, hall, s, hs, d, _, h => by
    rw [code_index]
    have hvoid : ty ≠ .void := by
      refine hbase.ne_void_of_chainBase hs hk ?_
      rw [← chainBase_index loc base i]
      simpa [indexesValue] using (all_iff.mp hall).1
    have hleft := hbase.rises (all_of_mem hall (by simp)) hs .value (fun _ => hvoid) h
    have hright := hi.rises (all_of_mem hall (by simp)) (hs.after (expression base .value)) .value
      (fun _ => Ty.noConfusion) (h + 1)
    have hload : Rises arity (h + 2) [.loadIndex] (h + 1) := .onward _ rfl rfl (Nat.le_add_left 2 h)
    exact hleft.append (hright.append (hload.cons (rises_dropped d h)))

theorem HasArgs.rises {params : List (Ty × Bool)} {args : List Tree} : HasArgs Γ params args →
    (∀ a ∈ args, a.all indexesValue) → (∀ p ∈ params, p.1.IsValue) →
    ∀ {s : Emit.State}, Ready arity s Γ → ∀ h : Nat,
    Rises arity h (code (values args) s) (h + params.length)
  | .nil, _, _, s, _, h => by
    rw [code_values_nil]
    exact .nil
  | .cons ty ty' isArray params arg args harg hacc _ hargs, hall, hvalue, s, hs, h => by
    rw [code_values_cons]
    obtain ⟨hfirst, hrest⟩ := forall_mem_cons.mp hall
    obtain ⟨hty, hparams⟩ := forall_mem_cons.mp hvalue
    have hone := harg.rises hfirst hs .value (fun _ => (isValue_of_accepts hacc hty).1) h
    have hmore := hargs.rises hrest hparams (hs.after (expression arg .value)) (h + 1)
    rw [length_cons, Nat.add_comm params.length 1, ← Nat.add_assoc]
    exact hone.append hmore

end

theorem rises_unlessTrue (hc : HasType Γ c .int) (hall : c.all indexesValue)
    (hs : Ready arity s Γ) (target : String) : Rises arity 0 (code (unlessTrue c target) s) 0 := by
  rw [code_unlessTrue]
  exact (hc.rises hall hs .value (fun _ => Ty.noConfusion) 0).append (.jumpIfZero target)

theorem rises_unlessOmitted (hc : OptionalInt Γ c) (hall : c.all indexesValue)
    (hs : Ready arity s Γ) (target : String) :
    Rises arity 0 (code (unlessOmitted c target) s) 0 := by
  unfold unlessOmitted
  split
  · exact .nil
  · next hk =>
    cases hc with
    | omitted => exact absurd rfl hk
    | expr _ hc => exact rises_unlessTrue hc hall hs target

theorem OptionalExpr.rises {e : Tree} (he : OptionalExpr Γ e) (hall : e.all indexesValue)
    (hs : Ready arity s Γ) : Rises arity 0 (code (expression e .effect) s) 0 := by
  cases he with
  | omitted =>
    rw [code_omitted]
    exact .nil
  | expr _ ty he => exact he.rises hall hs .effect (fun h => absurd rfl h) 0

end Expressions

/-! ## Statements -/

section Statements

variable {arity : String → Option Nat} {N : String → Prop} {Γ Γ' : Scopes} {s : Emit.State}

open Emit

theorem rises_zeroInstr (ty : Ty) (h : Nat) : Rises arity h [zeroInstr ty] (h + 1) := by
  cases ty <;> exact .onward _ rfl rfl (Nat.zero_le h)

theorem Declares.rises {d : Tree} (hd : Declares N ty Γ d Γ') (hty : ty.IsValue)
    (hall : d.all indexesValue) (hs : Ready arity s Γ) :
    Rises arity 0 (code (declarator ty d) s) 0 := by
  rw [code_declarator]
  have hstore (x : String) : Rises arity 1 [.store x] 0 := .onward _ rfl rfl (Nat.le_refl 1)
  refine (?_ : Rises arity 0 _ 1).append (hstore _)
  cases hd with
  | plain x loc =>
    rw [code_initialValue_plain]
    exact rises_zeroInstr ty 0
  | initial x loc e ty' _ _ he hacc =>
    rw [initialValue_initial]
    have hvalue := he.rises (all_of_mem hall (by simp)) hs (.ofDouble (ty = .double))
      (fun _ => (isValue_of_accepts hacc hty).1) 0
    rwa [Demand.above_ofDouble] at hvalue
  | array x loc e _ _ he =>
    rw [code_initialValue_array]
    have hsize := he.rises (all_of_mem hall (by simp)) hs .value (fun _ => Ty.noConfusion) 0
    exact hsize.append (.onward .newArray rfl rfl (Nat.le_refl 1))

theorem DeclaresAll.rises {ds : List Tree} (hds : DeclaresAll N ty Γ ds Γ') (hty : ty.IsValue)
    (hall : ∀ d ∈ ds, d.all indexesValue) (hs : Ready arity s Γ) :
    Rises arity 0 (code (ds.forM (declarator ty)) s) 0 := by
  induction hds generalizing s with
  | nil => exact .nil
  | cons Γ Γ' Γ'' d ds hd _ ih =>
    obtain ⟨hfirst, hrest⟩ := forall_mem_cons.mp hall
    rw [code_forM_cons]
    exact (hd.rises hty hfirst hs).append
      (ih hrest ((hs.adds (hd.adds hty)).after (declarator ty d)))

section Constructs

variable (hs : Ready arity s Γ)

include hs

theorem rises_label : Rises arity 0 [.label s.label] 0 :=
  .label (hs.label s.label (State.label_notMem_functions s))

theorem rises_branch (hc : HasType Γ c .int) (hall : c.all indexesValue) {body : Emit Unit}
    [Steady body]
    (hbody : ∀ {s}, Ready arity s Γ → Rises arity 0 (code body s) 0) (done : String) :
    Rises arity 0 (code (branch c body done) s) 0 := by
  rw [code_branch]
  have htest := hc.rises hall hs.labelled .value (fun _ => Ty.noConfusion) 0
  have hbody' := hbody (hs.labelled.after (expression c .value))
  exact htest.append ((Rises.jumpIfZero s.label).cons
    (hbody'.append ((Rises.jump done).cons (rises_label hs))))

theorem rises_conditional {loc : Loc} {alternatives : String → Emit Unit}
    [∀ l, Steady (alternatives l)]
    (h : ∀ {s}, Ready arity s Γ → ∀ done, Rises arity 0 (code (alternatives done) s) 0) :
    Rises arity 0 (code (conditional loc alternatives) s) 0 := by
  rw [code_conditional]
  exact (h hs.labelled s.label).append (rises_label hs)

section

variable {loc : Loc} {test : String → Emit Unit} {body : Emit Unit} [Steady body]
  [∀ l, Steady (test l)]
  (htest : ∀ {s}, Ready arity s Γ → ∀ done, Rises arity 0 (code (test done) s) 0)
  (hbody : ∀ {s}, Ready arity s Γ → Rises arity 0 (code body s) 0)

include htest hbody

theorem rises_whileLoop : Rises arity 0 (code (whileLoop loc test body) s) 0 := by
  rw [code_whileLoop]
  have hs' := hs.labelled.labelled
  have hbody' := hbody ((hs'.after (test s.labelled.label)).within ⟨s.labelled.label, s.label⟩)
  exact (rises_label hs).cons ((htest hs' _).append
    (hbody'.append ((Rises.jump s.label).cons (rises_label hs.labelled))))

theorem rises_doWhile : Rises arity 0 (code (doWhile loc body test) s) 0 := by
  rw [code_doWhile]
  have hs' := hs.labelled.labelled.labelled
  have hentered := hs'.within ⟨s.labelled.labelled.label, s.labelled.label⟩
  have htest' := htest (hentered.after body).past s.labelled.labelled.label
  exact (rises_label hs).cons ((hbody hentered).append ((rises_label hs.labelled).cons
    (htest'.append ((Rises.jump s.label).cons (rises_label hs.labelled.labelled)))))

theorem rises_forLoop {step : Emit Unit} [Steady step]
    (hstep : ∀ {s}, Ready arity s Γ → Rises arity 0 (code step s) 0) :
    Rises arity 0 (code (forLoop loc test body step) s) 0 := by
  rw [code_forLoop]
  have hs' := hs.labelled.labelled.labelled
  have hentered :=
    (hs'.after (test s.labelled.labelled.label)).within
      ⟨s.labelled.labelled.label, s.labelled.label⟩
  have hstep' := hstep (hentered.after body).past
  exact (rises_label hs).cons
    ((htest hs' _).append ((hbody hentered).append ((rises_label hs.labelled).cons
    (hstep'.append ((Rises.jump s.label).cons (rises_label hs.labelled.labelled))))))

end

end Constructs

theorem rises_loopJump (loc : Loc) (target : LoopLabels → String) :
    Rises arity 0 (code (loopJump loc target) s) 0 := by
  rw [code_loopJump]
  match s.loops with
  | [] => exact .nil
  | labels :: _ => exact .jump (target labels)

variable {ret : Option Ty}

mutual

/-- **The code of a statement** leaves the stack as high as it was. -/
theorem Typed.rises (hret : ∀ ty, ret = some ty → ty.IsValue) :
    ∀ {loop : Bool} {Γ Γ' : Scopes} {t : Tree}, Typed N ret loop Γ t Γ' →
    t.all indexesValue → ∀ {s : Emit.State}, Ready arity s Γ →
    Rises arity 0 (code (statement t) s) 0
  | _, _, _, _, .omitted _ _ loc, _, s, _ => by
    rw [statement_omitted]
    exact .nil
  | _, _, _, _, .block _ _ _ hb, hall, s, hs => hb.rises hret hall hs
  | _, _, _, _, .declaration _ _ _ loc ty ds hty hds, hall, s, hs => by
    rw [statement_declaration]
    exact hds.rises hty (fun d hd => all_of_mem hall (mem_cons_of_mem _ hd)) hs
  | _, _, _, _, .exprStmt _ _ loc e ty he, hall, s, hs => by
    rw [statement_exprStmt]
    exact he.rises (all_of_mem hall (by simp)) hs .effect (fun h => absurd rfl h) 0
  | _, _, _, _, .returnStmt _ _ loc e ty ty' hty he hacc, hall, s, hs => by
    rw [code_returnStmt]
    have hvalue := he.rises (all_of_mem hall (by simp)) hs (.ofDouble (s.returnType = .double))
      (fun _ => (isValue_of_accepts hacc (hret ty hty)).1) 0
    rw [Demand.above_ofDouble] at hvalue
    exact hvalue.append .ret
  | _, _, _, _, .breakStmt _ loc, _, s, _ => by
    rw [statement_breakStmt]
    exact rises_loopJump loc _
  | _, _, _, _, .continueStmt _ loc, _, s, _ => by
    rw [statement_continueStmt]
    exact rises_loopJump loc _
  | _, _, _, _, .conditional _ _ loc c body rest hc hbody hrest, hall, s, hs => by
    rw [statement_conditional]
    have hbodyAll : body.all indexesValue := all_of_mem hall (by simp)
    have hrestAll : ∀ t ∈ rest, t.all indexesValue := fun t ht => all_of_mem hall (by simp [ht])
    refine rises_conditional hs fun {s} hs done => ?_
    rw [code_bind]
    refine (rises_branch hs hc (all_of_mem hall (by simp)) (fun hs => hbody.rises hret hbodyAll hs)
      done).append ?_
    exact hrest.rises hret hrestAll (hs.after (branch c (statement body) done)) done
  | _, _, _, _, .whileLoop _ _ loc c body hc hbody, hall, s, hs => by
    rw [statement_whileLoop]
    have hbodyAll : body.all indexesValue := all_of_mem hall (by simp)
    exact rises_whileLoop hs (fun hs => rises_unlessTrue hc (all_of_mem hall (by simp)) hs)
      fun hs => hbody.rises hret hbodyAll hs
  | _, _, _, _, .doWhile _ _ loc body c hbody hc, hall, s, hs => by
    rw [statement_doWhile]
    have hbodyAll : body.all indexesValue := all_of_mem hall (by simp)
    exact rises_doWhile hs (fun hs => rises_unlessTrue hc (all_of_mem hall (by simp)) hs)
      fun hs => hbody.rises hret hbodyAll hs
  | _, _, _, _, .forLoop _ _ Γ' loc first c step body hfirst hc hstep hbody, hall, s, hs => by
    rw [statement_forLoop, code_inScope, code_bind]
    have hbodyAll : body.all indexesValue := all_of_mem hall (by simp)
    have hs' := (hs.enter.adds hfirst.adds).after (statement first)
    refine (hfirst.rises hret (all_of_mem hall (by simp)) hs.enter).append ?_
    exact rises_forLoop hs' (fun hs => rises_unlessOmitted hc (all_of_mem hall (by simp)) hs)
      (fun hs => hbody.rises hret hbodyAll hs) fun hs => hstep.rises (all_of_mem hall (by simp)) hs

theorem TypedBlock.rises (hret : ∀ ty, ret = some ty → ty.IsValue) :
    ∀ {loop : Bool} {Γ : Scopes} {t : Tree}, TypedBlock N ret loop Γ t →
    t.all indexesValue → ∀ {s : Emit.State}, Ready arity s Γ →
    Rises arity 0 (code (statement t) s) 0
  | _, _, _, .mk _ _ _ loc ts hts, hall, s, hs => by
    rw [statement_block, code_inScope]
    exact hts.rises hret (fun t ht => all_of_mem hall ht) hs.enter

theorem TypedAll.rises (hret : ∀ ty, ret = some ty → ty.IsValue) :
    ∀ {loop : Bool} {Γ Γ' : Scopes} {ts : List Tree}, TypedAll N ret loop Γ ts Γ' →
    (∀ t ∈ ts, t.all indexesValue) → ∀ {s : Emit.State}, Ready arity s Γ →
    Rises arity 0 (code (statements ts) s) 0
  | _, _, _, _, .nil .., _, s, _ => by
    rw [statements_nil]
    exact .nil
  | _, _, _, _, .cons _ _ _ _ t ts ht hts, hall, s, hs => by
    obtain ⟨hfirst, hrest⟩ := forall_mem_cons.mp hall
    rw [statements_cons, code_bind]
    exact (ht.rises hret hfirst hs).append
      (hts.rises hret hrest ((hs.adds ht.adds).after (statement t)))

theorem TypedBranches.rises (hret : ∀ ty, ret = some ty → ty.IsValue) :
    ∀ {loop : Bool} {Γ : Scopes} {ts : List Tree}, TypedBranches N ret loop Γ ts →
    (∀ t ∈ ts, t.all indexesValue) → ∀ {s : Emit.State}, Ready arity s Γ → ∀ done : String,
    Rises arity 0 (code (branches done ts) s) 0
  | _, _, _, .nil .., _, s, _, done => by
    rw [branches_nil]
    exact .nil
  | _, _, _, .last _ _ body hbody, hall, s, hs, done => by
    rw [branches_block hbody]
    exact hbody.rises hret (hall body (mem_singleton_self body)) hs
  | _, _, _, .elseIf _ _ loc c body ts hc hbody hts, hall, s, hs, done => by
    obtain ⟨hfirst, hrest⟩ := forall_mem_cons.mp hall
    have hbodyAll : body.all indexesValue := all_of_mem hfirst (by simp)
    rw [branches_elseIf, code_bind]
    refine (rises_branch hs hc (all_of_mem hfirst (by simp))
      (fun hs => hbody.rises hret hbodyAll hs) done).append ?_
    exact hts.rises hret hrest (hs.after (branch c (statement body) done)) done

end

/-! ## Functions and programs -/

theorem rises_stores (slots : List String) (h : Nat) :
    Rises arity (h + slots.length) (slots.map .store) h := by
  induction slots with
  | nil => exact .nil
  | cons slot slots ih =>
    have hstore : Rises arity (h + slots.length + 1) [.store slot] (h + slots.length) :=
      .onward _ rfl rfl (Nat.le_add_left 1 _)
    exact hstore.cons ih

theorem length_paramSlots (s : Emit.State) (ps : List Tree) :
    (s.paramSlots ps).length = ps.length := by
  induction ps generalizing s with
  | nil => rfl
  | cons p ps ih => exact congrArg Nat.succ (ih _)

theorem rises_prologue (hn : arity t.text = some (parametersOf t.children).length) (s : Emit.State)
    (h : Nat) : Rises arity h (code (prologue t) s) 0 := by
  rw [code_prologue, ← map_reverse]
  refine (Rises.entry hn).cons ?_
  have hstores : Rises arity _ _ 0 := rises_stores
    ((s.forFunction (.ofFirst t.children)).paramSlots (parametersOf t.children)).reverse 0
  rwa [length_reverse, length_paramSlots, Nat.zero_add] at hstores

theorem rises_endCode (hty : ty ≠ .void) (c : List Instr) : Rises arity 0 (endCode ty c) 0 := by
  unfold endCode
  rw [if_neg hty]
  split
  · exact .nil
  · exact (rises_zeroInstr ty 0).cons .ret

theorem ready_prologue (hs : Ready arity s Γ) (t : Tree) :
    Ready arity (after (prologue t) s) Γ := by
  have hkeep := extends_withParams (s.forFunction (.ofFirst t.children)) (parametersOf t.children)
  rw [after_prologue]
  exact (hs.of_eq rfl rfl : Ready arity (s.forFunction (.ofFirst t.children)) Γ).extend hkeep

theorem returnType_opening (t : Tree) (s : Emit.State) :
    (after (opening t) s).returnType = .ofFirst t.children := by
  have hkeep := extends_withParams (s.forFunction (.ofFirst t.children)) (parametersOf t.children)
  rw [← after_prologue] at hkeep
  rw [after_opening]
  cases bodyOf? t.children with
  | none => exact hkeep.returnType_eq
  | some body =>
    exact (Steady.extend (x := statement body) _).returnType_eq.trans hkeep.returnType_eq

/-- **The code of a function** takes the arguments from the stack and puts a value there to
return. -/
theorem TypedFunction.rises (ht : TypedFunction N Γ t) (hall : t.all indexesValue)
    (hn : arity t.text = some (parametersOf t.children).length) (hs : Ready arity s Γ) :
    Rises arity 0 (code (function t) s) 0 := by
  obtain ⟨-, hty, body, Γ', hbody?, hmem, hps, hbody⟩ := ht.parts
  have hret : ∀ ty, some (Ty.ofFirst t.children) = some ty → ty.IsValue :=
    fun ty h => Option.some.inj h ▸ hty
  rw [code_function, returnType_opening, code_opening, hbody?]
  refine Rises.append ?_ (rises_endCode hty.1 _)
  refine (rises_prologue hn s 0).append (hbody.rises hret (all_of_mem hall hmem) ?_)
  have hadds : Γ.Adds Γ' := hps.adds
  exact (ready_prologue hs t).adds hadds

theorem ready_function (hs : Ready arity s Γ) (t : Tree) :
    Ready arity (after (function t) s) Γ := by
  have hp := ready_prologue hs t
  rw [after_function, after_opening]
  cases bodyOf? t.children with
  | none => exact hp.of_eq rfl rfl
  | some body => exact (hp.after (statement body)).of_eq rfl rfl

theorem TypedItems.rises {ts : List Tree} (h : TypedItems N Γ ts)
    (hn : ∀ c ∈ ts, c.kind = .function → arity c.text = some (parametersOf c.children).length)
    (hall : ∀ c ∈ ts, c.all indexesValue) (hs : Ready arity s Γ) :
    Rises arity 0 (code (ts.forM item) s) 0 := by
  induction h generalizing s with
  | nil => exact .nil
  | function Γ c ts hc _ ih =>
    obtain ⟨hcAll, htsAll⟩ := forall_mem_cons.mp hall
    obtain ⟨hcn, htsn⟩ := forall_mem_cons.mp hn
    have hk := hc.parts.1
    rw [code_forM_cons, item_of_function hk]
    exact (hc.rises hcAll (hcn hk) hs).append (ih htsn htsAll (ready_function hs c))
  | stmt Γ Γ' c ts hk hc _ ih =>
    obtain ⟨hcAll, htsAll⟩ := forall_mem_cons.mp hall
    obtain ⟨-, htsn⟩ := forall_mem_cons.mp hn
    rw [code_forM_cons, item_of_ne hk]
    have hcode := hc.rises (fun ty h => by cases h) hcAll hs
    exact hcode.append (ih htsn htsAll ((hs.adds hc.adds).after (statement c)))

/-- A function among typed items, and the state in which it is lowered. Where all items are
functions, the names in scope stay the same. -/
theorem TypedItems.exists_ready {ts : List Tree} (h : TypedItems N Γ ts)
    (hs : Ready arity s Γ) {k : Nat} (hk : ts[k]? = some c) (hc : c.kind = .function) :
    ∃ Γ', TypedFunction N Γ' c ∧ Ready arity (after ((ts.take k).forM item) s) Γ' ∧
      ((∀ c ∈ ts, c.kind = .function) → Γ' = Γ) := by
  induction h generalizing s k with
  | nil => cases hk
  | function Γ c' ts hc' _ ih =>
    cases k with
    | zero =>
      obtain rfl : c' = c := Option.some.inj hk
      exact ⟨Γ, hc', hs.of_eq rfl rfl, fun _ => rfl⟩
    | succ k =>
      rw [take_succ_cons, after_forM_cons, item_of_function hc'.parts.1]
      obtain ⟨Γ', hfun, hready, heq⟩ := ih (ready_function hs c') hk
      exact ⟨Γ', hfun, hready, fun hall => heq (forall_mem_cons.mp hall).2⟩
  | stmt Γ Γ' c' ts hk' hc' _ ih =>
    cases k with
    | zero =>
      obtain rfl : c' = c := Option.some.inj hk
      exact absurd hc hk'
    | succ k =>
      rw [take_succ_cons, after_forM_cons, item_of_ne hk']
      obtain ⟨Γ'', hfun, hready, -⟩ := ih ((hs.adds hc'.adds).after (statement c')) hk
      exact ⟨Γ'', hfun, hready, fun hall => absurd (forall_mem_cons.mp hall).1 hk'⟩

end Statements

end Stacklet
