import Stacklet.Proofs.Logic.Run
import Stacklet.Proofs.Visible.Flow
/-!
# Where the values of variables come from

* `Machine.originsAfter`: a run that keeps note of the instructions that made what each variable
  holds.
* `Tree.AssignsOutside`: an instruction sets a variable from outside of the function, by its name.
  `Tree.SetsLocal`: an instruction sets a parameter or a declared name.
* `compile_outer_origins`: **what a name from outside of a function sees** was assigned by names
  from outside too, as long as no part from which control may come there declares the name.
  `exists_leaked_local`: else a local variable can be seen.
-/

namespace Stacklet

open Emit List
open Stacklet.Tree hiding lower

variable {instr : Instr}

/-! ## Runs with origins -/

/-- For each slot of a call, the indices of the instructions that made what it holds. -/
abbrev Origins := String → List Nat

/-- A store makes what a slot holds, and a store at an index has a share in it. -/
def Instr.marks (i : Nat) : Instr → Origins → Origins
  | .store x, o => Function.update o x [i]
  | .storeIndex x, o => Function.update o x (i :: o x)
  | _, o => o

namespace Machine

/-- A state of a run with the origins of the running call and of those that wait, the innermost
first. -/
structure Traced where
  state : State
  origins : Origins
  waiting : List Origins

/-- The origins behind an instruction that goes on to the state `s`. -/
def Traced.follow (r : Traced) (s : State) : Instr → Traced
  | .call f =>
    if Builtin.ofName? f = none then ⟨s, fun _ => [], r.origins :: r.waiting⟩
      else ⟨s, r.origins, r.waiting⟩
  | .ret => ⟨s, r.waiting.headD fun _ => [], r.waiting.tail⟩
  | instr => ⟨s, instr.marks r.state.ip r.origins, r.waiting⟩

/-- A step that keeps note of origins. -/
def traceStep (m : Machine) (r : Traced) : Option Traced :=
  match m.program.code[r.state.ip]?, m.step r.state with
  | some instr, .next s => some (r.follow s instr)
  | _, _ => none

/-- So many steps from the start of a run. -/
def originsAfter (m : Machine) (s : State) : Nat → Option Traced
  | 0 => some ⟨s, fun _ => [], []⟩
  | n + 1 => (originsAfter m s n).bind m.traceStep

end Machine

/-! ### Origins and variables -/

namespace Machine

variable {r : Traced}

/-- In every call, a variable without origins is not set. -/
def Traced.Faithful (r : Traced) : Prop :=
  List.Forall₂ (fun (ls : Locals) (o : Origins) => ∀ x, o x = [] → ls.lookup x = none)
    (r.state.locals :: r.state.callers.map Suspended.locals) (r.origins :: r.waiting)

theorem lookup_of_effect {i : Nat} {o : Origins} {stack stack' : List Value} {ls ls' : Locals}
    (heffect : Effect instr stack ls stack' ls') (h : ∀ x, o x = [] → ls.lookup x = none) :
    ∀ x, instr.marks i o x = [] → ls'.lookup x = none := by
  have altered {x y : String} {js : List Nat} (f : Option Value → Value) (hjs : js ≠ [])
      (hx : Function.update o y js x = []) : (ls.alter y f).lookup x = none := by
    by_cases hxy : x = y
    · subst hxy
      rw [Function.update_self] at hx
      exact absurd hx hjs
    · rw [Function.update_of_ne hxy] at hx
      rw [Locals.lookup_alter, if_neg hxy]
      exact h x hx
  cases heffect with
  | store y v => exact fun x => altered _ (cons_ne_nil _ _)
  | storeIndex y i v => exact fun x => altered _ (cons_ne_nil _ _)
  | _ => exact h

theorem Traced.follow_eq {s : State} (hcall : ∀ f, instr = .call f → Builtin.ofName? f ≠ none)
    (hret : instr ≠ .ret) :
    r.follow s instr = ⟨s, instr.marks r.state.ip r.origins, r.waiting⟩ := by
  cases instr with
  | ret => exact absurd rfl hret
  | call f => exact if_neg (hcall f rfl)
  | _ => rfl

theorem Traced.Faithful.traceStep {m : Machine} {r' : Traced} (h : r.Faithful)
    (hstep : m.traceStep r = some r') :
    r'.Faithful := by
  unfold Machine.traceStep at hstep
  split at hstep
  · next instr s hi hnext =>
    cases hstep
    obtain ⟨hrunning, hwaiting⟩ := forall₂_cons.mp h
    obtain ⟨_, hi', -, hmove⟩ := move_of_step hnext
    cases hi.symm.trans hi'
    have within (hcall : ∀ f, instr = .call f → Builtin.ofName? f ≠ none) (hret : instr ≠ .ret)
        (hcallers : s.callers = r.state.callers) : (r.follow s instr).Faithful := by
      rw [follow_eq hcall hret, Faithful, hcallers]
      exact .cons (lookup_of_effect (effect_of_step hnext hi hcall hret) hrunning) hwaiting
    cases hmove with
    | call f ip hf hb =>
      subst hf
      rw [follow, if_pos hb]
      exact .cons (fun _ _ => rfl) h
    | ret caller callers hret hcallers =>
      subst hret
      rw [hcallers, map_cons] at hwaiting
      obtain ⟨o, os, ho, hos, heq⟩ := forall₂_cons_left_iff.mp hwaiting
      rw [follow, heq]
      exact .cons ho hos
    | onward _ _ _ hgoes =>
      refine within (fun f hf hb => ?_) (fun hret => ?_) rfl
      · subst hf
        simp [Instr.goesOn, hb] at hgoes
      · subst hret
        cases hgoes
    | jump l ip hl =>
      refine within (fun f hf => ?_) (fun hret => ?_) rfl
      · subst hf
        cases hl
      · subst hret
        cases hl
  · cases hstep

/-- **All along a run, a variable without origins is not set.** -/
theorem faithful_originsAfter {m : Machine} {s s₀ : State} {n : Nat} (hstart : m.start? s = some s₀)
    (hr : m.originsAfter s₀ n = some r) : r.Faithful := by
  induction n generalizing r with
  | zero =>
    cases hr
    obtain ⟨ip, -, rfl⟩ := Option.map_eq_some_iff.mp hstart
    exact .cons (fun _ _ => rfl) .nil
  | succ n ih =>
    obtain ⟨r', hr', hstep⟩ := Option.bind_eq_some_iff.mp hr
    exact (ih hr').traceStep hstep

end Machine

/-! ## What sets variables -/

namespace Tree

variable (t : Tree) (k : Nat)

/-- Typing finds a name in none of the scopes that are opened between the function with the number
`k` and a place in it. -/
def isFoundOutside (p : List Nat) (x : String) : Bool :=
  let inside := (t.checkedAt (k :: p)).scopes
  let outside := (t.checkedAt [k]).scopes
  (Scopes.lookup? (inside.take (inside.length - outside.length)) x).isNone

/-- The instruction at the index `i` is the first one of a name that is assigned to, or whose items
are, and that is found outside of the function with the number `k`. -/
def AssignsOutside (x : String) (i : Nat) : Prop :=
  ∃ p, t.variableAt? (k :: p) = some x ∧ t.isFoundOutside k p x ∧
    i = (t.codeAhead (k :: p)).length ∧
    ((∃ d, t.roleAt (k :: p) = .target d) ∨ t.roleAt (k :: p) = .base)

/-- The instruction at the index `i` sets a parameter of the function with the number `k`, or is the
last one of a name that is declared in it, which sets that. -/
def SetsLocal (i : Nat) : Prop :=
  (∃ c, t.children[k]? = some c ∧ t.itemStart k < i ∧
    i ≤ t.itemStart k + (parametersOf c.children).length) ∨
  ∃ p u, partAt? (k :: p) .program t = some (.declarator, u) ∧
    i + 1 = (t.codeAhead (k :: p)).length + (code (Emit.lower (t.roleAt (k :: p)) u)
      (t.loweredAt (k :: p))).length

end Tree

section Found

variable {t c u : Tree} {k : Nat} {p : List Nat} {part : Tree.Part} {x : String}
  (ht : FunctionIn IsName t k c)

include ht

theorem FunctionIn.isFoundOutside_iff (hp : partAt? (k :: p) .program t = some (part, u))
    (hpart : part.IsInner) :
    t.isFoundOutside k p x ↔ resolve? (t.scopeAt (k :: p)) x = none := by
  have ha := ht.aligned hp hpart
  have hinside : (t.checkedAt (k :: p)).scopes.take
      ((t.checkedAt (k :: p)).scopes.length - (t.checkedAt [k]).scopes.length) =
      (t.scopeAt (k :: p)).map fun scope => scope.map fun d => (d.name, .var d.ty d.isArray) := by
    rw [ha.types_eq, length_append, Nat.add_sub_cancel, take_left]
  rw [isFoundOutside, hinside, Option.isNone_iff_eq_none]
  have hlookup := findSome?_lookup_map Tree.Declaration.name (fun d => Entry.var d.ty d.isArray)
    (t.scopeAt (k :: p)) x
  rw [Scopes.lookup?, hlookup, Option.map_eq_none_iff]
  rfl

end Found

/-! ## Assertions about origins -/

/-- The slot that an instruction changes. -/
def Instr.slot? : Instr → Option String
  | .store x | .storeIndex x => some x
  | _ => none

/-- Whether the next instruction follows behind this one, and no slot is changed. -/
def Instr.isQuiet (instr : Instr) : Bool := instr.isStraight && instr.slot?.isNone

theorem Emit.isQuiet_dropped (d : Demand) : (dropped d).all Instr.isQuiet := by
  unfold dropped
  split <;> rfl

theorem Emit.isQuiet_literal (text : String) (d : Demand) : (literal text d).isQuiet := by
  unfold literal
  split <;> rfl

theorem Emit.isQuiet_unaryCode (op : String) : (unaryCode op).all Instr.isQuiet := by
  unfold unaryCode
  split <;> rfl

theorem Instr.marks_of_slot?_ne {x : String} (h : instr.slot? ≠ some x) (i : Nat) (o : Origins) :
    instr.marks i o x = o x := by
  cases instr with
  | store y | storeIndex y =>
    exact Function.update_of_ne (fun heq => h (congrArg some heq.symm)) _ _
  | _ => rfl

/-- Origins are tracked. Nothing needs them. -/
def Tracking.origins : Tracking Origins where
  acts i instr o o' := o' = instr.marks i o
  needs _ _ := True

/-- What a variable from outside of a function holds was assigned by names from outside. -/
def Tree.assignedOutside (t : Tree) (k : Nat) : Tree.Variable → Origins → Prop
  | .declared _, _ => True
  | .outer x, o => ∀ i ∈ o x, t.AssignsOutside k x i

section Leads

variable {t : Tree} {Λ : String → Origins → Prop} {A B : Origins → Prop} {instrs : List Instr}
  {i k : Nat}
  {v : Tree.Variable} {o : Origins} {instr : Instr}

theorem Tracking.leads_origins_of_isQuiet (h : instrs.all Instr.isQuiet) :
    origins.Leads Λ i A instrs A := by
  have hquiet (instr : Instr) (hi : instr ∈ instrs) : instr.isStraight ∧ instr.slot? = none := by
    simpa [Instr.isQuiet] using all_eq_true.mp h instr hi
  refine .of_straight (fun instr hi => (hquiet instr hi).1) (fun _ _ _ _ => trivial) ?_
  rintro instr hi j o _ ho rfl
  have hmarks : instr.marks j o = o :=
    funext fun x => Instr.marks_of_slot?_ne (by rw [(hquiet instr hi).2]; nofun) j o
  rwa [hmarks]

theorem Tracking.leads_origins (hstraight : instr.isStraight) (h : ∀ o, A o → B (instr.marks i o)) :
    origins.Leads Λ i A [instr] B := by
  refine .straight hstraight (fun _ _ => trivial) ?_
  rintro o _ ho rfl
  exact h o ho

theorem Tree.assignedOutside_marks (h : t.assignedOutside k v o)
    (hslot : instr.slot? ≠ some (v.slot t)) :
    t.assignedOutside k v (instr.marks i o) := by
  cases v with
  | declared => trivial
  | outer x =>
    have hkept : instr.marks i o x = o x := Instr.marks_of_slot?_ne hslot i o
    show ∀ j ∈ instr.marks i o x, _
    rw [hkept]
    exact h

theorem Tracking.leads_origins_held {p : List Nat} {s : Emit.State} :
    origins.Leads Λ i ((Outline.visible t t.assignedOutside).ahead (k :: p))
      [.store (hiddenSlot s).1, .load (hiddenSlot s).1]
        ((Outline.visible t t.assignedOutside).ahead (k :: p)) := by
  have hslot : (hiddenSlot s).1 = (Slot.hidden (s.nextSlot + 1)).text := result_hiddenSlot s
  refine .cons (leads_origins rfl fun o ho v hv => ?_) (leads_origins_of_isQuiet rfl)
  cases v with
  | declared => trivial
  | outer x =>
    refine assignedOutside_marks (ho _ hv) fun heq =>
      Slot.plain_ne_hidden (k := s.nextSlot + 1) hv.1 ?_
    exact (Option.some.inj heq).symm.trans hslot

end Leads

section Computes

variable {t c u : Tree} {k : Nat} {p : List Nat} {part : Tree.Part} {x : String}
  (ht : FunctionIn IsName t k c)

include ht

theorem FunctionIn.assignedOutside_access {loc : Loc} {o : Origins} {v : Tree.Variable}
    (hp : partAt? (k :: p) .program t = some (.expression, .nameAt x loc))
    (hrole : (∃ d, t.roleAt (k :: p) = .target d) ∨ t.roleAt (k :: p) = .base)
    (hinstr : instr = .store ((t.loweredAt (k :: p)).slotOf x) ∨
      instr = .storeIndex ((t.loweredAt (k :: p)).slotOf x)) (hv : t.VisibleAhead (k :: p) v)
    (ho : t.assignedOutside k v o) :
    t.assignedOutside k v (instr.marks (t.codeAhead (k :: p)).length o) := by
  have hvar : t.variableAt? (k :: p) = some x := by
    rw [variableAt?, expressionAt?, hp]
    rfl
  by_cases hslot : v.slot t = (t.loweredAt (k :: p)).slotOf x
  · obtain rfl := ht.eq_variableOf hp ⟨nofun, nofun⟩ (ht.isName hvar) hv hslot
    cases hd : resolve? (t.scopeAt (k :: p)) x with
    | some d =>
      rw [variableOf, hd]
      trivial
    | none =>
      have houter : t.variableOf (k :: p) x = .outer x := by rw [variableOf, hd]; rfl
      rw [houter] at ho hslot ⊢
      have hassigns : t.AssignsOutside k x (t.codeAhead (k :: p)).length :=
        ⟨p, hvar, (ht.isFoundOutside_iff hp ⟨nofun, nofun⟩).mpr hd, rfl, hrole⟩
      rw [← show x = _ from hslot] at hinstr
      intro i hi
      rcases hinstr with rfl | rfl
      · rw [Instr.marks, Function.update_self, mem_singleton] at hi
        exact hi ▸ hassigns
      · rw [Instr.marks, Function.update_self, mem_cons] at hi
        rcases hi with rfl | hi
        · exact hassigns
        · exact ho i hi
  · refine assignedOutside_marks ho fun heq => hslot ?_
    rcases hinstr with rfl | rfl <;> exact (Option.some.inj heq).symm

open Outline in
/-- **What is asserted about origins fits together** around expressions. -/
theorem FunctionIn.computes_origins_expression
    (hp : partAt? (k :: p) .program t = some (.expression, u)) :
    (visible t t.assignedOutside).Computes .origins (k :: p) u (t.roleAt (k :: p))
      (t.loweredAt (k :: p)) (t.codeAhead (k :: p)).length
      ((visible t t.assignedOutside).behind (k :: p)) := by
  have hahead {i : Nat} {c : Tree} (hc : u.children[i]? = some c) :=
    ht.visible_ahead_child (V := t.assignedOutside) hp (.inr rfl) hc
  have hbehindChild {i : Nat} {c : Tree} (hc : u.children[i]? = some c)
      (hpart : part? u.kind i c = some .expression) :=
    ht.visible_behind_child (V := t.assignedOutside) hp (.inr rfl) hc hpart
  have hbehind := ht.visible_behind (V := t.assignedOutside) hp
  have hsuits := (ht.exists_code hp).1
  generalize hrole : t.roleAt (k :: p) = r at hsuits
  cases ht.reach hp with | expression _ _ _ ty _ he =>
  cases hsuits with
  | value d =>
    cases he with
    | number text loc =>
      intro Λ
      rw [hbehind, lower_value, code_number]
      refine Tracking.leads_origins_of_isQuiet ?_
      rw [all_cons, isQuiet_literal, isQuiet_dropped]
      rfl
    | string text loc =>
      intro Λ
      rw [hbehind, lower_value, code_string]
      exact Tracking.leads_origins_of_isQuiet (isQuiet_dropped d)
    | var x loc =>
      intro Λ
      rw [hbehind, lower_value, code_name]
      exact Tracking.leads_origins_of_isQuiet (isQuiet_dropped d)
    | unary op loc e =>
      refine ⟨(hahead rfl).ge, fun Λ j => ?_⟩
      rw [hbehindChild rfl rfl, hbehind]
      refine Tracking.leads_origins_of_isQuiet ?_
      rw [all_append, isQuiet_unaryCode, isQuiet_dropped]
      rfl
    | binary | index =>
      refine ⟨(hahead rfl).ge, ?_, fun Λ j => ?_⟩
      · rw [hbehindChild rfl rfl]
        exact (hahead rfl).ge
      · rw [hbehindChild rfl rfl, hbehind]
        exact Tracking.leads_origins_of_isQuiet (isQuiet_dropped d)
    | comma =>
      refine ⟨(hahead rfl).ge, ?_, ?_⟩
      · rw [hbehindChild rfl rfl]
        exact (hahead rfl).ge
      · rw [hbehindChild rfl rfl]
        exact hbehind.ge
    | assign | assignItem =>
      refine ⟨(hahead rfl).ge, ?_⟩
      rw [hbehindChild (i := 0) rfl rfl, hbehindChild (i := 1) rfl rfl,
        hahead (i := 0) rfl, hbehind]
      split
      · exact ⟨fun Λ j => Tracking.leads_origins_held,
          fun Λ j => Tracking.leads_origins_of_isQuiet rfl⟩
      · exact ⟨le_rfl, le_rfl⟩
    | call loc loc' f args =>
      have hpassed (j : Nat) (hj : j ≤ args.length) :
          (visible t t.assignedOutside).passed (k :: p) j =
          (visible t t.assignedOutside).ahead (k :: p) := by
        cases j with
        | zero => rfl
        | succ j =>
          exact hbehindChild (getElem?_eq_getElem (l := .nameAt f loc' :: args)
            (Nat.succ_lt_succ hj)) rfl
      refine ⟨fun j hj => ?_, fun Λ j => ?_⟩
      · rw [hpassed j (Nat.le_of_lt hj)]
        exact (hahead (getElem?_eq_getElem (l := .nameAt f loc' :: args) (Nat.succ_lt_succ hj))).ge
      · rw [hpassed _ (Nat.le_refl _), hbehind]
        refine Tracking.leads_origins_of_isQuiet ?_
        split <;> rfl
  | name d x loc =>
    intro Λ
    rw [hbehind, code_target_name]
    refine .cons (Tracking.leads_origins rfl fun o ho v hv => ?_)
      (Tracking.leads_origins_of_isQuiet (by split <;> rfl))
    exact ht.assignedOutside_access hp (.inl ⟨d, hrole⟩) (.inl rfl) hv (ho v hv)
  | entry =>
    refine ⟨(hahead rfl).ge, ?_, ?_⟩
    · rw [hbehindChild rfl rfl]
      exact (hahead rfl).ge
    · rw [hbehindChild rfl rfl]
      exact hbehind.ge
  | base x loc =>
    intro Λ
    rw [hbehind, code_base]
    refine Tracking.leads_origins rfl fun o ho v hv => ?_
    exact ht.assignedOutside_access hp (.inr hrole) (.inr rfl) hv (ho v hv)

theorem FunctionIn.computes_origins_declarator
    (hp : partAt? (k :: p) .program t = some (.declarator, u)) :
    (Outline.visible t t.assignedOutside).Computes .origins (k :: p) u (t.roleAt (k :: p))
      (t.loweredAt (k :: p)) (t.codeAhead (k :: p)).length
      ((Outline.visible t t.assignedOutside).behind (k :: p)) := by
  have hsuits := (ht.exists_code hp).1
  generalize t.roleAt (k :: p) = r at hsuits
  cases hsuits with | declarator ty =>
  have hstore (Λ : String → Origins → Prop) (j : Nat) :
      Tracking.origins.Leads Λ j ((Outline.visible t t.assignedOutside).ahead (k :: p))
        [.store ((after (initialValue ty u) (t.loweredAt (k :: p))).newSlot u.text)]
        ((Outline.visible t t.assignedOutside).behind (k :: p)) := by
    refine Tracking.leads_origins rfl fun o ho v hv => ?_
    rcases ht.visibleBehind_declarator hp ty hv with ⟨d, rfl, -⟩ | ⟨hahead, hslot⟩
    · trivial
    · exact assignedOutside_marks (ho v hahead) fun heq => hslot (Option.some.inj heq).symm
  cases ht.reach hp with | declarator _ _ _ _ _ _ _ hd =>
  have hahead {i : Nat} {c : Tree} (hc : u.children[i]? = some c) :=
    ht.visible_ahead_child (V := t.assignedOutside) hp (.inl rfl) hc
  have hbehindChild {i : Nat} {c : Tree} (hc : u.children[i]? = some c)
      (hpart : part? u.kind i c = some .expression) :=
    ht.visible_behind_child (V := t.assignedOutside) hp (.inl rfl) hc hpart
  cases hd with
  | plain x loc =>
    intro Λ
    rw [lower, code_declarator, code_initialValue_plain]
    exact .append (Tracking.leads_origins_of_isQuiet (by cases ty <;> rfl)) (hstore Λ _)
  | initial | array =>
    refine ⟨(hahead rfl).ge, fun Λ j => ?_⟩
    rw [hbehindChild rfl rfl]
    exact .append (Tracking.leads_origins_of_isQuiet rfl) (hstore Λ _)

variable {b : Nat} {body : Tree}

theorem FunctionIn.exists_mem_parameters {j : Nat} (hb : c.children[b]? = some body)
    (hblock : body.kind = .block) (hj : j < (parametersOf c.children).length) :
    ∃ d ∈ (t.scopeAt [k, b]).flatten, d.place = [k, j + 1] := by
  obtain ⟨Γ, hfunction⟩ := ht.typedFunction
  have hbody := hfunction.body_index hb hblock
  have hlt := (List.getElem?_eq_some_iff.mp hb).1
  have hlen : j < (c.children.take b).tail.length := by
    rw [length_tail, length_take]
    omega
  have hscope : t.scopeAt [k, b] = scopeAhead [k] c b (t.scopeAt [k]) := scopeAt_snoc ht.at_item hb
  rw [hscope, scopeAhead, ht.isFunction, flatten_singleton]
  exact ⟨_, mem_declared.mpr ⟨j, _, getElem?_eq_getElem hlen, rfl⟩, rfl⟩

theorem FunctionIn.leads_origins_arguments (hb : c.children[b]? = some body)
    (hblock : body.kind = .block) (Λ : String → Origins → Prop) (i : Nat) :
    Tracking.origins.Leads Λ i (fun o => o = fun _ => [])
      (t.argumentStores k (parametersOf c.children).length)
      ((Outline.visible t t.assignedOutside).ahead [k, b]) := by
  obtain ⟨hat, -⟩ := ht.at_body hb hblock
  have hkept : Tracking.origins.Leads Λ i ((Outline.visible t t.assignedOutside).ahead [k, b])
      (t.argumentStores k (parametersOf c.children).length)
          ((Outline.visible t t.assignedOutside).ahead [k, b]) := by
    have hmem (instr : Instr) (hi : instr ∈ t.argumentStores k (parametersOf c.children).length) :
        ∃ j, j < (parametersOf c.children).length ∧ instr = .store (t.slotAt [k, j + 1]) := by
      obtain ⟨j, hj, rfl⟩ := mem_map.mp (mem_reverse.mp hi)
      exact ⟨j, mem_range.mp hj, rfl⟩
    refine .of_straight (fun instr hi => ?_) (fun _ _ _ _ => trivial)
      fun instr hi n o o' ho ho' v hv => ?_
    · obtain ⟨j, -, rfl⟩ := hmem instr hi
      rfl
    · obtain ⟨j, hj, rfl⟩ := hmem instr hi
      obtain rfl : o' = _ := ho'
      cases v with
      | declared => trivial
      | outer x =>
        obtain ⟨d, hd, hplace⟩ := ht.exists_mem_parameters hb hblock hj
        refine assignedOutside_marks (ho _ hv) fun heq => ?_
        exact ht.slotAt_ne hat ⟨nofun, nofun⟩ hv.1 hv.2 d hd (hplace ▸ Option.some.inj heq)
  refine hkept.mono_left ?_
  rintro _ rfl v -
  cases v with
  | declared => trivial
  | outer x => exact forall_mem_nil _

end Computes

section Runs

variable {t c u : Tree} {k : Nat} {p : List Nat} {x : String} (ht : TypedTree IsName t)

include ht

theorem TypedTree.exists_assertions_origins : ∃ P : Assertions t Origins,
    P.tracking = (fun _ => .origins) ∧ P.entry = (fun _ o => o = fun _ => []) ∧
      P.outline = .visible t t.assignedOutside := by
  refine ht.exists_assertions (fun k c b body hf hb hblock => hf.leads_origins_arguments hb hblock)
    (fun k c p part u hf hp hinner hparam => ?_) (fun k c p part u hf hp hplain => ?_)
    fun k c b body hf hb hblock Λ i => ?_
  · refine hf.flows_visible hp hinner ?_ hparam fun _ => trivial
    rintro i l v o _ rfl ho
    exact ho
  · rcases hplain with rfl | rfl
    · exact hf.computes_origins_declarator hp
    · exact hf.computes_origins_expression hp
  · refine .cons (Tracking.leads_origins_of_isQuiet ?_) (.ret fun _ _ => trivial)
    cases Ty.ofFirst c.children <;> rfl

variable {P : Assertions t Origins} (htracking : P.tracking = fun _ => .origins)
  (hentry : P.entry = fun _ o => o = fun _ => [])

include htracking hentry

theorem Assertions.Tracks.traceStep {entry : String} {limit : Nat} {r r' : Machine.Traced}
    (h : P.Tracks k r.state r.origins r.waiting)
    (hstep : (Machine.load t.lower entry limit).traceStep r = some r') :
    ∃ k', P.Tracks k' r'.state r'.origins r'.waiting := by
  unfold Machine.traceStep at hstep
  split at hstep
  · next instr s hi hnext =>
    cases hstep
    have hcode : t.lower.code[r.state.ip]? = some instr := hi
    cases h.next ht.typed hnext with
    | onward _ hi' _ hcall hret _ htracks =>
      cases hcode.symm.trans hi'
      rw [htracking] at htracks
      rw [Machine.Traced.follow_eq hcall hret]
      exact ⟨k, htracks _ (by cases instr <;> rfl)⟩
    | call f k' hi' hb _ _ _ _ htracks =>
      cases hcode.symm.trans hi'
      rw [hentry] at htracks
      refine ⟨k', ?_⟩
      rw [Machine.Traced.follow, if_pos hb]
      exact htracks _ rfl
    | ret f k' i _ _ y ys hi' _ hwaiting _ _ _ _ _ _ _ htracks =>
      cases hcode.symm.trans hi'
      rw [htracking] at htracks
      refine ⟨k', ?_⟩
      rw [Machine.Traced.follow, hwaiting]
      exact htracks _ rfl
  · cases hstep

/-- **All along a run**, what is asserted about origins holds. -/
theorem Assertions.tracks_originsAfter {entry : String} {limit : Nat} {m n : Nat}
    {s s₀ : Machine.State} {r : Machine.Traced} (hm : t.arity entry = some m)
    (hstart : (Machine.load t.lower entry limit).start? s = some s₀)
    (hr : (Machine.load t.lower entry limit).originsAfter s₀ n = some r) :
    ∃ k, P.Tracks k r.state r.origins r.waiting := by
  induction n generalizing r with
  | zero =>
    cases hr
    obtain ⟨k, -, -, -, -, -, htracks⟩ := Tracks.start (P := P) hm hstart
    exact ⟨k, htracks _ (by rw [hentry])⟩
  | succ n ih =>
    obtain ⟨r', hr', hstep⟩ := Option.bind_eq_some_iff.mp hr
    obtain ⟨k, htracks⟩ := ih hr'
    exact htracks.traceStep ht htracking hentry hstep

end Runs

/-! ## Names from outside -/

section Outside

variable {t c u : Tree} {k i : Nat} {p : List Nat} {part : Tree.Part} {x : String}
  (ht : FunctionIn IsName t k c)

include ht

theorem FunctionIn.exists_place (hp : partAt? (k :: p) .program t = some (part, u))
    (hinner : part.IsInner) (hparam : part ≠ .parameter) :
    ∃ b body q, p = b :: q ∧ c.children[b]? = some body ∧ body.kind = .block ∧
      partAt? [k, b] .program t = some (.statement, body) ∧
        partAt? q .statement body = some (part, u) ∧
      (t.codeAhead [k, b]).length = t.itemStart k + 1 + (parametersOf c.children).length := by
  obtain ⟨Γ, hfunction⟩ := ht.typedFunction
  obtain ⟨b, body, q, rfl, hb, hblock⟩ :=
    hfunction.exists_place ((ht.partAt?_eq p).symm.trans hp) hinner hparam
  obtain ⟨hat, -, -, hahead⟩ := ht.at_body hb hblock
  refine ⟨b, body, q, rfl, hb, hblock, hat, ?_, ?_⟩
  · rw [show k :: b :: q = [k, b] ++ q from rfl, partAt?_append, hat] at hp
    exact hp
  · rw [length_codeAhead ht.child_eq hahead, ht.code_prologue, length_cons, argumentStores]
    simp
    omega

theorem FunctionIn.not_setsLocal (h : t.AssignsOutside k x i) : ¬ t.SetsLocal k i := by
  obtain ⟨p, hx, -, rfl, hrole⟩ := h
  obtain ⟨e, hp, hident, rfl⟩ := variableAt?_eq_some hx
  obtain ⟨b, body, q, rfl, hb, hblock, hat, hq, hstart⟩ := ht.exists_place hp ⟨nofun, nofun⟩ nofun
  have hsuits := (ht.exists_code hp).1
  have hpos : 0 < (code (lower (t.roleAt (k :: b :: q)) e) (t.loweredAt (k :: b :: q))).length := by
    cases ht.reach hp with | expression _ _ _ _ _ he =>
    rw [(he.code_variable hident hsuits _).2]
    rcases hrole with ⟨d, hrole⟩ | hrole <;> rw [hrole] <;> exact Nat.succ_pos _
  rw [show k :: b :: q = [k, b] ++ q from rfl] at hpos ⊢
  rw [roleAt_append hat, loweredAt_append hat] at hpos
  rw [codeAhead_append hat, length_append]
  rintro (⟨c', hc', -, hle⟩ | ⟨p', u, hp', hlast⟩)
  · cases ht.child_eq.symm.trans hc'
    omega
  · obtain ⟨b', body', q', rfl, hb', hblock', -, hq', -⟩ := ht.exists_place hp' ⟨nofun, nofun⟩ nofun
    obtain ⟨Γ, hfunction⟩ := ht.typedFunction
    obtain rfl : b = b' :=
      (hfunction.body_index hb hblock).trans (hfunction.body_index hb' hblock').symm
    cases hb.symm.trans hb'
    rw [show k :: b :: q' = [k, b] ++ q' from rfl, codeAhead_append hat, roleAt_append hat,
      loweredAt_append hat, length_append] at hlast
    refine (ht.reach hat).start_ne_store (ht.exists_code hat).1 ⟨nofun, nofun⟩ nofun
      (t.loweredAt [k, b]) hq hq' hpos ?_
    omega

theorem FunctionIn.exists_store_of_setsLocal (h : t.SetsLocal k i) :
    ∃ slot, t.lower.code[i]? = some (.store slot) := by
  rw [← Array.getElem?_toList]
  rcases h with ⟨c', hc', hlt, hle⟩ | ⟨p, u, hp, hlast⟩
  · cases ht.child_eq.symm.trans hc'
    obtain ⟨behind, hcode⟩ := ht.exists_stores
    have hlen := (Tree.at_item ht.child_eq).2.2
    have hi : i = (t.codeAhead [k]).length + (i - t.itemStart k - 1 + 1) := by omega
    rw [hcode, hi, getElem?_append_right (Nat.le_add_right _ _), Nat.add_sub_cancel_left,
      cons_append,
      getElem?_cons_succ, getElem?_append_left (by simp; omega), ← map_reverse, getElem?_map,
      getElem?_eq_getElem (by simp; omega)]
    exact ⟨_, rfl⟩
  · obtain ⟨hsuits, behind, hcode⟩ := ht.exists_code hp
    generalize t.roleAt (k :: p) = r at hsuits hcode hlast
    cases hsuits with | declarator ty =>
    rw [lower, code_declarator] at hcode hlast
    rw [length_append, length_singleton] at hlast
    rw [hcode, ← append_assoc, ← append_assoc, getElem?_append_left (by simp; omega),
      getElem?_append_right (by simp; omega)]
    rw [length_append, show i - _ = 0 by omega]
    exact ⟨_, rfl⟩

theorem FunctionIn.exists_access (hx : t.variableAt? (k :: p) = some x)
    (hfound : t.isFoundOutside k p x) :
    ∃ behind, t.lower.code.toList = t.codeAhead (k :: p) ++
      ((t.roleAt (k :: p)).access x ++ behind) := by
  obtain ⟨e, hp, hident, rfl⟩ := variableAt?_eq_some hx
  obtain ⟨hsuits, behind, hcode⟩ := ht.exists_code hp
  have hnone := (ht.isFoundOutside_iff hp ⟨nofun, nofun⟩).mp hfound
  cases ht.reach hp with | expression _ _ _ _ _ he =>
  rw [(he.code_variable hident hsuits _).2, ht.slotOf_eq hp ⟨nofun, nofun⟩, variableOf,
    hnone] at hcode
  exact ⟨behind, hcode⟩

/-- **Assertions ahead of a name** hold where it is accessed. -/
theorem Assertions.ahead_variable {X : Type} {P : Assertions t X} {a : X} {j : Nat}
    (hx : t.variableAt? (k :: p) = some x) (h : P.At j (t.codeAhead (k :: p)).length a) :
    j = k ∧ P.outline.ahead (k :: p) a := by
  obtain ⟨e, hp, hident, rfl⟩ := variableAt?_eq_some hx
  obtain ⟨before, behind, hahead, hcode, -⟩ := exists_itemCode ht.toTypedTree ht.child_eq hp
  obtain ⟨hsuits, behind', hcode'⟩ := ht.exists_code hp
  obtain ⟨instr, rest, haccess, hplaced⟩ : ∃ instr rest,
      code (lower (t.roleAt (k :: p)) e) (t.loweredAt (k :: p)) = instr :: rest ∧
          instr.placed? = none := by
    cases ht.reach hp with | expression _ _ _ _ _ he =>
    rw [(he.code_variable hident hsuits _).2]
    generalize t.roleAt (k :: p) = r at hsuits
    cases hsuits with
    | entry => cases hident
    | _ => exact ⟨_, _, rfl, rfl⟩
  have hlen := length_codeAhead ht.child_eq hahead
  have hin : t.InItem k (t.codeAhead (k :: p)).length := by
    have hnext := t.itemStart_succ k
    rw [hcode, haccess] at hnext
    simp only [length_append, length_cons] at hnext
    exact ⟨by omega, by omega⟩
  obtain rfl : j = k := h.inItem.unique hin
  have hinstr : t.lower.code[(t.codeAhead (j :: p)).length]? = some instr := by
    rw [← Array.getElem?_toList, hcode', haccess, getElem?_append_right (Nat.le_refl _),
      Nat.sub_self]
    rfl
  exact ⟨rfl, h.ahead ht.toTypedTree hp ⟨nofun, nofun⟩ nofun hinstr hplaced⟩

end Outside

/-- **What names from outside of a function see.** In every run of an accepted source that starts at
a function, where a name occurs that typing finds outside of the function, and that no part from
which control may come there declares:

* The occurrence is an access to the slot of that name. If the slot has no origins, it is zero.
* All its origins are assignments by names that typing finds outside too. They set no parameter and
  no declared name of the function; those are set by stores. -/
theorem compile_outer_origins {source : String} {program : Program}
    (h : compile source = .ok program) :
    let t := (parse source).1
    (∀ k c i, t.children[k]? = some c → c.kind = .function → t.SetsLocal k i →
      ∃ slot, program.code[i]? = some (.store slot)) ∧
    ∀ entry arity limit s s₀ n r, t.arity entry = some arity →
      (Machine.load program entry limit).start? s = some s₀ →
      (Machine.load program entry limit).originsAfter s₀ n = some r →
      ∀ k c p x, t.children[k]? = some c → c.kind = .function → t.variableAt? (k :: p) = some x →
        t.isFoundOutside k p x → t.undeclaredAhead x (k :: p) →
        r.state.ip = (t.codeAhead (k :: p)).length →
        (∃ behind, program.code.toList = t.codeAhead (k :: p) ++
          ((t.roleAt (k :: p)).access x ++ behind)) ∧
        (r.origins x = [] → r.state.locals.load x = .zero) ∧
        ∀ i ∈ r.origins x, t.AssignsOutside k x i ∧ ¬ t.SetsLocal k i := by
  obtain ⟨ht, rfl⟩ := compile_typedTree h
  intro t
  refine ⟨fun k c i hc hfun => FunctionIn.exists_store_of_setsLocal ⟨ht, hc, hfun⟩, ?_⟩
  intro entry arity limit s s₀ n r harity hstart hrun k c p x hc hfun hx hfound hundeclared hip
  have hf : FunctionIn IsName t k c := ⟨ht, hc, hfun⟩
  obtain ⟨behind, hcode⟩ := hf.exists_access hx hfound
  refine ⟨⟨behind, hcode⟩, fun hnil => ?_, fun i hi => ?_⟩
  · have hfaithful := Machine.faithful_originsAfter hstart hrun
    rw [Locals.load, (List.forall₂_cons.mp hfaithful).1 x hnil]
    rfl
  · obtain ⟨P, htracking, hentry, houtline⟩ := ht.exists_assertions_origins
    obtain ⟨k', htracks⟩ := Assertions.tracks_originsAfter ht htracking hentry harity hstart hrun
    have hrunning := htracks.running
    rw [hip] at hrunning
    obtain ⟨rfl, hahead⟩ := Assertions.ahead_variable hf hx hrunning
    rw [houtline] at hahead
    have hassigns := hahead (.outer x) ⟨hf.isName hx, hundeclared⟩ i hi
    exact ⟨hassigns, hf.not_setsLocal hassigns⟩

/-- A source text in which a variable from outside is assigned and used ahead of local ones of the
same name. -/
def outerAhead : String :=
  "int x = 5; " ++
  "fn int main() { x = 3; if (x) { printInt(x); } else { int x = 4; } { int x = 7; } return 0; }"

/-- What is printed there is what was assigned to the variable from outside. -/
theorem outerAhead_outer_origins : ∃ s₀ r,
    (Machine.load (parse outerAhead).1.lower).start? { input := ⟨[], false⟩, sink := {} } =
      some s₀ ∧
    (Machine.load (parse outerAhead).1.lower).originsAfter s₀ 5 = some r ∧
    (parse outerAhead).1.undeclaredAhead "x" [1, 1, 1, 1, 0, 0, 1] ∧ r.origins "x" = [4] ∧
    (parse outerAhead).1.AssignsOutside 1 "x" 4 ∧ ¬ (parse outerAhead).1.SetsLocal 1 4 := by
  have hfacts : (parse outerAhead).2.isEmpty ∧ (parse outerAhead).1.typeErrors.isEmpty ∧
      (parse outerAhead).1.arity "main" = some 0 ∧
      ((parse outerAhead).1.children[1]?).map Tree.kind = some .function ∧
      (parse outerAhead).1.variableAt? [1, 1, 1, 1, 0, 0, 1] = some "x" ∧
      (parse outerAhead).1.isFoundOutside 1 [1, 1, 1, 0, 0, 1] "x" ∧
      (parse outerAhead).1.undeclaredAhead "x" [1, 1, 1, 1, 0, 0, 1] ∧
      (((Machine.load (parse outerAhead).1.lower).start? { input := ⟨[], false⟩, sink := {} }).bind
          fun s₀ =>
        ((Machine.load (parse outerAhead).1.lower).originsAfter s₀ 5).map fun r =>
          (decide (r.state.ip = ((parse outerAhead).1.codeAhead [1, 1, 1, 1, 0, 0, 1]).length),
            r.origins "x")) =
        some (true, [4]) := by
    rw [parse_append outerAhead rfl]
    decide +kernel
  obtain ⟨hparse, htypes, harity, hfunction, hx, hfound, hundeclared, hrun⟩ := hfacts
  obtain ⟨c, hc, hfun⟩ := Option.map_eq_some_iff.mp hfunction
  obtain ⟨s₀, hstart, hrun⟩ := Option.bind_eq_some_iff.mp hrun
  obtain ⟨r, hr, heq⟩ := Option.map_eq_some_iff.mp hrun
  obtain ⟨hip, horigins⟩ := Prod.mk.inj heq
  obtain ⟨-, -, hall⟩ := (compile_outer_origins (compile_of_isEmpty hparse htypes)).2 "main" 0 _ _
    s₀ 5 r harity hstart
    hr 1 c _ "x" hc hfun hx hfound hundeclared (of_decide_eq_true hip)
  obtain ⟨hassigns, hlocal⟩ := hall 4 (by rw [horigins]; exact List.mem_singleton_self 4)
  exact ⟨s₀, r, hstart, hr, hundeclared, horigins, hassigns, hlocal⟩

/-- A source text with a local variable between an assignment to a variable from outside of the same
name and its use. -/
def leakedLocal : String := "int x; fn int main() { x = 3; { int x = 7; } printInt(x); return 0; }"

/-- **A local variable leaks into a name from outside**, if it is declared ahead of that name. -/
theorem exists_leaked_local : ∃ program s₀ r i, compile leakedLocal = .ok program ∧
    (Machine.load program).start? { input := ⟨[], false⟩, sink := {} } = some s₀ ∧
    (Machine.load program).originsAfter s₀ 5 = some r ∧
    (parse leakedLocal).1.variableAt? [1, 1, 2, 0, 1] = some "x" ∧
    (parse leakedLocal).1.isFoundOutside 1 [1, 2, 0, 1] "x" ∧
    r.state.ip = ((parse leakedLocal).1.codeAhead [1, 1, 2, 0, 1]).length ∧
    i ∈ r.origins "x" ∧ (parse leakedLocal).1.SetsLocal 1 i ∧
        (r.state.locals.load "x").toInt = 7 := by
  have hfacts : (parse leakedLocal).2.isEmpty ∧ (parse leakedLocal).1.typeErrors.isEmpty ∧
      (parse leakedLocal).1.variableAt? [1, 1, 2, 0, 1] = some "x" ∧
      (parse leakedLocal).1.isFoundOutside 1 [1, 2, 0, 1] "x" ∧
      ((Tree.partAt? [1, 1, 1, 0, 1] .program (parse leakedLocal).1).map fun declared =>
        (declared.1, ((parse leakedLocal).1.codeAhead [1, 1, 1, 0, 1]).length +
          (code (lower ((parse leakedLocal).1.roleAt [1, 1, 1, 0, 1]) declared.2)
            ((parse leakedLocal).1.loweredAt [1, 1, 1, 0, 1])).length)) = some (.declarator, 7) ∧
      (((Machine.load (parse leakedLocal).1.lower).start? { input := ⟨[], false⟩, sink := {} }).bind
          fun s₀ =>
        ((Machine.load (parse leakedLocal).1.lower).originsAfter s₀ 5).map fun r =>
          (decide (r.state.ip = ((parse leakedLocal).1.codeAhead [1, 1, 2, 0, 1]).length),
            r.origins "x",
            (r.state.locals.load "x").toInt)) = some (true, [6], 7) := by
    rw [parse_ofList leakedLocal rfl]
    decide +kernel
  obtain ⟨hparse, htypes, hx, hfound, hdeclared, hrun⟩ := hfacts
  obtain ⟨⟨part, u⟩, hp, hlast⟩ := Option.map_eq_some_iff.mp hdeclared
  obtain ⟨rfl, hlast⟩ := Prod.mk.inj hlast
  obtain ⟨s₀, hstart, hrun⟩ := Option.bind_eq_some_iff.mp hrun
  obtain ⟨r, hr, heq⟩ := Option.map_eq_some_iff.mp hrun
  obtain ⟨hip, heq⟩ := Prod.mk.inj heq
  obtain ⟨horigins, hvalue⟩ := Prod.mk.inj heq
  refine ⟨_, s₀, r, 6, compile_of_isEmpty hparse htypes, hstart, hr, hx, hfound,
    of_decide_eq_true hip, ?_, ?_, hvalue⟩
  · rw [horigins]
    exact List.mem_singleton_self 6
  · exact .inr ⟨_, u, hp, hlast.symm⟩

end Stacklet
