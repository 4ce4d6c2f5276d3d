import Stacklet.Proofs.Effects
import Stacklet.Proofs.Logic.Program
/-!
# Assertions along runs

* `Assertions.Tracks`: what is asserted holds of the running call and of all calls that wait.
* `Tracks.start`, `Tracks.next`: so it is when a run starts, and a step keeps it.
-/

namespace Stacklet

variable {X : Type} {N : String → Prop} {t c : Tree} {k k' i : Nat} {f : String} {x x' : X}
  {xs : List X}

/-- What an instruction does to the things that are tracked. Labels and jumps leave them as they
are. -/
def Tracking.Passes (T : Tracking X) (i : Nat) (instr : Instr) (x x' : X) : Prop :=
  match instr with
  | .label _ | .jump _ => x' = x
  | _ => T.acts i instr x x'

/-- The function of a program with the number `k` has the name `f`. -/
def Tree.HasFunction (t : Tree) (k : Nat) (f : String) : Prop :=
  ∃ c, t.children[k]? = some c ∧ c.kind = .function ∧ c.text = f

theorem Tree.exists_hasFunction {n j : Nat} (hn : t.arity f = some n)
    (hj : t.lower.labels.lookup f = some j) :
    ∃ k, t.HasFunction k f ∧ j = t.itemStart k := by
  obtain ⟨k, c, hc, -, hl | ⟨hfun, rfl, rfl⟩⟩ :=
    exists_label_cases (Program.getElem?_of_lookup_labels hj)
  · exact absurd ((arity_of_mem_minted hl).symm.trans hn) (Option.some_ne_none n).symm
  · exact ⟨k, ⟨c, hc, hfun, rfl⟩, rfl⟩

namespace Assertions

variable {P : Assertions t X}

theorem At.pass {m : Machine} {s s' : Machine.State} {instr : Instr}
    (hm : m.labels = t.lower.labels) (h : P.At k s.ip x) (hi : t.lower.code[s.ip]? = some instr)
    (hmove : m.Move s instr s') (hcall : ∀ f, instr = .call f → Builtin.ofName? f ≠ none)
    (hret : instr ≠ .ret) (hx' : (P.tracking k).Passes s.ip instr x x') :
    P.At k s'.ip x' ∧ s'.callers = s.callers := by
  cases hmove with
  | call f ip hf hb => exact absurd hb (hcall f hf)
  | ret caller callers hr => exact absurd hr hret
  | jump l ip hl hto =>
    refine ⟨?_, rfl⟩
    have hto : t.lower.labels.lookup l = some ip := hm ▸ hto
    cases instr with
    | jump l' =>
      obtain rfl := Option.some.inj hl
      obtain rfl : x' = x := hx'
      exact h.jump hi hto
    | jumpIfZero l' =>
      obtain rfl := Option.some.inj hl
      exact h.jumpIfZero hi hto hx'
    | _ => cases hl
  | onward _ _ _ hon =>
    refine ⟨?_, rfl⟩
    cases instr with
    | label l =>
      obtain rfl : x' = x := hx'
      exact h.label hi
    | jump | ret => cases hon
    | _ => exact h.onward hi rfl (fun B hB => ⟨x, hB, hx'⟩) rfl

variable (P)

/-- The calls that wait for the function with the number `k` stand where it is called, and what is
asserted there holds of them. -/
inductive Waits : Nat → List Machine.Suspended → List X → Prop
  | nil (k : Nat) : Waits k [] []
  | cons (k k' i : Nat) (f : String) (locals : Locals) (callers : List Machine.Suspended)
      (x : X) (xs : List X) :
    P.At k' i x → t.lower.code[i]? = some (.call f) → Builtin.ofName? f = none → t.HasFunction k f →
    Waits k' callers xs → Waits k (⟨i + 1, locals⟩ :: callers) (x :: xs)

/-- What is asserted holds of the running call, which is one of the function with the number `k`,
and of all calls that wait. -/
structure Tracks (k : Nat) (s : Machine.State) (x : X) (xs : List X) : Prop where
  running : P.At k s.ip x
  waiting : P.Waits k s.callers xs

/-- How a step goes on from what is asserted: within the running call, with a call of a function, or
with a return. -/
inductive Next (k : Nat) (s : Machine.State) (x : X) (xs : List X) (s' : Machine.State) : Prop
  | onward (instr : Instr) : t.lower.code[s.ip]? = some instr →
      Effect instr s.stack s.locals s'.stack s'.locals →
    (∀ f, instr = .call f → Builtin.ofName? f ≠ none) → instr ≠ .ret → s'.callers = s.callers →
    (∀ x', (P.tracking k).Passes s.ip instr x x' → P.Tracks k s' x' xs) → Next k s x xs s'
  | call (f : String) (k' : Nat) : t.lower.code[s.ip]? = some (.call f) → Builtin.ofName? f = none →
      t.HasFunction k' f →
    s'.stack = s.stack → s'.locals = [] → s'.callers = ⟨s.ip + 1, s.locals⟩ :: s.callers →
    (∀ x', P.entry k' x' → P.Tracks k' s' x' (x :: xs)) → Next k s x xs s'
  | ret (f : String) (k' i : Nat) (locals : Locals) (callers : List Machine.Suspended)
      (y : X) (ys : List X) :
    t.lower.code[s.ip]? = some .ret → s.callers = ⟨i + 1, locals⟩ :: callers → xs = y :: ys →
      P.At k' i y →
    t.lower.code[i]? = some (.call f) → Builtin.ofName? f = none → t.HasFunction k f →
    s'.stack = s.stack → s'.locals = locals → s'.callers = callers →
    (∀ y', (P.tracking k').acts i (.call f) y y' → P.Tracks k' s' y' ys) → Next k s x xs s'

variable {P}

/-- **When a run starts**, what is asserted at the start of its function holds. -/
theorem Tracks.start {entry : String} {n : Nat} {limit : Nat} {s s₀ : Machine.State}
    (hn : t.arity entry = some n) (hstart : (Machine.load t.lower entry limit).start? s = some s₀) :
    ∃ k, t.HasFunction k entry ∧ s₀.stack = [] ∧ s₀.locals = [] ∧ s₀.callers = [] ∧
    s₀.ip = t.itemStart k ∧
      ∀ x, P.entry k x → P.Tracks k s₀ x [] := by
  obtain ⟨j, hj, rfl⟩ := Option.map_eq_some_iff.mp hstart
  obtain ⟨k, ⟨c, hc, hfun, htext⟩, rfl⟩ := Tree.exists_hasFunction hn hj
  exact ⟨k, ⟨c, hc, hfun, htext⟩, rfl, rfl, rfl, rfl, fun x hx => ⟨.start hc hfun hx, .nil k⟩⟩

/-- **A step keeps what is asserted.** -/
theorem Tracks.next (ht : TypedProgram N t) {entry : String} {limit : Nat} {s s' : Machine.State}
    (h : P.Tracks k s x xs) (hstep : (Machine.load t.lower entry limit).step s = .next s') :
    P.Next k s x xs s' := by
  obtain ⟨instr, hi, -, hmove⟩ := Machine.move_of_step hstep
  have hi : t.lower.code[s.ip]? = some instr := hi
  by_cases hcall : ∃ f, instr = .call f ∧ Builtin.ofName? f = none
  · obtain ⟨f, rfl, hb⟩ := hcall
    cases hmove with
    | onward _ _ _ hon => simp [Instr.goesOn, hb] at hon
    | jump _ _ hl => cases hl
    | ret _ _ hr => cases hr
    | call _ ip hf _ hto =>
      cases hf
      obtain ⟨n, hn⟩ := Tree.known_of_call ht hi hb
      obtain ⟨k', hk', rfl⟩ := Tree.exists_hasFunction hn hto
      refine .call f k' hi hb hk' rfl rfl rfl fun x' hx' => ⟨?_, ?_⟩
      · obtain ⟨c, hc, hfun, -⟩ := hk'
        exact .start hc hfun hx'
      · exact .cons k' k s.ip f s.locals s.callers x xs h.running hi hb hk' h.waiting
  · have hcall : ∀ f, instr = .call f → Builtin.ofName? f ≠ none := fun f hf hb => hcall ⟨f, hf, hb⟩
    by_cases hret : instr = .ret
    · subst hret
      cases hmove with
      | onward _ _ _ hon => cases hon
      | jump _ _ hl => cases hl
      | call _ _ hf => cases hf
      | ret caller callers _ hcallers =>
        obtain ⟨hrunning, hwaiting⟩ := h
        rw [hcallers] at hwaiting
        cases hwaiting with
        | cons _ k' i f locals _ y ys hy hcode hb hk hwaiting =>
          refine .ret f k' i locals callers y ys hi hcallers rfl hy hcode hb hk rfl rfl rfl
            fun y' hy' => ⟨?_, hwaiting⟩
          exact hy.onward hcode rfl (fun B hB => ⟨y, hB, hy'⟩) rfl
    · refine .onward instr hi (Machine.effect_of_step hstep hi hcall hret) hcall hret ?_
        fun x' hx' => ?_
      · cases hmove with
        | onward | jump => rfl
        | call f _ hf hb => exact absurd hb (hcall f hf)
        | ret _ _ hr => exact absurd hr hret
      · obtain ⟨hrunning, hcallers⟩ := h.running.pass rfl hi hmove hcall hret hx'
        exact ⟨hrunning, hcallers ▸ h.waiting⟩

end Assertions

end Stacklet
