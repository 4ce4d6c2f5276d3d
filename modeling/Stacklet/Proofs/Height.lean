import Mathlib.Tactic.Convert
import Stacklet.Proofs.Execution
/-!
# Stack heights

Code for which every instruction has a height of the stack above the operands of the calls around,
whatever the way that led to it.

* `Heights`: what the heights of instructions have to do with each other, for the code of functions.
* `Machine.Even`: the stack is as high as the heights say. `even_step`: steps keep it so, and leave
  alone what the calls around have on the stack. `even_of_steps`: so it is after any number of
  steps.
* `Machine.Returns`: a call and the return that belongs to it. `returns_stack`: together they put
  one value in the place of the arguments.
* `not_failure`: nothing but a stream can fail.
-/

namespace Stacklet.Machine

open List

variable {stack : List Value} {n : Nat}

variable {m : Machine} {arity : String → Option Nat} {region : Nat → Prop} {height : Nat → Nat}

/-- Heights of the instructions in a region of code that is only left by calls and returns. -/
structure Heights (m : Machine) (arity : String → Option Nat) (region : Nat → Prop)
    (height : Nat → Nat) : Prop where
  /-- No way leads out of the code at its end. -/
  exists_instr : ∀ i, region i → ∃ instr, m.program.code[i]? = some instr
  goesOn : ∀ i instr, region i → m.program.code[i]? = some instr → instr.goesOn →
    instr.takes ≤ height i ∧ region (i + 1) ∧ height (i + 1) = height i - instr.takes + instr.gives
  jump : ∀ i instr l, region i → m.program.code[i]? = some instr → instr.target? = some l →
    ∃ j, m.target? l = some j ∧ region j ∧ height i = instr.takes ∧ height j = 0
  call : ∀ i f, region i → m.program.code[i]? = some (.call f) → Builtin.ofName? f = none →
    ∃ n j, arity f = some n ∧ m.target? f = some j ∧ region j ∧ height j = n ∧ n ≤ height i ∧
      region (i + 1) ∧
      height (i + 1) = height i - n + 1
  ret : ∀ i, region i → m.program.code[i]? = some .ret → height i = 1

variable (height) in
/-- The number of operands that suspended calls have on the stack. -/
def suspendedHeight : List Suspended → Nat
  | [] => 0
  | c :: callers => height c.returnTo - 1 + suspendedHeight callers

/-- A state in which the stack is as high as the heights say. -/
structure Even (region : Nat → Prop) (height : Nat → Nat) (s : State) : Prop where
  region_ip : region s.ip
  callers : ∀ c ∈ s.callers, region c.returnTo ∧ 1 ≤ height c.returnTo
  length_eq : s.stack.length = height s.ip + suspendedHeight height s.callers

/-- The lowest operands of a stack. -/
def bottom (n : Nat) (stack : List Value) : List Value := stack.drop (stack.length - n)

theorem bottom_append (vs : List Value) (h : n ≤ stack.length) :
    bottom n (vs ++ stack) = bottom n stack := by
  rw [bottom, bottom, length_append, Nat.add_sub_assoc h, drop_append,
    drop_eq_nil_of_le (Nat.le_add_right _ _), nil_append, Nat.add_sub_cancel_left]

theorem bottom_drop {k : Nat} (h : n + k ≤ stack.length) :
    bottom n (stack.drop k) = bottom n stack := by
  rw [bottom, bottom, drop_drop, length_drop]
  congr 1
  omega

theorem length_bottom (h : n ≤ stack.length) : (bottom n stack).length = n := by
  rw [bottom, length_drop]
  omega

theorem bottom_eq_of_le {k : Nat} {stack' : List Value} (h : bottom k stack' = bottom k stack)
    (hn : n ≤ k) (hk : k ≤ stack.length) : bottom n stack' = bottom n stack := by
  have hlen : (stack'.drop (stack'.length - k)).length = k :=
    (congrArg length h).trans (length_bottom hk)
  have low (st : List Value) (hst : k ≤ st.length) : bottom n st = bottom n (bottom k st) := by
    show st.drop (st.length - n) = (bottom k st).drop ((bottom k st).length - n)
    rw [length_bottom hst, bottom, drop_drop]
    congr 1
    omega
  rw [length_drop] at hlen
  rw [low stack' (by omega), h, ← low stack hk]

theorem suspendedHeight_le {callers callers' : List Suspended} (h : callers <:+ callers') :
    suspendedHeight height callers ≤ suspendedHeight height callers' := by
  obtain ⟨inner, rfl⟩ := h
  induction inner with
  | nil => exact Nat.le_refl _
  | cons c inner ih => exact Nat.le_trans ih (Nat.le_add_left _ _)

section Discipline

variable (hH : Heights m arity region height) {s s' : State}

include hH

theorem takes_le (hs : Even region height s) {i : Instr} (hi : m.program.code[s.ip]? = some i) :
    i.takes ≤ height s.ip := by
  by_cases hon : i.goesOn
  · exact (hH.goesOn _ _ hs.region_ip hi hon).1
  · cases i with
    | call f =>
      rw [Instr.takes, Option.not_isSome_iff_eq_none.mp hon]
      exact Nat.zero_le _
    | jump | ret => exact Nat.zero_le _
    | _ => exact absurd rfl hon

/-- **No instruction fails** in an even state, unless a stream does. -/
theorem not_failure (hs : Even region height s) {i : Instr} {f : Fault}
    (hi : m.program.code[s.ip]? = some i) (hf : Failure m s i f) : ∃ e, f = .stream e := by
  cases hf with
  | stream e => exact ⟨e, rfl⟩
  | underflow hlt =>
    have hle := takes_le hH hs hi
    have hlen := hs.length_eq
    omega
  | label l hl hnone =>
    obtain ⟨j, hj, -⟩ := hH.jump _ _ l hs.region_ip hi hl
    exact absurd (hj.symm.trans hnone) (Option.some_ne_none j)
  | function f hcall hb hnone =>
    subst hcall
    obtain ⟨n, j, -, hj, -⟩ := hH.call _ f hs.region_ip hi hb
    exact absurd (hj.symm.trans hnone) (Option.some_ne_none j)

/-- **Steps keep the stack even** and leave alone what the calls around have on it. -/
theorem even_step (hs : Even region height s) (h : m.step s = .next s') :
    Even region height s' ∧
      bottom (suspendedHeight height s.callers) s'.stack = bottom (suspendedHeight height s.callers)
        s.stack := by
  obtain ⟨i, hi, htakes, hmove⟩ := move_of_step h
  have hlen := hs.length_eq
  cases hmove with
  | onward vs locals world hon hgives =>
    obtain ⟨hle, hregion, hheight⟩ := hH.goesOn _ _ hs.region_ip hi hon
    refine ⟨⟨hregion, hs.callers, ?_⟩, ?_⟩
    · show (vs ++ s.stack.drop i.takes).length =
        height (s.ip + 1) + suspendedHeight height s.callers
      rw [length_append, length_drop, hheight]
      omega
    · show bottom _ (vs ++ s.stack.drop i.takes) = _
      rw [bottom_append, bottom_drop (by omega)]
      rw [length_drop]
      omega
  | jump l ip hl hip =>
    obtain ⟨j, hj, hregion, hheight, hzero⟩ := hH.jump _ _ l hs.region_ip hi hl
    obtain rfl : ip = j := Option.some.inj (hip.symm.trans hj)
    refine ⟨⟨hregion, hs.callers, ?_⟩, bottom_drop (by omega)⟩
    show (s.stack.drop i.takes).length = height ip + suspendedHeight height s.callers
    rw [length_drop, hzero]
    omega
  | call f ip hcall hb hip =>
    subst hcall
    obtain ⟨n, j, -, hj, hregion, hheight, hle, hback, hbehind⟩ := hH.call _ f hs.region_ip hi hb
    obtain rfl : ip = j := Option.some.inj (hip.symm.trans hj)
    refine ⟨⟨hregion, ?_, ?_⟩, rfl⟩
    · refine forall_mem_cons.mpr ⟨⟨hback, ?_⟩, hs.callers⟩
      show 1 ≤ height (s.ip + 1)
      omega
    · show s.stack.length = height ip + suspendedHeight height (⟨s.ip + 1, s.locals⟩ :: s.callers)
      show s.stack.length = height ip + (height (s.ip + 1) - 1 + suspendedHeight height s.callers)
      omega
  | ret caller callers hret hcallers =>
    subst hret
    have hone := hH.ret _ hs.region_ip hi
    have hback := hs.callers
    rw [hcallers] at hback hlen
    obtain ⟨⟨hregion, hpos⟩, hrest⟩ := forall_mem_cons.mp hback
    refine ⟨⟨hregion, hrest, ?_⟩, rfl⟩
    rw [suspendedHeight] at hlen
    show s.stack.length = height caller.returnTo + suspendedHeight height callers
    omega

/-- **The stack is even in every state** that is reached. -/
theorem even_of_steps (hs : Even region height s) (h : m.Steps s s') : Even region height s' := by
  induction h with
  | refl => exact hs
  | tail _ h ih => exact (even_step hH ih h).1

end Discipline

/-! ## Calls and returns -/

/-- Some steps in a row within calls that none of them leaves. -/
abbrev Inside (m : Machine) (callers : List Suspended) : State → State → Prop :=
  Relation.ReflTransGen fun s s' => m.step s = .next s' ∧ callers <:+ s.callers

/-- A call, and the return that belongs to it. -/
inductive Returns (m : Machine) (s : State) : State → Prop
  | mk {first last s' : State} : m.step s = .next first →
      first.callers = ⟨s.ip + 1, s.locals⟩ :: s.callers →
    m.Inside first.callers first last → last.callers = first.callers →
      m.program.code[last.ip]? = some .ret →
    m.step last = .next s' → Returns m s s'

theorem callers_of_call {s first : State} {f : String} (hi : m.program.code[s.ip]? = some (.call f))
    (hb : Builtin.ofName? f = none) (h : m.step s = .next first) :
    first.callers = ⟨s.ip + 1, s.locals⟩ :: s.callers := by
  obtain ⟨i, hi', -, hmove⟩ := move_of_step h
  obtain rfl : i = .call f := Option.some.inj (hi'.symm.trans hi)
  cases hmove with
  | onward _ _ _ hon => simp [Instr.goesOn, hb] at hon
  | jump _ _ hl => cases hl
  | call => rfl
  | ret _ _ hr => cases hr

theorem exists_returns {s first s' : State} (hcall : m.step s = .next first)
    (hfirst : first.callers = ⟨s.ip + 1, s.locals⟩ :: s.callers) (h : m.Steps first s') :
    m.Inside first.callers first s' ∧ first.callers <:+ s'.callers ∨ ∃ s'', m.Returns s s'' ∧
    m.Steps s'' s' := by
  induction h with
  | refl => exact .inl ⟨.refl, suffix_rfl⟩
  | tail _ hstep ih =>
    rcases ih with ⟨hin, hsuffix⟩ | ⟨s'', hret, hsteps⟩
    · have hin' := hin.tail ⟨hstep, hsuffix⟩
      obtain ⟨i, hi, -, hmove⟩ := move_of_step hstep
      cases hmove with
      | onward | jump => exact .inl ⟨hin', hsuffix⟩
      | call => exact .inl ⟨hin', hsuffix.trans (suffix_cons ..)⟩
      | ret caller callers hret hcallers =>
        subst hret
        rw [hcallers] at hsuffix
        rcases suffix_cons_iff.mp hsuffix with heq | hsuffix
        · exact .inr ⟨_, .mk hcall hfirst hin (hcallers.trans heq.symm) hi hstep, .refl⟩
        · exact .inl ⟨hin', hsuffix⟩
    · exact .inr ⟨s'', hret, hsteps.tail hstep⟩

section Discipline

variable (hH : Heights m arity region height) {s s' : State}

include hH

theorem bottom_of_inside {callers : List Suspended} (hs : Even region height s)
    (h : m.Inside callers s s') :
    Even region height s' ∧
      bottom (suspendedHeight height callers) s'.stack = bottom (suspendedHeight height callers)
        s.stack := by
  induction h with
  | refl => exact ⟨hs, rfl⟩
  | tail _ h ih =>
    obtain ⟨heven, hbottom⟩ := ih
    obtain ⟨heven', hbottom'⟩ := even_step hH heven h.1
    refine ⟨heven', (bottom_eq_of_le hbottom' (suspendedHeight_le h.2) ?_).trans hbottom⟩
    rw [heven.length_eq]
    exact Nat.le_add_left _ _

/-- **A call and its return** put one value in the place of the arguments and leave all else
alone. -/
theorem returns_stack {f : String} (hs : Even region height s)
    (hi : m.program.code[s.ip]? = some (.call f)) (hb : Builtin.ofName? f = none)
    (hn : arity f = some n) (h : m.Returns s s') :
    n ≤ height s.ip ∧ s'.ip = s.ip + 1 ∧ s'.locals = s.locals ∧ s'.callers = s.callers ∧
      ∃ v, s'.stack = v :: s.stack.drop n := by
  obtain @⟨first, last, _, hcall, hfirst, hin, hlast, hret, hback⟩ := h
  obtain ⟨n', j, hn', -, -, -, hle, -, hbehind⟩ := hH.call _ f hs.region_ip hi hb
  obtain rfl : n = n' := Option.some.inj (hn.symm.trans hn')
  have hstack : first.stack = s.stack := by
    obtain ⟨i, hi', -, hmove⟩ := move_of_step hcall
    cases hmove with
    | onward | jump => exact absurd hfirst.symm (cons_ne_self _ _)
    | call => rfl
    | ret => rfl
  obtain ⟨heven, hbottom⟩ := bottom_of_inside hH (even_step hH hs hcall).1 hin
  have hone := hH.ret _ heven.region_ip hret
  have hheight : suspendedHeight height first.callers = height s.ip - n + suspendedHeight
      height s.callers := by
    rw [hfirst, suspendedHeight, hbehind, Nat.add_sub_cancel]
  have hlen := heven.length_eq
  have hlen' := hs.length_eq
  rw [hone, hlast] at hlen
  have hdrop : last.stack.drop 1 = s.stack.drop n := by
    rw [hstack, bottom, bottom, hlen] at hbottom
    convert hbottom using 2 <;> omega
  obtain ⟨i, hi', -, hmove⟩ := move_of_step hback
  obtain rfl : i = .ret := Option.some.inj (hi'.symm.trans hret)
  cases hmove with
  | onward _ _ _ hon => cases hon
  | jump _ _ hl => cases hl
  | call _ _ hc => cases hc
  | ret caller callers _ hcallers =>
    obtain ⟨rfl, rfl⟩ := cons.inj (hcallers.symm.trans (hlast.trans hfirst))
    refine ⟨hle, rfl, rfl, rfl, ?_⟩
    show ∃ v, last.stack = v :: s.stack.drop n
    rw [← hdrop]
    match hlast : last.stack with
    | [] => rw [hlast, length_nil] at hlen; omega
    | v :: stack => exact ⟨v, rfl⟩

end Discipline

end Stacklet.Machine
