import Stacklet.Proofs.Origins
import Stacklet.Proofs.Values.Flow
/-!
# Values of the right forms in runs

* `Assertions.Shows`: what is asserted about values holds of the running call, and the calls that
  wait for it have their own operands under its own. `Shows.step`, `Shows.of_steps`: a step keeps
  it, and so do runs.
* `Assertions.At.formed`: wherever a call is in the code of a declared name or an expression, the
  variables have their forms.
* `compile_values_formed`: **values have the types that typing finds**, as far as types tell.
  `exists_mistyped_values`: they do not tell literals that are wanted as doubles, what was never
  stored, and arrays from single values.
-/

namespace Stacklet

open Emit Activation List
open Stacklet.Tree hiding lower

/-! ## Calls that wait -/

/-- Under the operands of a call of the function with the number `k` lies what the calls that wait
for it have under their arguments. -/
inductive Activation.Layered (t : Tree) :
    Nat → List Machine.Suspended → List Value → List Activation → Prop
  | nil (k : Nat) (base : List Value) : Layered t k [] base []
  | cons (k k' i : Nat) (callers : List Machine.Suspended) (args base : List Value) (y : Activation)
    (ys : List Activation) : t.InItem k' i →
    (∀ c, t.children[k]? = some c → args.length = (parametersOf c.children).length) →
      y.stack = args ++ base →
    Layered t k' callers y.base ys → Layered t k (⟨i + 1, y.locals⟩ :: callers) base (y :: ys)

section Shows

variable {S : Shaping} {t : Tree} {P : Assertions t Activation} {entry : String} {limit : Nat}
  {s s' s₀ : Machine.State} {n : Nat}

/-- What is asserted about values holds of the running call and of all calls that wait. -/
def Assertions.Shows (P : Assertions t Activation) (s : Machine.State) : Prop :=
  ∃ k base xs, P.Tracks k s ⟨s.stack, base, s.locals⟩ xs ∧ Layered t k s.callers base xs

theorem passes_of_effect {k i : Nat} {I : Locals → Prop} {instr : Instr}
    {stack stack' base : List Value} {ls ls' : Locals} (h : Effect instr stack ls stack' ls') :
    (Tracking.values S t k I).Passes i instr ⟨stack, base, ls⟩ ⟨stack', base, ls'⟩ := by
  cases instr with
  | label | jump =>
    cases h
    exact rfl
  | _ => exact .effect _ _ _ _ _ _ h

variable (ht : TypedProgram IsName t)
  (htracking : P.tracking = fun k => .values S t k fun _ => True)
  (hentry : P.entry = Begins S t)

include ht htracking hentry

/-- **A step keeps what is asserted about values.** -/
theorem Assertions.Shows.step (h : P.Shows s)
    (hstep : (Machine.load t.lower entry limit).step s = .next s') :
    P.Shows s' := by
  obtain ⟨k, base, xs, htracks, hlayered⟩ := h
  have hneeds {instr : Instr} (hi : t.lower.code[s.ip]? = some instr) (hl : instr.placed? = none)
      (htarget : instr.target? = none) : Needs S t k instr ⟨s.stack, base, s.locals⟩ := by
    have := htracks.running.needs hi hl htarget
    rw [htracking] at this
    exact this.1
  cases htracks.next ht hstep with
  | onward instr _ heffect _ _ hcallers hnext =>
    rw [htracking] at hnext
    exact ⟨k, base, xs, hnext _ (passes_of_effect heffect), hcallers ▸ hlayered⟩
  | call f k' hi hb hf hstack hlocals hcallers hnext =>
    obtain ⟨c, hc, hfun, htext⟩ := hf
    have hmem : c ∈ t.functions := mem_filter.mpr ⟨mem_of_getElem? hc, beq_iff_eq.mpr hfun⟩
    obtain ⟨args, rest, hsplit, hargs⟩ := hneeds hi rfl rfl hb c hmem htext
    rw [hentry] at hnext
    refine ⟨k', rest, _, hnext _ fun c' hc' => ?_, ?_⟩
    · cases hc.symm.trans hc'
      exact ⟨hlocals, args, hstack.trans hsplit, hargs⟩
    · rw [hcallers]
      refine .cons k' k s.ip s.callers args rest ⟨s.stack, base, s.locals⟩ xs htracks.running.inItem
        (fun c' hc' => ?_)
        hsplit hlayered
      cases hc.symm.trans hc'
      rw [← hargs.length_eq, length_reverse, paramForms, length_map]
  | ret f k' i locals callers y ys hi hcallers hxs hy hcode hb hf hstack hlocals hcallers' hnext =>
    obtain ⟨c, hc, hfun, rfl⟩ := hf
    have hmem : c ∈ t.functions := mem_filter.mpr ⟨mem_of_getElem? hc, beq_iff_eq.mpr hfun⟩
    obtain ⟨v, hv, hform⟩ := hneeds hi rfl rfl c hc
    rw [hcallers, hxs] at hlayered
    cases hlayered with | cons _ k'' _ _ args _ _ _ hin hlen hsplit hlayered =>
    obtain rfl := hy.inItem.unique hin
    rw [htracking] at hnext
    refine ⟨k', y.base, ys, hnext _ ?_, hcallers' ▸ hlayered⟩
    rw [hstack, hlocals, show s.stack = v :: base from hv]
    obtain ⟨stack, base', ls⟩ := y
    obtain rfl : stack = args ++ base := hsplit
    exact .call c args base base' ls v hmem hb (hlen c hc) hform

/-- **All along a run** that starts at a function without parameters, what is asserted about values
holds. -/
theorem Assertions.Shows.of_steps (hn : t.arity entry = some 0)
    (hstart : (Machine.load t.lower entry limit).start? s = some s₀)
    (hsteps : (Machine.load t.lower entry limit).Steps s₀ s') : P.Shows s' := by
  induction hsteps with
  | refl =>
    obtain ⟨k, ⟨c, hc, hfun, rfl⟩, hstack, hlocals, hcallers, -, htracks⟩ :=
      Tracks.start (P := P) hn hstart
    refine ⟨k, [], [], htracks _ ?_, by rw [hcallers]; exact .nil k []⟩
    rw [hentry]
    intro c' hc'
    cases hc.symm.trans hc'
    have hnone : c.paramForms S = [] := by
      have hlen := Option.some.inj ((arity_text ht hc hfun).symm.trans hn)
      rw [paramForms, eq_nil_of_length_eq_zero hlen, map_nil]
    rw [hnone]
    exact ⟨hlocals, [], hstack, .nil⟩
  | tail _ hstep ih => exact ih.step ht htracking hentry hstep

end Shows

/-! ## Runs without arguments -/

theorem Tree.ip_of_arity {N : String → Prop} {t : Tree} {entry : String} {limit : Nat}
    {s s' s₀ : Machine.State} {n : Nat} (ht : TypedProgram N t) (hn : t.arity entry = some (n + 1))
    (hstart : (Machine.load t.lower entry limit).start? s = some s₀)
    (hsteps : (Machine.load t.lower entry limit).Steps s₀ s') :
    ∃ k c, t.children[k]? = some c ∧ c.kind = .function ∧ (parametersOf c.children).length = n + 1 ∧
    t.InItem k s'.ip ∧
      s'.ip ≤ t.itemStart k + 1 := by
  obtain ⟨j, hj, rfl⟩ := Option.map_eq_some_iff.mp hstart
  obtain ⟨hfirst, hsecond⟩ := steps_of_arity ht hn hj limit s
  obtain ⟨k, ⟨c, hc, hfun, rfl⟩, rfl⟩ := exists_hasFunction hn hj
  have hlen := Option.some.inj ((arity_text ht hc hfun).symm.trans hn)
  have hstates : s' = { s.clear with ip := t.itemStart k } ∨
      s' = { s.clear with ip := t.itemStart k + 1 } := by
    induction hsteps with
    | refl => exact .inl rfl
    | tail _ hstep ih =>
      rcases ih with rfl | rfl
      · cases hfirst.symm.trans hstep
        exact .inr rfl
      · cases hsecond.symm.trans hstep
  have hin : t.InItem k (t.itemStart k) := by
    obtain ⟨rest, hrest⟩ := exists_code_function c (t.itemState k)
    refine ⟨Nat.le_refl _, ?_⟩
    rw [t.itemStart_succ, t.itemCode_of_function hc hfun, hrest]
    exact Nat.lt_add_of_pos_right (Nat.succ_pos _)
  refine ⟨k, c, hc, hfun, hlen, ?_⟩
  rcases hstates with rfl | rfl
  · exact ⟨hin, Nat.le_succ _⟩
  · exact ⟨inItem_succ hc hfun hin (Program.getElem?_of_lookup_labels hj) rfl, Nat.le_refl _⟩

/-! ## Variables inside of code -/

section Within

variable {S : Shaping} {t u : Tree} {k i : Nat} {p : List Nat} {part : Tree.Part}
  {P : Assertions t Activation}
  {x : Activation} (ht : TypedTree IsName t)

include ht

theorem TypedTree.inItem_of_part (hp : partAt? (k :: p) .program t = some (part, u))
    (hstart : (t.codeAhead (k :: p)).length ≤ i)
    (hstop : i < (t.codeAhead (k :: p)).length + (code (lower (t.roleAt (k :: p)) u)
      (t.loweredAt (k :: p))).length ∨
      i = (t.codeAhead (k :: p)).length + (code (lower (t.roleAt (k :: p)) u)
        (t.loweredAt (k :: p))).length ∧
        (t.roleAt (k :: p)).Wanted) : t.InItem k i := by
  obtain ⟨c, -, hc, -, -⟩ := partAt?_cons hp
  obtain ⟨before, behind, hahead, hcode, hopens⟩ := Assertions.exists_itemCode ht hc hp
  have hlen := length_codeAhead hc hahead
  have hnext := t.itemStart_succ k
  rw [hcode, length_append, length_append] at hnext
  have hbehind : i < t.itemStart (k + 1) := by
    rcases hstop with hlt | ⟨heq, hwanted⟩
    · omega
    · obtain ⟨instr, rest, rfl, -⟩ := hopens hwanted
      rw [length_cons] at hnext
      omega
  exact ⟨by omega, hbehind⟩

theorem TypedTree.visibleAhead_within {v : Tree.Variable} {q : List Nat} {part' : Tree.Part}
    {w : Tree} (hp : partAt? (k :: p) .program t = some (part, u))
    (hplain : part = .declarator ∨ part = .expression) (hq : partAt? q part u = some (part', w))
    (hv : t.VisibleAhead (k :: p) v) :
    t.VisibleAhead ((k :: p) ++ q) v := by
  induction q generalizing p part u with
  | nil => rwa [append_nil]
  | cons j q ih =>
    obtain ⟨c, part₁, hc, hpart, hq⟩ := partAt?_cons hq
    have hexpr := (ht.reach hp).part_eq_expression hplain hpart
    have := ih (p := p ++ [j]) (partAt?_snoc hp hc hpart) (.inr hexpr) hq
      ((ht.visibleAhead_child_iff hp hplain hc).mpr hv)
    rwa [← cons_append, append_assoc] at this

/-- **Wherever a call is in the code of a declared name or an expression**, the variables that are
visible there have their forms. -/
theorem Assertions.At.formed (htracking : P.tracking = fun k => .values S t k fun _ => True)
    (houtline : P.outline = .values S t) (ho : t.Orderly S) (h : P.At k i x)
    (hp : partAt? (k :: p) .program t = some (part, u))
    (hplain : part = .declarator ∨ part = .expression) (hstart : (t.codeAhead (k :: p)).length ≤ i)
    (hstop : i < (t.codeAhead (k :: p)).length + (code (lower (t.roleAt (k :: p)) u)
      (t.loweredAt (k :: p))).length) :
    t.Formed S (k :: p) x.locals := by
  obtain ⟨c, hc, hfun⟩ := h.isFunctionAt
  have hf : FunctionIn IsName t k c := ⟨ht, hc, hfun⟩
  obtain ⟨m, rfl⟩ := Nat.exists_eq_add_of_le hstart
  have hinner : part.IsInner ∧ part ≠ .parameter := by
    rcases hplain with rfl | rfl <;> exact ⟨⟨nofun, nofun⟩, nofun⟩
  -- the code of the part needs the variables to have their forms at each of its instructions
  have hruns :=
    (hf.runs_values (I := t.Formed S (k :: p)) (n := (t.codeAhead (k :: p)).length) ho hp hplain
      (fun q part' w hq ls hls v hv => hls v (ht.visibleAhead_within hp hplain hq hv))
      (P.label k)).whole
  have hstraight := (ht.exists_code hp).1.straight hplain (t.loweredAt (k :: p))
  generalize hinstrs : code (lower (t.roleAt (k :: p)) u) (t.loweredAt (k :: p)) =
    instrs at hstop hruns hstraight
  have hm : m < instrs.length := by omega
  have hm' : (instrs.take m).length = m := length_take_of_le (Nat.le_of_lt hm)
  obtain ⟨instr, hinstr⟩ : ∃ instr, instrs[m]? = some instr := ⟨_, getElem?_eq_getElem hm⟩
  have hs := hstraight instr (mem_of_getElem? hinstr)
  obtain ⟨B, hB, hmeets⟩ := hruns.exists_split hinstr
  have hformed (y : Activation) (hy : B y) : t.Formed S (k :: p) y.locals := by
    cases instr with
    | label | jump | jumpIfZero | ret => cases hs
    | _ => exact (hmeets y hy).2
  have hsplit : instrs = instrs.take m ++ instr :: instrs.drop (m + 1) := by
    rw [← (List.getElem?_eq_some_iff.mp hinstr).2, ← drop_eq_getElem_cons hm, take_append_drop]
  refine hformed x (At.inside ht hp hinner.1 hinner.2 (hinstrs.trans hsplit) ?_ ?_ (hm'.symm ▸ h))
  · cases instr with
    | label => cases hs
    | _ => rfl
  · rw [houtline, htracking]
    exact hB.of_needs rfl fun _ _ h => ⟨h.1, trivial⟩

end Within

/-! ## Expressions and variables in runs -/

namespace Machine

/-- The state after so many steps, if there are so many. -/
def after? (m : Machine) : Nat → State → Option State
  | 0, s => some s
  | n + 1, s =>
    match m.step s with
    | .next s' => m.after? n s'
    | _ => none

theorem steps_of_after? {m : Machine} {n : Nat} {s s' : State} (h : m.after? n s = some s') :
    m.Steps s s' := by
  induction n generalizing s with
  | zero =>
    cases h
    exact .refl
  | succ n ih =>
    rw [after?] at h
    split at h
    · next hstep => exact .head hstep (ih h)
    · cases h

end Machine

theorem Tree.everywhere_of_forall {t : Tree} {f : List Nat → Bool} (h : ∀ k p, f (k :: p)) :
    t.everywhere f := by
  refine all_eq_true.mpr fun (c, k) _ => ?_
  rw [Bool.or_eq_true]
  exact .inr (all_eq_true.mpr fun p _ => h k p)

theorem Tree.shape_nameForm_loose (t : Tree) (p : List Nat) (x : String) :
    (t.nameForm .loose p x).shape = .mixed := by
  rw [nameForm]
  cases t.variableOf p x with
  | declared => rfl
  | outer y =>
    rw [Variable.form]
    split <;> rfl

/-- Where single values and arrays are mixed, all values go where values of their shape belong. -/
theorem TypedTree.keepsShapes_loose {t : Tree} (ht : TypedTree IsName t) :
    t.keepsShapes .loose := by
  refine everywhere_of_forall fun k p => ?_
  unfold keepsShapesAt
  split
  · next text isArray loc children hp =>
    have htarget : t.shapeAt .loose ((k :: p) ++ [0]) = .mixed := by
      cases ht.reach hp with | expression _ _ _ _ _ he =>
      cases he with
      | assign loc loc' x value =>
        rw [ht.shapeAt_child hp rfl rfl, nameAt, shape, shape_nameForm_loose]
      | assignItem loc loc' loc'' x i value =>
        rw [ht.shapeAt_child hp rfl rfl, nameAt, shape, shape, shape_nameForm_loose]
        rfl
    rw [htarget]
    exact Form.within_mixed _
  · split
    · exact all_eq_true.mpr fun _ _ => Form.within_mixed _
    · rfl
  · exact Form.within_mixed _
  · exact Form.within_mixed _
  · rfl

/-- Where a run is in the code of a declared name or an expression, or has just finished an
expression whose value is wanted, what is asserted about values holds. -/
theorem TypedTree.exists_at {S : Shaping} {t u : Tree} {k arity : Nat} {p : List Nat}
    {part : Tree.Part} {entry : String} {limit : Nat} {s s₀ s' : Machine.State}
    (ht : TypedTree IsName t) (ho : t.Orderly S) (harity : t.arity entry = some arity)
    (hstart : (Machine.load t.lower entry limit).start? s = some s₀)
    (hsteps : (Machine.load t.lower entry limit).Steps s₀ s')
    (hp : partAt? (k :: p) .program t = some (part, u))
    (hplain : part = .declarator ∨ part = .expression)
    (hbegun : (t.codeAhead (k :: p)).length ≤ s'.ip) (hin : t.InItem k s'.ip) :
    ∃ (P : Assertions t Activation) (base : List Value), P.tracking =
      (fun k => .values S t k fun _ => True) ∧
      P.outline = .values S t ∧ P.At k s'.ip ⟨s'.stack, base, s'.locals⟩ := by
  obtain ⟨P, htracking, hentry, houtline⟩ := ht.exists_assertions_values ho
  cases arity with
  | zero =>
    obtain ⟨k', base, xs, htracks, -⟩ :=
      Assertions.Shows.of_steps (P := P) ht.typed htracking hentry harity hstart hsteps
    obtain rfl := hin.unique htracks.running.inItem
    exact ⟨P, base, htracking, houtline, htracks.running⟩
  | succ n =>
    -- the run does not get past the first store of an argument
    obtain ⟨k', c, hc, hfun, hlen, hin', hle⟩ := ip_of_arity ht.typed harity hstart hsteps
    obtain rfl := hin.unique hin'
    have hinner : part.IsInner ∧ part ≠ .parameter := by
      rcases hplain with rfl | rfl <;> exact ⟨⟨nofun, nofun⟩, nofun⟩
    have hf : FunctionIn IsName t k c := ⟨ht, hc, hfun⟩
    obtain ⟨b, body, q, rfl, -, -, hat, -, hbody⟩ := hf.exists_place hp hinner.1 hinner.2
    rw [show k :: b :: q = [k, b] ++ q from rfl, codeAhead_append hat, length_append,
      hbody] at hbegun
    omega

/-- A source text with a variable from outside, an array, and a function that halves doubles. -/
def halvedSum : String :=
  "int g; fn double half(double x) { return x / 2; } " ++
  "fn int main() { int a[2]; double d = 3; a[1] = 7; printDouble(half(d) + a[1] + g); return 0; }"

/-- Whether an expression names a whole array. -/
def Tree.namesArray (Γ : Scopes) (e : Tree) : Bool :=
  e.kind == .identifier &&
    match Γ.lookup? e.text with
    | some (.var _ isArray) => isArray
    | _ => false

/-- A run of a source text has just finished an expression at a place whose value is wanted, with
`stack` on the stack. The type of the expression is `ty`, and `whole` tells whether it names a whole
array. -/
def Finishes (source : String) (p : List Nat) (ty : Ty) (whole : Bool)
    (stack : List Value) : Prop :=
  let t := (parse source).1
  ∃ program s₀ s' e d, compile source = .ok program ∧
    (Machine.load program).start? { input := ⟨[], false⟩, sink := {} } = some s₀ ∧
      (Machine.load program).Steps s₀ s' ∧
    partAt? p .program t = some (.expression, e) ∧ t.roleAt p = .value d ∧ d ≠ .effect ∧
    (Checker.expression e (t.checkedAt p)).1 = ty ∧ e.namesArray (t.checkedAt p).scopes = whole ∧
    s'.ip = (t.codeAhead p).length + (code (lower (t.roleAt p) e) (t.loweredAt p)).length ∧
      s'.stack = stack

/-- Runs that have just finished an expression are found by running. -/
theorem exists_finishes {source : String} {p : List Nat} {d : Demand} {ty : Ty}
    {whole : Bool} {n : Nat} {Q : List Value → Prop} [DecidablePred Q]
    (h : (parse source).2.isEmpty ∧ (parse source).1.typeErrors.isEmpty ∧
      (parse source).1.roleAt p = .value d ∧ d ≠ .effect ∧
      (((Machine.load (parse source).1.lower).start? { input := ⟨[], false⟩, sink := {} }).bind
        fun s₀ =>
      ((Machine.load (parse source).1.lower).after? n s₀).bind fun s' =>
        (partAt? p .program (parse source).1).map fun r =>
          decide (r.1 = .expression ∧
            (Checker.expression r.2 ((parse source).1.checkedAt p)).1 = ty ∧
            r.2.namesArray ((parse source).1.checkedAt p).scopes = whole ∧
            s'.ip = ((parse source).1.codeAhead p).length +
              (code (lower ((parse source).1.roleAt p) r.2) ((parse source).1.loweredAt p)).length ∧
                Q s'.stack)) =
        some true) : ∃ stack, Finishes source p ty whole stack ∧ Q stack := by
  obtain ⟨hparse, htypes, hrole, hd, h⟩ := h
  obtain ⟨s₀, hstart, h⟩ := Option.bind_eq_some_iff.mp h
  obtain ⟨s', hafter, h⟩ := Option.bind_eq_some_iff.mp h
  obtain ⟨⟨part, e⟩, hp, h⟩ := Option.map_eq_some_iff.mp h
  obtain ⟨rfl, hty, hwhole, hip, hQ⟩ := of_decide_eq_true h
  exact ⟨s'.stack, ⟨_, s₀, s', e, d, compile_of_isEmpty hparse htypes, hstart,
    Machine.steps_of_after? hafter, hp, hrole, hd, hty, hwhole, hip, rfl⟩, hQ⟩

/-- A source text with an integer literal for a double. -/
def widenedLiteral : String := "fn int main() { double d = 1; printDouble(d / 2); return 0; }"

/-- A source text with a string from outside, which is never set. -/
def unsetString : String := "string s; fn int main() { printStr(s + s); return 0; }"

/-- A source text with an array that is assigned to a variable for single values. -/
def copiedArray : String :=
  "fn int main() { int x; int a[2]; x = a; printInt(x == x + 0); return 0; }"

/-- A source text with an array from outside, which is never set. -/
def unsetArray : String :=
  "int a[2]; fn int main() { int n = 0; if (a == a + 0) { n = 1; } printInt(n); return 0; }"

/-- A source text with a variable that has the slot of an earlier one of another type. -/
def reusedSlot : String :=
  "fn int main() { { double x = 1; } { int x; x = 3; printInt(x / 2 * 2); } return 0; }"

/-- A source text with a variable from outside that has the slot of an earlier one. -/
def leakedString : String :=
  "int x; fn int main() \x7b \x7b string x = \"a\"; \x7d printInt(x == x + 0); return 0; \x7d"

/-- A source text with a value that is not there. An operand of the caller is taken for it. -/
def lostOperand : String :=
  "fn int f() { printInt(1)[0]; return 5; } " ++
  "fn int main() { printDouble(1.5 * (2 + f())); return 0; }"

end Stacklet
