import Stacklet.Proofs.Height.Program
/-!
# Runs of accepted sources do not fault

* `Calls`: code whose calls are of known functions. `TypedItems.calls`: so it is for typed programs.
* `underflow_of_arity`: a run that starts at a function with parameters finds no arguments for them.
* `compile_run_faults`: which faults the runs of accepted sources can end with.
-/

namespace Stacklet

open Stacklet.Tree

variable {n : Nat} {entry : String} {c : Tree}

/-! ## Calls -/

/-- Code whose calls are of known functions. -/
def Calls (K : String → Prop) (c : List Instr) : Prop := ∀ f, Instr.call f ∈ c → K f

/-- Scopes whose functions are known. -/
def Scopes.FunctionsIn (K : String → Prop) (Γ : Scopes) : Prop :=
  ∀ f ty params, Γ.lookup? f = some (.function ty params) → K f

variable {K : String → Prop} {Γ Γ' : Scopes} {N : String → Prop}

@[simp] theorem calls_nil : Calls K [] := fun _ h => absurd h List.not_mem_nil

@[simp] theorem calls_append {c c' : List Instr} : Calls K (c ++ c') ↔ Calls K c ∧ Calls K c' := by
  simp only [Calls, List.mem_append, or_imp, forall_and]

@[simp] theorem calls_cons {i : Instr} {c : List Instr} :
    Calls K (i :: c) ↔ (∀ f, i = .call f → K f) ∧ Calls K c := by
  simp only [Calls, List.mem_cons, or_imp, forall_and, eq_comm]

theorem Scopes.FunctionsIn.adds (h : Γ.FunctionsIn K) (hΓ : Γ.Adds Γ') : Γ'.FunctionsIn K := by
  intro f ty params hf
  rcases hΓ f _ hf with hf | ⟨_, _, he, _⟩
  · exact h f ty params hf
  · cases he

open Emit

theorem calls_dropped (d : Demand) : Calls K (dropped d) := by
  cases d <;> simp [dropped]

theorem calls_unaryCode (op : String) : Calls K (unaryCode op) := by
  unfold unaryCode
  split <;> simp

theorem zeroInstr_ne_call (ty : Ty) (f : String) : zeroInstr ty ≠ .call f := by
  cases ty <;> exact Instr.noConfusion

theorem calls_endCode (ty : Ty) (c : List Instr) : Calls K (endCode ty c) := by
  unfold endCode
  split
  · exact calls_nil
  · split <;> simp [zeroInstr_ne_call]

section Expressions

mutual

theorem HasType.calls (hΓ : Γ.FunctionsIn K) {t : Tree} {ty : Ty} :
    HasType Γ t ty → ∀ (d : Demand) (s : Emit.State), Calls K (code (expression t d) s)
  | .number text loc, d, s => by
    rw [code_number, calls_cons]
    refine ⟨fun f hf => ?_, calls_dropped d⟩
    unfold literal at hf
    split at hf <;> cases hf
  | .string text loc, d, s => by simp [code_string, calls_dropped]
  | .var x loc _ _ _, d, s => by simp [code_name, calls_dropped]
  | .unary op loc e _ _ he _, d, s => by
    simp [code_unary, calls_dropped, calls_unaryCode, he.calls hΓ]
  | .binary op loc l r _ _ _ hl hr _, d, s => by
    simp [code_binary, calls_dropped, hl.calls hΓ, hr.calls hΓ]
  | .comma loc l r _ _ hl hr, d, s => by simp [code_comma, hl.calls hΓ, hr.calls hΓ]
  | .assign loc loc' x value _ _ _ _ hv _, d, s => by
    by_cases hd : d = .effect <;> simp [code_assign, hd, hv.calls hΓ]
  | .assignItem loc loc' loc'' x i value _ _ _ hi hv _, d, s => by
    by_cases hd : d = .effect
    · subst hd
      simp [code_assignItem_effect, hi.calls hΓ, hv.calls hΓ]
    · simp [code_assignItem _ _ _ _ _ _ _ _ hd, hi.calls hΓ, hv.calls hΓ]
  | .call loc loc' f args ty params hf hargs, d, s => by
    have hknown := hΓ f ty params hf
    by_cases hd : d = .effect ∧ s.leavesValue f <;> simp [code_call, hd, hargs.calls hΓ, hknown]
  | .index loc base i _ hbase _ hi _, d, s => by
    simp [code_index, calls_dropped, hbase.calls hΓ, hi.calls hΓ]

theorem HasArgs.calls (hΓ : Γ.FunctionsIn K) {params : List (Ty × Bool)} {args : List Tree} :
    HasArgs Γ params args →
    ∀ s : Emit.State, Calls K (code (values args) s)
  | .nil, s => by simp [code_values_nil]
  | .cons _ _ _ _ arg args harg _ _ hargs, s => by
    simp [code_values_cons, harg.calls hΓ, hargs.calls hΓ]

end

theorem calls_unlessTrue (hΓ : Γ.FunctionsIn K) (hc : HasType Γ c .int) (target : String)
    (s : Emit.State) :
    Calls K (code (unlessTrue c target) s) := by
  simp [hc.calls hΓ]

theorem calls_unlessOmitted (hΓ : Γ.FunctionsIn K) (hc : OptionalInt Γ c) (target : String)
    (s : Emit.State) : Calls K (code (unlessOmitted c target) s) := by
  unfold unlessOmitted
  split
  · exact calls_nil
  · next hk =>
    cases hc with
    | omitted => exact absurd rfl hk
    | expr _ hc => exact calls_unlessTrue hΓ hc target s

theorem OptionalExpr.calls (hΓ : Γ.FunctionsIn K) {e : Tree} (he : OptionalExpr Γ e)
    (s : Emit.State) :
    Calls K (code (expression e .effect) s) := by
  cases he with
  | omitted =>
    rw [code_omitted]
    exact calls_nil
  | expr _ ty he => exact he.calls hΓ .effect s

end Expressions

section Statements

variable {ret : Option Ty}

theorem DeclaresAll.calls {ty : Ty} {ds : List Tree} (hds : DeclaresAll N ty Γ ds Γ')
    (hty : ty.IsValue) (hΓ : Γ.FunctionsIn K) (s : Emit.State) :
    Calls K (code (ds.forM (declarator ty)) s) := by
  induction hds generalizing s with
  | nil => exact calls_nil
  | cons Γ Γ' Γ'' d ds hd _ ih =>
    have hfirst : Calls K (code (declarator ty d) s) := by
      cases hd with
      | plain => simp [code_initialValue_plain, zeroInstr_ne_call]
      | initial _ _ _ _ _ _ he => simp [initialValue_initial, he.calls hΓ]
      | array _ _ _ _ _ he => simp [code_initialValue_array, he.calls hΓ]
    rw [code_forM_cons, calls_append]
    exact ⟨hfirst, ih (hΓ.adds (hd.adds hty)) _⟩

theorem calls_branch (hΓ : Γ.FunctionsIn K) (hc : HasType Γ c .int) {body : Emit Unit} [Steady body]
    (hbody : ∀ s, Calls K (code body s)) (done : String) (s : Emit.State) :
    Calls K (code (branch c body done) s) := by
  simp [code_branch, hc.calls hΓ, hbody]

mutual

theorem Typed.calls {loop : Bool} {Γ Γ' : Scopes} {t : Tree} :
    Typed N ret loop Γ t Γ' → Γ.FunctionsIn K →
    ∀ s : Emit.State, Calls K (code (statement t) s)
  | .omitted _ _ loc, _, s => by simp [statement_omitted]
  | .block _ _ _ hb, hΓ, s => hb.calls hΓ s
  | .declaration _ _ _ loc ty ds hty hds, hΓ, s => by
    rw [statement_declaration]
    exact hds.calls hty hΓ s
  | .exprStmt _ _ loc e ty he, hΓ, s => by simp [statement_exprStmt, he.calls hΓ]
  | .returnStmt _ _ loc e _ _ _ he _, hΓ, s => by simp [code_returnStmt, he.calls hΓ]
  | .breakStmt _ loc, _, s => by
    rw [statement_breakStmt, code_loopJump]
    cases s.loops <;> simp
  | .continueStmt _ loc, _, s => by
    rw [statement_continueStmt, code_loopJump]
    cases s.loops <;> simp
  | .conditional _ _ loc c body rest hc hbody hrest, hΓ, s => by
    have hfirst := calls_branch hΓ hc (hbody.calls hΓ)
    have hothers := hrest.calls hΓ
    simp [statement_conditional, code_conditional, hfirst, hothers]
  | .whileLoop _ _ loc c body hc hbody, hΓ, s => by
    have hbody' := hbody.calls hΓ
    simp [statement_whileLoop, code_whileLoop, hc.calls hΓ, hbody']
  | .doWhile _ _ loc body c hbody hc, hΓ, s => by
    have hbody' := hbody.calls hΓ
    simp [statement_doWhile, code_doWhile, hc.calls hΓ, hbody']
  | .forLoop _ _ Γ' loc first c step body hfirst hc hstep hbody, hΓ, s => by
    have hin : Scopes.FunctionsIn K ([] :: _) := hΓ
    have hin' := hin.adds hfirst.adds
    have hfirst' := hfirst.calls hin
    have hbody' := hbody.calls hin'
    simp [statement_forLoop, code_forLoop, hfirst', calls_unlessOmitted hin' hc,
      hstep.calls hin', hbody']

theorem TypedBlock.calls {loop : Bool} {Γ : Scopes} {t : Tree} :
    TypedBlock N ret loop Γ t → Γ.FunctionsIn K →
    ∀ s : Emit.State, Calls K (code (statement t) s)
  | .mk _ _ _ loc ts hts, hΓ, s => by
    rw [statement_block, code_inScope]
    exact hts.calls hΓ s.enter

theorem TypedAll.calls {loop : Bool} {Γ Γ' : Scopes} {ts : List Tree} :
    TypedAll N ret loop Γ ts Γ' →
    Γ.FunctionsIn K → ∀ s : Emit.State, Calls K (code (statements ts) s)
  | .nil .., _, s => by simp [statements_nil]
  | .cons _ _ _ _ t ts ht hts, hΓ, s => by
    have hfirst := ht.calls hΓ s
    have hrest := hts.calls (hΓ.adds ht.adds)
    simp [statements_cons, hfirst, hrest]

theorem TypedBranches.calls {loop : Bool} {Γ : Scopes} {ts : List Tree} :
    TypedBranches N ret loop Γ ts →
    Γ.FunctionsIn K → ∀ (done : String) (s : Emit.State), Calls K (code (branches done ts) s)
  | .nil .., _, done, s => by simp [branches_nil]
  | .last _ _ body hbody, hΓ, done, s => by
    rw [branches_block hbody]
    exact hbody.calls hΓ s
  | .elseIf _ _ loc c body ts hc hbody hts, hΓ, done, s => by
    have hfirst := calls_branch hΓ hc (hbody.calls hΓ)
    have hothers := hts.calls hΓ
    simp [branches_elseIf, hfirst, hothers]

end

theorem TypedFunction.calls {t : Tree} (ht : TypedFunction N Γ t) (hΓ : Γ.FunctionsIn K)
    (s : Emit.State) :
    Calls K (code (Emit.function t) s) := by
  obtain ⟨-, -, body, Γ', hbody?, -, hps, hbody⟩ := ht.parts
  have hadds : Γ.Adds Γ' := hps.adds
  have hbody' := hbody.calls (hΓ.adds hadds)
  have hstores (slots : List String) : Calls K (slots.map .store).reverse := by simp [Calls]
  rw [code_function, code_opening, hbody?, code_prologue]
  simp [hstores, hbody', calls_endCode]

theorem TypedItems.calls {ts : List Tree} (h : TypedItems N Γ ts) (hΓ : Γ.FunctionsIn K)
    (s : Emit.State) :
    Calls K (code (ts.forM item) s) := by
  induction h generalizing s with
  | nil => exact calls_nil
  | function Γ c ts hc _ ih =>
    rw [code_forM_cons, item_of_function hc.parts.1, calls_append]
    exact ⟨hc.calls hΓ s, ih hΓ _⟩
  | stmt Γ Γ' c ts hk hc _ ih =>
    rw [code_forM_cons, item_of_ne hk, calls_append]
    exact ⟨hc.calls hΓ s, ih (hΓ.adds hc.adds) _⟩

end Statements

/-! ## Runs -/

namespace Tree

variable {t : Tree}

theorem known_of_call (ht : TypedProgram N t) {i : Nat} {f : String}
    (hi : t.lower.code[i]? = some (.call f)) (hb : Builtin.ofName? f = none) :
    ∃ n, t.arity f = some n := by
  obtain ⟨Γ, hitems, hready, -⟩ := exists_ready ht
  have hΓ : Γ.FunctionsIn fun f => Builtin.ofName? f = none → ∃ n, t.arity f = some n :=
    fun f ty params hf hb => ⟨params.length, (hready.function f ty params hf hb).1⟩
  rw [← Array.getElem?_toList] at hi
  exact hitems.calls hΓ t.start f (List.mem_of_getElem? hi) hb

theorem known_of_failure (ht : TypedProgram N t) {limit : Nat} {s : Machine.State} {i : Instr}
    {f : Fault} (hi : t.lower.code[s.ip]? = some i)
    (hf : Machine.Failure (Machine.load t.lower entry limit) s i f) :
    f = .stackUnderflow ∨ ∃ e, f = .stream e := by
  cases hf with
  | underflow => exact .inl rfl
  | stream e => exact .inr ⟨e, rfl⟩
  | label l hl hnone =>
    obtain ⟨-, -, j, -, -, hj⟩ := t.exists_label_of_jump hi hl
    obtain ⟨j', hj'⟩ := Program.exists_lookup_labels hj
    exact absurd (hj'.symm.trans hnone) (Option.some_ne_none j')
  | function f hcall hb hnone =>
    subst hcall
    obtain ⟨n, hn⟩ := known_of_call ht hi hb
    obtain ⟨j, hj⟩ := Program.exists_lookup_labels (exists_label_of_arity hn).choose_spec
    exact absurd (hj.symm.trans hnone) (Option.some_ne_none j)

theorem exists_store_of_arity (ht : TypedProgram N t) {f : String} {j : Nat}
    (hn : t.arity f = some (n + 1)) (hj : t.lower.code[j]? = some (.label f)) :
    ∃ x, t.lower.code[j + 1]? = some (.store x) := by
  obtain ⟨k, c, hc, -, hl | ⟨hfun, rfl, rfl⟩⟩ := exists_label_cases hj
  · exact absurd ((arity_of_mem_minted hl).symm.trans hn) (Option.some_ne_none _).symm
  · have hlen := Option.some.inj ((arity_text ht hc hfun).symm.trans hn)
    obtain ⟨rest, hcode⟩ : ∃ rest, t.itemCode k = Emit.code (Emit.prologue c) (t.itemState k) ++
        rest := by
      rw [t.itemCode_of_function hc hfun, Emit.code_function, Emit.code_opening, List.append_assoc]
      exact ⟨_, rfl⟩
    rw [Emit.code_prologue, ← List.map_reverse] at hcode
    match hslots : (((t.itemState k).forFunction (.ofFirst c.children)).paramSlots
        (parametersOf c.children)).reverse with
    | [] =>
      have := congrArg List.length hslots
      rw [List.length_reverse, length_paramSlots, hlen] at this
      cases this
    | x :: xs =>
      rw [hslots] at hcode
      have hlt : 1 < (t.itemCode k).length := by
        rw [hcode]
        exact Nat.succ_lt_succ (Nat.succ_pos _)
      refine ⟨x, ?_⟩
      rw [t.getElem?_lower hlt, hcode]
      rfl

theorem steps_of_arity (ht : TypedProgram N t) {j : Nat} (hn : t.arity entry = some (n + 1))
    (hj : t.lower.labels.lookup entry = some j) (limit : Nat) (s : Machine.State) :
    (Machine.load t.lower entry limit).step { s.clear with ip := j } =
      .next { s.clear with ip := j + 1 } ∧
    (Machine.load t.lower entry limit).step { s.clear with ip := j + 1 } =
      .fault .stackUnderflow { s.clear with ip := j + 1 } := by
  have hlabel := Program.getElem?_of_lookup_labels hj
  obtain ⟨x, hstore⟩ := exists_store_of_arity ht hn hlabel
  constructor
  · rw [Machine.step, show (Machine.load t.lower entry limit).program.code[j]? = _ from hlabel]
    rfl
  · rw [Machine.step, show (Machine.load t.lower entry limit).program.code[j + 1]? = _ from hstore]
    rfl

/-- **A run that starts at a function with parameters** finds no arguments for them. -/
theorem underflow_of_arity (ht : TypedProgram N t) (hn : t.arity entry = some (n + 1))
    (limit : Nat) (s : Machine.State) :
    ∃ last, ∀ fuel, (Machine.load t.lower entry limit).run (fuel + 2) s =
      some ⟨.error .stackUnderflow, last⟩ := by
  obtain ⟨j, hj⟩ := Program.exists_lookup_labels (exists_label_of_arity hn).choose_spec
  have hstart : (Machine.load t.lower entry limit).start? s = some { s.clear with ip := j } :=
    congrArg (Option.map _) hj
  obtain ⟨hfirst, hsecond⟩ := steps_of_arity ht hn hj limit s
  refine ⟨{ s.clear with ip := j + 1 }, fun fuel => ?_⟩
  rw [Machine.run, Machine.runBody, hstart]
  dsimp only
  rw [Machine.runFrom_next hfirst, Machine.runFrom_finished (by rw [hsecond]; rfl)]
  rfl

end Tree

theorem labelText_ne_main (n : Nat) : labelText n ≠ "main" := by
  intro h
  have := congrArg String.toList h
  simp [labelText, String.toList_append] at this

theorem Tree.exists_arity_of_start {t : Tree} {limit : Nat} {s s₀ : Machine.State}
    (h : (Machine.load t.lower "main" limit).start? s = some s₀) :
    ∃ n, t.arity "main" = some n := by
  obtain ⟨j, hj, -⟩ := Option.map_eq_some_iff.mp h
  have hlabel := Program.getElem?_of_lookup_labels hj
  obtain ⟨k, c, hc, -, hl | ⟨hfun, -, (htext : "main" = _)⟩⟩ := exists_label_cases hlabel
  · obtain ⟨⟨n, -, -, hn⟩, -⟩ := Emit.mem_minted.mp hl
    exact absurd hn (labelText_ne_main n)
  · have hmem : c ∈ t.functions :=
      List.mem_filter.mpr ⟨List.mem_of_getElem? hc, beq_iff_eq.mpr hfun⟩
    cases hf : t.function? "main" with
    | some c =>
      rw [arity, hf]
      exact ⟨_, rfl⟩
    | none => exact absurd htext.symm (by simpa using List.find?_eq_none.mp hf _ hmem)

/-- **Faults of accepted sources.** No run ends because a label or a function is unknown. If no
index is taken of a call without a value and the entry has no parameters, the stack does not
underflow either, so that only streams fail. If the entry has parameters, every run ends with an
underflow. -/
theorem compile_run_faults {source : String} {p : Program} (h : compile source = .ok p)
    (limit : Nat) (s : Machine.State) :
    (∀ fuel r f, (Machine.load p "main" limit).run fuel s = some r → r.result = .error f →
      (f = .stackUnderflow ∨ ∃ e, f = .stream e) ∧
      ((parse source).1.all Tree.indexesValue →
        (∀ n, (parse source).1.arity "main" = some n → n = 0) →
        ∃ e, f = .stream e)) ∧
    ∀ n, (parse source).1.arity "main" = some (n + 1) →
      ∃ last, ∀ fuel, (Machine.load p "main" limit).run (fuel + 2) s =
        some ⟨.error .stackUnderflow, last⟩ := by
  obtain ⟨ht, rfl⟩ := compile_typed h
  refine ⟨fun fuel r f hrun hf => ?_, fun n hn => Tree.underflow_of_arity ht hn limit s⟩
  rcases Machine.failure_of_run hrun hf with hstream | ⟨s₀, s', i, hstart, hsteps, hi, hfail⟩
  · exact ⟨.inr hstream, fun _ _ => hstream⟩
  · refine ⟨Tree.known_of_failure ht hi hfail, fun hindex hentry => ?_⟩
    obtain ⟨n, hn⟩ := Tree.exists_arity_of_start hstart
    obtain rfl := hentry n hn
    obtain ⟨s₁, hstart', heven⟩ := Tree.exists_even_start ht hindex hn limit s
    obtain rfl : s₁ = s₀ := Option.some.inj (hstart'.symm.trans hstart)
    have hH := Tree.heights_lower ht hindex "main" limit
    exact Machine.not_failure hH (Machine.even_of_steps hH heven hsteps) hi hfail

/-- The source with a call in a loop fails by streams only. -/
theorem callInLoop_run_faults :
    compile callInLoop = .ok (parse callInLoop).1.lower ∧
    (parse callInLoop).1.all Tree.indexesValue ∧
    (parse callInLoop).1.arity "main" = some 0 ∧
    ∀ fuel r f, (Machine.load (parse callInLoop).1.lower).run fuel
      { input := ⟨[], false⟩, sink := {} } = some r →
      r.result = .error f → ∃ e, f = .stream e := by
  have hfacts : (parse callInLoop).1.all Tree.indexesValue ∧ (parse callInLoop).1.arity "main" =
      some 0 := by
    rw [parse_ofList callInLoop rfl]
    decide +kernel
  obtain ⟨hindex, hentry⟩ := hfacts
  refine ⟨callInLoop_compile, hindex, hentry, fun fuel r f hrun hf => ?_⟩
  refine ((compile_run_faults callInLoop_compile _ _).1 fuel r f hrun hf).2 hindex fun n hn => ?_
  exact Option.some.inj (hn.symm.trans hentry)

/-- A source that takes an index of a call without a value. -/
def indexOfVoid : String := "fn int main() { printInt(1)[0]; return 0; }"

/-- A source with parameters at its entry. -/
def entryWithParameter : String := "fn int main(int n) { return n; }"

/-- **Accepted sources can underflow the stack**, by an index of a call without a value and by
parameters at the entry. -/
theorem exists_underflow :
    (∃ p r, compile indexOfVoid = .ok p ∧ (parse indexOfVoid).1.arity "main" = some 0 ∧
      (Machine.load p).run 10 { input := ⟨[], false⟩, sink := {} } = some r ∧
        r.result = .error .stackUnderflow) ∧
    ∃ p r, compile entryWithParameter = .ok p ∧ (parse entryWithParameter).1.all Tree.indexesValue ∧
      (Machine.load p).run 10 { input := ⟨[], false⟩, sink := {} } = some r ∧
          r.result = .error .stackUnderflow := by
  have hvoid : (parse indexOfVoid).2.isEmpty ∧ (parse indexOfVoid).1.typeErrors.isEmpty ∧
      (parse indexOfVoid).1.arity "main" = some 0 ∧
      ((Machine.load (parse indexOfVoid).1.lower).run 10 { input := ⟨[], false⟩, sink := {} }).map
        Machine.Finished.result = some (.error .stackUnderflow) := by
    rw [parse_ofList indexOfVoid rfl]
    decide +kernel
  have hparam : (parse entryWithParameter).2.isEmpty ∧
      (parse entryWithParameter).1.typeErrors.isEmpty ∧
      (parse entryWithParameter).1.all Tree.indexesValue ∧
      ((Machine.load (parse entryWithParameter).1.lower).run 10
        { input := ⟨[], false⟩, sink := {} }).map
        Machine.Finished.result = some (.error .stackUnderflow) := by
    rw [parse_ofList entryWithParameter rfl]
    decide +kernel
  obtain ⟨hparse, htypes, hentry, hrun⟩ := hvoid
  obtain ⟨hparse', htypes', hindex, hrun'⟩ := hparam
  obtain ⟨r, hr, hresult⟩ := Option.map_eq_some_iff.mp hrun
  obtain ⟨r', hr', hresult'⟩ := Option.map_eq_some_iff.mp hrun'
  exact ⟨⟨_, r, compile_of_isEmpty hparse htypes, hentry, hr, hresult⟩,
    _, r', compile_of_isEmpty hparse' htypes', hindex, hr', hresult'⟩

end Stacklet
