import Stacklet.Proofs.Safety
import Stacklet.Proofs.Simulation.Statement
/-!
# Programs do what they mean

* `TypedParams.fits`: the variables with which the body of a function begins are its arguments.
* `TypedFunction.returns`: the code of a function comes to a return with the value of the function
  on the stack.
* `Tree.callsAt`: so do calls, however deep they are nested.
* `compile_refines_evaluation`: runs of accepted sources end just if their evaluation ends, and in
  the same way.
-/

namespace Stacklet

open Machine (conf)
open List
open Stacklet.Tree
open Emit

variable {vs : List Value} {n pc : Nat}

/-! ## Arguments -/

theorem Machine.exists_steps_stores {m : Machine} {slots : List String} (hslots : slots.Nodup)
    (hlen : slots.length = vs.length) (hat : m.At pc (slots.map Instr.store).reverse)
    (S : List Value) (L : Locals) (C : List Machine.Suspended) (σ : Store) :
    ∃ L', m.Steps (conf pc (vs.reverse ++ S) L C σ) (conf (pc + slots.length) S L' C σ) ∧
    slots.map L'.load = vs := by
  induction slots generalizing vs S with
  | nil =>
    obtain rfl := length_eq_zero_iff.mp hlen.symm
    exact ⟨L, .refl, rfl⟩
  | cons x slots ih =>
    obtain ⟨v, vs, rfl⟩ := exists_cons_of_length_pos (Nat.lt_of_lt_of_eq (Nat.succ_pos _) hlen)
    obtain ⟨hx, hslots⟩ := nodup_cons.mp hslots
    rw [map_cons, reverse_cons] at hat
    obtain ⟨hat₁, hat₂⟩ := hat.of_append
    rw [length_reverse, length_map] at hat₂
    obtain ⟨L', hsteps, hload⟩ := ih hslots (Nat.succ.inj hlen) hat₁ (v :: S)
    have hstore : m.step (conf (pc + slots.length) (v :: S) L' C σ) =
        .next (conf (pc + slots.length + 1) S (L'.store x v) C σ) :=
      Machine.step_of_getElem? (s := conf (pc + slots.length) (v :: S) L' C σ) hat₂.of_cons.1
    refine ⟨L'.store x v, ?_, ?_⟩
    · rw [reverse_cons, append_assoc, singleton_append]
      exact hsteps.tail hstore
    · rw [map_cons, L'.load_store_self, ← hload]
      refine congrArg (v :: ·) (map_congr_left fun y hy => L'.load_alter_ne _ ?_)
      rintro rfl
      exact hx hy

section Functions

variable {arity : String → Option Nat} {G : Scopes} {Δ : Frame} {s : Emit.State} {Γ Γ' : Scopes}
  {M : Marks}

/-- **The frame behind the parameters** of a function. -/
theorem TypedParams.fits {ps : List Tree} (h : TypedParams IsName Γ ps Γ')
    (hs : Fits arity G Δ s Γ M) :
    ∃ Δ', Fits arity G Δ' (s.withParams ps) Γ' (M.withParams ps) ∧
      (Δ'.flatten.map fun b => b.slot.text) = (s.paramSlots ps).reverse ++
        (Δ.flatten.map fun b => b.slot.text) ∧
      ∀ L : Locals, Δ'.env L = arguments ps ((s.paramSlots ps).map L.load) (Δ.env L) := by
  induction h generalizing Δ s M with
  | nil Γ => exact ⟨Δ, hs, rfl, fun _ => rfl⟩
  | cons Γ Γ' Γ'' x isArray loc ty ps hx hty hd _ ih =>
    obtain ⟨Δ', hs', hslots, henv⟩ := ih (hs.declare hx hty hd)
    refine ⟨Δ', hs', ?_, fun L => ?_⟩
    · rw [hslots, Frame.flatten_declare hs.ne_nil, State.paramSlots, reverse_cons, map_cons,
        append_assoc, Binding.next, s.text_slotFor]
      rfl
    · rw [henv, hs.env_declare]
      rfl

theorem fits_forFunction (hready : Ready arity s Γ) (hΓ : Γ.FunctionsOnly) (ty : Ty) :
    Fits arity Γ [[]] (s.forFunction ty) ([] :: Γ) {} where
  ready := hready.enter.of_eq rfl rfl
  functions := hΓ
  ne_nil := cons_ne_nil _ _
  scopes_eq := rfl
  types_eq := rfl
  marks_eq := rfl
  slots_nodup := nodup_nil
  owned := forall_mem_nil _
  doubles_eq := forall_mem_nil _
  plain_eq _ _ := rfl
  numbered_le _ _ _ h := by cases h

theorem endsInRet_prologue (t : Tree) (s : Emit.State) :
    endsInRet (code (prologue t) s) = false := by
  refine endsInRet_of_forall fun i hi => ?_
  rw [code_prologue, mem_cons, mem_reverse, mem_map] at hi
  rcases hi with rfl | ⟨_, -, rfl⟩
  · rfl
  · rfl

variable {m : Machine} {n : Nat} {c : Context} {f : Tree}

theorem TypedBlock.returns {body : Tree} (h : TypedBlock IsName (some c.returnType) false Γ body)
    (hbody : bodyOf? f.children = some body) (hindex : body.all indexesValue)
    (hc : Runs m n arity c) (hm : m.Resolves) (hret : c.returnType.IsValue)
    (hs : Fits arity G Δ s Γ M) (hty : s.returnType = c.returnType) {M' : Marks}
    (hM : Marks.statement body M = some M') {before : List Instr}
    (hbefore : endsInRet before = false)
    (hat : m.At pc (code (statement body) s ++ endCode c.returnType
      (before ++ code (statement body) s))) {S : List Value} {L : Locals}
    {C : List Machine.Suspended} {σ : Store} (hσ : Δ.Holds σ L) :
    Sim m n (conf pc S L C σ) (Tree.body c f σ) fun v σ' s' =>
      ∃ j L', m.program.code[j]? = some .ret ∧ s' = conf j (v :: S) L' C σ' := by
  obtain ⟨hat₁, hend⟩ := hat.of_append
  have hperforms := (h.performs hc hm hret hindex hs hty hM).2 ⟨0, 0⟩
    (fun h => absurd h Bool.false_ne_true)
  rw [Tree.body, hbody]
  refine (hperforms pc S L C σ hat₁ hσ).bind fun completion σ' s' _ h => ?_
  match completion, h with
  | .returned v, h => exact .pure h
  | .broke, h | .continued, h => exact absurd h.1 Bool.false_ne_true
  | .normal, ⟨L', hs', hends, _⟩ =>
    -- the code does not end in a return, so that there is one behind it
    have hcode : endCode c.returnType (before ++ code (statement body) s) =
        [zeroInstr c.returnType, .ret] := by
      rw [endCode, endsInRet_append hbefore hends, if_neg Bool.false_ne_true, if_neg hret.1]
    rw [hcode] at hend
    obtain ⟨hzero, hend⟩ := hend.of_cons
    subst hs'
    exact .instr hzero (execute_zeroInstr c.returnType _ S L' C σ')
      (.pure ⟨_, L', hend.of_cons.1, rfl⟩)

/-- **The code of a function** comes to a return, with the value of the function on the stack. -/
theorem TypedFunction.returns (hf : TypedFunction IsName Γ f) (hready : Ready arity s Γ)
    (hΓ : Γ.FunctionsOnly) (hindex : f.all indexesValue)
    (hmarks : (bodyOf? f.children).all fun body =>
      (Marks.statement body (.withParams {} (parametersOf f.children))).isSome)
    (hc : Runs m n arity c) (hm : m.Resolves) (hty : c.returnType = .ofFirst f.children)
    (hat : m.At pc (code (function f) s)) (hvs : vs.length = (parametersOf f.children).length)
    (S : List Value) (C : List Machine.Suspended) (σ : Store) :
    Sim m n (conf pc (vs.reverse ++ S) [] C σ)
      (Eval.inCall (arguments (parametersOf f.children) vs [[]]) (body c f) σ) fun v σ' s' =>
        (∃ j L, m.program.code[j]? = some .ret ∧ s' = conf j (v :: S) L C σ') ∧ σ'.env = σ.env := by
  obtain ⟨-, hret, body, Γ', hbody, hmem, hps, htyped⟩ := hf.parts
  rw [hbody, Option.all_some] at hmarks
  obtain ⟨M, hM⟩ := Option.isSome_iff_exists.mp hmarks
  obtain ⟨Δ, hs, hslots, henv⟩ := hps.fits (fits_forFunction hready hΓ (.ofFirst f.children))
  have hnodup :
      ((s.forFunction (.ofFirst f.children)).paramSlots (parametersOf f.children)).Nodup := by
    have hslots' := hs.slots_nodup
    rw [hslots] at hslots'
    exact nodup_reverse.mp hslots'.of_append_left
  have hkeep :=
    (extends_withParams (s.forFunction (.ofFirst f.children))
      (parametersOf f.children)).returnType_eq
  rw [← after_prologue] at hs hkeep
  rw [code_function, returnType_opening, ← hty, code_opening, hbody, Option.elim_some,
    append_assoc] at hat
  obtain ⟨hprologue, hat⟩ := hat.of_append
  have hlen : (code (prologue f) s).length =
      ((s.forFunction (.ofFirst f.children)).paramSlots (parametersOf f.children)).length + 1 := by
    rw [code_prologue, length_cons, length_reverse, length_map]
  rw [hlen, Nat.add_comm _ 1, ← Nat.add_assoc] at hat
  rw [code_prologue] at hprologue
  obtain ⟨hlabel, hstores⟩ := hprologue.of_cons
  obtain ⟨L, hsteps, hload⟩ := Machine.exists_steps_stores hnodup
    ((length_paramSlots _ _).trans hvs.symm) hstores S [] C σ
  have hσ : Δ.Holds { σ with env := arguments (parametersOf f.children) vs [[]] } L := by
    rw [Frame.Holds, henv, hload]
    rfl
  rw [← hty] at htyped hret hkeep
  have hbody := htyped.returns hbody (all_of_mem hindex hmem) hc hm hret hs hkeep hM
    (endsInRet_prologue f s)
    hat hσ (S := S) (C := C)
  refine .label hlabel (.of_steps hsteps ?_)
  exact Sim.map_env (g := fun σ' => { σ' with env := σ.env }) (fun _ => rfl) hbody
    fun _ _ _ h => ⟨h, rfl⟩

end Functions

/-! ## Calls -/

namespace Tree

variable {t : Tree} {N : String → Prop}

theorem resolves_lower (ht : TypedProgram N t) (hall : ∀ c ∈ t.children, c.kind = .function)
    (entry : String) (limit : Nat) : (Machine.load t.lower entry limit).Resolves := by
  intro j l hj
  refine Program.lookup_labels_of_unique hj fun j' hj' => ?_
  obtain ⟨k, c, hk, -, hl | ⟨hc, rfl, rfl⟩⟩ := exists_label_cases hj
  · exact (t.existsUnique_label hl).unique hj' hj
  obtain ⟨k', c', hk', -, hl | ⟨-, rfl, htext⟩⟩ := exists_label_cases hj'
  · cases (arity_of_mem_minted hl).symm.trans (arity_text ht hk hc)
  obtain ⟨Γ, hdeclares, -⟩ := ht
  have hnodup := hdeclares.nodup
  rw [filter_eq_self.mpr fun c hc => beq_iff_eq.mpr (hall c hc)] at hnodup
  have htexts : (t.children.map text)[k']? = (t.children.map text)[k]? := by
    rw [getElem?_map, getElem?_map, hk, hk', Option.map_some, Option.map_some, htext]
  have hlt : k' < (t.children.map text).length := by
    rw [length_map]
    exact (List.getElem?_eq_some_iff.mp hk').1
  rw [(getElem?_inj hlt hnodup).mp htexts]

theorem at_itemStart (entry : String) (limit : Nat) (k : Nat) :
    (Machine.load t.lower entry limit).At (t.itemStart k) (t.itemCode k) := by
  obtain ⟨before, behind, hcode, hlen⟩ := t.exists_toList_lower k
  exact hlen ▸ Machine.At.of_toList hcode

section Calls

variable (ht : TypedProgram IsName t) (hall : ∀ c ∈ t.children, c.kind = .function)
  (hindex : t.all indexesValue)
  (hmarks : t.storesAsDeclared) (entry : String) (limit : Nat)

include ht hall hindex hmarks

theorem returns_callAt
    (hcalls : CallsAt (Machine.load t.lower entry limit) n t.arity (t.callAt limit n)) {f : String}
    (hvs : t.arity f = some vs.length) :
    ∃ i, (Machine.load t.lower entry limit).target? f = some i ∧
      ∀ (S : List Value) (C : List Machine.Suspended) (σ : Store),
        Sim (Machine.load t.lower entry limit) n (conf i (vs.reverse ++ S) [] C σ)
          (t.callAt limit (n + 1) f vs σ)
          fun v σ' s' => (∃ j L, t.lower.code[j]? = some .ret ∧ s' = conf j (v :: S) L C σ') ∧
          σ'.env = σ.env := by
  obtain ⟨c, hc, hlen⟩ := Option.map_eq_some_iff.mp hvs
  obtain ⟨hmem, rfl⟩ := mem_functions_of_function? hc
  obtain ⟨hchild, hfun⟩ := mem_filter.mp hmem
  obtain ⟨k, hk⟩ := mem_iff_getElem?.mp hchild
  have hm := resolves_lower ht hall entry limit
  refine ⟨t.itemStart k, hm _ _ (getElem?_itemStart hk (beq_iff_eq.mp hfun)), fun S C σ => ?_⟩
  obtain ⟨Γ, htyped, hready, hΓ⟩ := exists_ready_function ht hk (beq_iff_eq.mp hfun)
  have hat := t.at_itemStart entry limit k
  rw [t.itemCode_of_function hk (beq_iff_eq.mp hfun)] at hat
  rw [callAt, hc]
  exact htyped.returns hready (hΓ hall) (all_of_mem hindex hchild) (all_eq_true.mp hmarks c hmem)
    ⟨hcalls, rfl, rfl⟩ hm rfl hat hlen.symm S C σ

/-- **Calls do what they mean**, however deep they are nested. -/
theorem callsAt (n : Nat) :
    CallsAt (Machine.load t.lower entry limit) n t.arity (t.callAt limit n) := by
  induction n with
  | zero => exact fun _ _ _ _ _ _ _ _ _ _ => rfl
  | succ n ih =>
    intro f vs hvs hb pc S L C σ hcall
    obtain ⟨i, hi, hreturns⟩ := returns_callAt ht hall hindex hmarks entry limit ih hvs
    refine .succ (Machine.step_call hcall hb hi) ((hreturns S _ σ).onward fun v σ' s' => ?_)
    rintro ⟨⟨j, L', hj, rfl⟩, henv⟩
    exact ⟨_, .single (Machine.step_ret hj ⟨pc + 1, L⟩), rfl, henv⟩

end Calls

end Tree

/-! ## Runs -/

/-- A run ended as an evaluation does: with the same failure or none, and in the same world, which
has the input that is left, the output and the clock. -/
structure Machine.Finished.EndsAs (r : Machine.Finished) (e : Except StreamError Unit) (σ : Store) :
    Prop where
  result_eq : r.result = e.mapError Fault.stream
  world_eq : r.state.toWorld = σ.toWorld

namespace Machine.Finished.EndsAs

variable {r : Machine.Finished} {e : Except StreamError Unit} {σ σ' : Store}

theorem flush_error {e : StreamError} (h : r.EndsAs (.error e) σ) :
    r.flush.EndsAs (.error e) σ := by
  have hresult : r.result = .error (.stream e) := h.result_eq
  rw [Machine.Finished.flush, hresult]
  exact h

theorem flush_ok (h : r.EndsAs (.ok ()) σ) (hflush : Eval.flush σ = some (e, σ')) :
    r.flush.EndsAs e σ' := by
  have hresult : r.result = .ok () := h.result_eq
  have hsame : r.state.sink = σ.sink := congrArg World.sink h.world_eq
  rw [Machine.Finished.flush, hresult, hsame]
  unfold Eval.flush at hflush
  cases hsink : σ.sink.flush with
  | mk result sink =>
    rw [hsink] at hflush
    cases hflush
    cases e with
    | error | ok => exact ⟨rfl, congrArg (fun w : World => { w with sink }) h.world_eq⟩

end Machine.Finished.EndsAs

theorem Sim.exists_runFrom {α : Type} {m : Machine} {s : Machine.State}
    {o : Option (Except StreamError α × Store)} {e : Except StreamError α} {σ : Store}
    (h : Sim m n s o fun _ σ s' => ∃ last, m.step s' = .halt last ∧ last.toWorld = σ.toWorld)
    (ho : o = some (e, σ)) :
    ∃ fuel r, m.runFrom fuel s = some r ∧ r.EndsAs (e.map fun _ => ()) σ := by
  subst ho
  cases e with
  | ok a =>
    obtain ⟨s', hsteps, last, hstep, hworld⟩ := h
    have hend : (m.step s').finished? = some ⟨.ok (), last⟩ := by
      rw [hstep]
      rfl
    obtain ⟨fuel, hrun⟩ := Machine.exists_runFrom_of_steps hsteps hend
    exact ⟨fuel, _, hrun, rfl, hworld⟩
  | error e =>
    obtain ⟨s', last, hsteps, hstep, hworld⟩ := h
    have hend : (m.step s').finished? = some ⟨.error (.stream e), last⟩ := by
      rw [hstep]
      rfl
    obtain ⟨fuel, hrun⟩ := Machine.exists_runFrom_of_steps hsteps hend
    exact ⟨fuel, _, hrun, rfl, hworld⟩

namespace Tree

variable {t : Tree}

theorem evaluate_eq (t : Tree) (entry : String) (limit n : Nat) (s : Machine.State) :
    t.evaluate entry limit n ⟨s.toWorld, []⟩ =
      (do let _ ← t.callAt limit n entry []; Eval.flush : Eval Unit) ⟨s.clear.toWorld, []⟩ := rfl

section Runs

variable (ht : TypedProgram IsName t) (hall : ∀ c ∈ t.children, c.kind = .function)
  (hindex : t.all indexesValue)
  (hmarks : t.storesAsDeclared) {entry : String} (hentry : t.arity entry = some 0) (limit : Nat)
  (s : Machine.State)

include ht hall hindex hmarks hentry

/-- A run that starts at a function without parameters does what a call of the function does. -/
theorem exists_sim_start (n : Nat) :
    ∃ s₀, (∀ fuel, (Machine.load t.lower entry limit).run fuel s =
        ((Machine.load t.lower entry limit).runFrom fuel s₀).map Machine.Finished.flush) ∧
      Sim (Machine.load t.lower entry limit) n s₀
        (t.callAt limit (n + 1) entry [] ⟨s.clear.toWorld, []⟩)
        fun _ σ s' => ∃ last, (Machine.load t.lower entry limit).step s' = .halt last ∧
        last.toWorld = σ.toWorld := by
  have hnone : t.arity entry = some ([] : List Value).length := hentry
  obtain ⟨i, hi, hreturns⟩ := returns_callAt ht hall hindex hmarks entry limit
    (callsAt ht hall hindex hmarks entry limit n) hnone
  refine ⟨conf i [] [] [] ⟨s.clear.toWorld, []⟩, fun fuel => ?_, (hreturns [] [] _).imp
    fun v σ s' => ?_⟩
  · have hstart : (Machine.load t.lower entry limit).start? s =
        some (conf i [] [] [] ⟨s.clear.toWorld, []⟩) :=
      congrArg (Option.map _) hi
    rw [Machine.run, Machine.runBody, hstart]
  · rintro ⟨⟨j, L, hj, rfl⟩, -⟩
    exact ⟨_, Machine.step_ret_nil hj, rfl⟩

theorem exists_run_of_evaluate {e : Except StreamError Unit} {σ : Store}
    (h : t.evaluate entry limit n ⟨s.toWorld, []⟩ = some (e, σ)) :
    ∃ fuel r, (Machine.load t.lower entry limit).run fuel s = some r ∧ r.EndsAs e σ := by
  cases n with
  | zero => cases h
  | succ n =>
    obtain ⟨s₀, hrun, hsim⟩ := exists_sim_start ht hall hindex hmarks hentry limit s n
    cases hcall : t.callAt limit (n + 1) entry [] ⟨s.clear.toWorld, []⟩ with
    | none =>
      rw [evaluate_eq, Eval.bind_of_none hcall] at h
      cases h
    | some r =>
      obtain ⟨fuel, last, hlast, hends⟩ := hsim.exists_runFrom hcall
      refine ⟨fuel, last.flush, by rw [hrun, hlast]; rfl, ?_⟩
      obtain ⟨e' | v, σ'⟩ := r
      · rw [evaluate_eq, Eval.bind_of_error hcall] at h
        cases h
        exact hends.flush_error
      · rw [evaluate_eq, Eval.bind_of_ok hcall] at h
        exact hends.flush_ok h

theorem run_eq_none_of_evaluate (h : t.evaluate entry limit (n + 1) ⟨s.toWorld, []⟩ = none) :
    (Machine.load t.lower entry limit).run n s = none := by
  obtain ⟨s₀, hrun, hsim⟩ := exists_sim_start ht hall hindex hmarks hentry limit s n
  cases hcall : t.callAt limit (n + 1) entry [] ⟨s.clear.toWorld, []⟩ with
  | none =>
    rw [hcall] at hsim
    rw [hrun, show (Machine.load t.lower entry limit).runFrom n s₀ = none from hsim]
    rfl
  | some r =>
    obtain ⟨e | v, σ'⟩ := r
    · rw [evaluate_eq, Eval.bind_of_error hcall] at h
      cases h
    · rw [evaluate_eq, Eval.bind_of_ok hcall] at h
      cases h

end Runs

end Tree

/-- **Runs are evaluations.** Take an accepted source that consists of functions. No index is taken
of a call without a value, and no literal is assigned to a variable in the slot of an earlier
`double` that is none itself. Then a run from a function without parameters ends just if its
evaluation ends: with the same failure of a stream or none, the same input left and the same
output. -/
theorem compile_refines_evaluation {source : String} {p : Program} (h : compile source = .ok p)
    (hall : ∀ c ∈ (parse source).1.children, c.kind = .function)
    (hindex : (parse source).1.all Tree.indexesValue) (hmarks : (parse source).1.storesAsDeclared)
    {entry : String} (hentry : (parse source).1.arity entry = some 0) (limit : Nat)
    (s : Machine.State) :
    (∀ n e σ, (parse source).1.evaluate entry limit n ⟨s.toWorld, []⟩ = some (e, σ) →
      ∃ fuel r, (Machine.load p entry limit).run fuel s = some r ∧ r.EndsAs e σ) ∧
    ∀ fuel r, (Machine.load p entry limit).run fuel s = some r →
      ∃ n e σ, (parse source).1.evaluate entry limit n ⟨s.toWorld, []⟩ = some (e, σ) ∧
      r.EndsAs e σ := by
  obtain ⟨ht, rfl⟩ := compile_typed h
  refine ⟨fun n e σ => Tree.exists_run_of_evaluate ht hall hindex hmarks hentry limit s,
    fun fuel r hr => ?_⟩
  cases heval : (parse source).1.evaluate entry limit (fuel + 1) ⟨s.toWorld, []⟩ with
  | none =>
    cases hr.symm.trans (Tree.run_eq_none_of_evaluate ht hall hindex hmarks hentry limit s heval)
  | some r' =>
    obtain ⟨fuel', r', hr', hends⟩ :=
      Tree.exists_run_of_evaluate ht hall hindex hmarks hentry limit s heval
    rw [Machine.run_unique hr hr']
    exact ⟨fuel + 1, _, _, heval, hends⟩

/-- A source with a loop whose variable is shadowed in its body, and a recursive function that may
end without a return. -/
def shadowedLoop : String :=
  "fn int f(int n) { if (n) { return n * f(n - 1) + 1; } } fn int main() \x7b for (int i = 3; " ++
  "i; i = i - 1) { if (i == 2) { continue; } int i = f(i); printInt(i); } return 0; \x7d"

/-- This source prints `10` and `1`. -/
theorem shadowedLoop_refines_evaluation :
    compile shadowedLoop = .ok (parse shadowedLoop).1.lower ∧
    (∀ c ∈ (parse shadowedLoop).1.children, c.kind = .function) ∧
    (parse shadowedLoop).1.all Tree.indexesValue ∧
    (parse shadowedLoop).1.storesAsDeclared ∧ (parse shadowedLoop).1.arity "main" = some 0 ∧
    ∃ fuel r, (Machine.load (parse shadowedLoop).1.lower).run fuel
      { input := ⟨[], false⟩, sink := {} } = some r ∧
      r.result = .ok () ∧ r.state.sink.written.data.toList = [49, 48, 49] := by
  have hfacts : (parse shadowedLoop).2.isEmpty ∧ (parse shadowedLoop).1.typeErrors.isEmpty ∧
      (∀ c ∈ (parse shadowedLoop).1.children, c.kind = .function) ∧
        (parse shadowedLoop).1.all Tree.indexesValue ∧
      (parse shadowedLoop).1.storesAsDeclared ∧ (parse shadowedLoop).1.arity "main" = some 0 ∧
      (((parse shadowedLoop).1.evaluate "main" Machine.defaultLimit 5
          ⟨{ input := ⟨[], false⟩, sink := {} }, []⟩).map fun (e, σ) =>
        (e.isOk, σ.sink.written.data.toList)) = some (true, [49, 48, 49]) := by
    rw [parse_append shadowedLoop rfl]
    decide +kernel
  obtain ⟨hparse, htypes, hall, hindex, hmarks, hentry, heval⟩ := hfacts
  have hcompile := compile_of_isEmpty hparse htypes
  obtain ⟨⟨e, σ⟩, heval, hend⟩ := Option.map_eq_some_iff.mp heval
  obtain ⟨hok, hwritten⟩ := Prod.mk.inj hend
  cases e with
  | error => cases hok
  | ok =>
    obtain ⟨fuel, r, hrun, hends⟩ :=
      (compile_refines_evaluation hcompile hall hindex hmarks hentry _
        { input := ⟨[], false⟩, sink := {} }).1 5 _ σ heval
    refine ⟨hcompile, hall, hindex, hmarks, hentry, fuel, r, hrun, hends.result_eq, ?_⟩
    exact (congrArg (·.sink.written.data.toList) hends.world_eq).trans hwritten

/-- A source in which a variable has the slot of an earlier `double`. -/
def staleDouble : String := "fn int main() { { double x = 1; } int x; x = 3; return x; }"

/-- **Runs of accepted sources can differ from their evaluation.** A literal that is assigned to an
`int` in the slot of an earlier `double` becomes a `double`, and an index of a call without a value
ends the run. -/
theorem exists_run_unlike_evaluation :
    (∃ p r v σ, compile staleDouble = .ok p ∧ (parse staleDouble).1.all Tree.indexesValue ∧
      (parse staleDouble).1.callAt Machine.defaultLimit 2 "main" []
        ⟨{ input := ⟨[], false⟩, sink := {} }, []⟩ = some (.ok v, σ) ∧ v.isDouble = false ∧
      (Machine.load p).run 20 { input := ⟨[], false⟩, sink := {} } = some r ∧
      r.state.stack.map Value.isDouble = [true]) ∧
    ∃ p r σ, compile indexOfVoid = .ok p ∧ (parse indexOfVoid).1.storesAsDeclared ∧
      (parse indexOfVoid).1.evaluate "main" Machine.defaultLimit 2
        ⟨{ input := ⟨[], false⟩, sink := {} }, []⟩ = some (.ok (), σ) ∧
      (Machine.load p).run 20 { input := ⟨[], false⟩, sink := {} } = some r ∧
      r.result = .error .stackUnderflow := by
  have hstale : (parse staleDouble).2.isEmpty ∧ (parse staleDouble).1.typeErrors.isEmpty ∧
      (parse staleDouble).1.all Tree.indexesValue ∧
      (((parse staleDouble).1.callAt Machine.defaultLimit 2 "main" []
          ⟨{ input := ⟨[], false⟩, sink := {} }, []⟩).bind fun (e, _) =>
        e.toOption.map Value.isDouble) = some false ∧
      (((Machine.load (parse staleDouble).1.lower).run 20 { input := ⟨[], false⟩, sink := {} }).map
          fun r =>
        r.state.stack.map Value.isDouble) = some [true] := by
    rw [parse_ofList staleDouble rfl]
    decide +kernel
  have hvoid : (parse indexOfVoid).2.isEmpty ∧ (parse indexOfVoid).1.typeErrors.isEmpty ∧
      (parse indexOfVoid).1.storesAsDeclared ∧
      (((parse indexOfVoid).1.evaluate "main" Machine.defaultLimit 2
        ⟨{ input := ⟨[], false⟩, sink := {} }, []⟩).bind fun (e, _) => e.toOption) = some () ∧
      ((Machine.load (parse indexOfVoid).1.lower).run 20 { input := ⟨[], false⟩, sink := {} }).map
        Machine.Finished.result = some (.error .stackUnderflow) := by
    rw [parse_ofList indexOfVoid rfl]
    decide +kernel
  obtain ⟨hparse, htypes, hindex, hcall, hrun⟩ := hstale
  obtain ⟨hparse', htypes', hmarks, heval, hrun'⟩ := hvoid
  refine ⟨?_, ?_⟩
  · obtain ⟨⟨e, σ⟩, hcall, he⟩ := Option.bind_eq_some_iff.mp hcall
    obtain ⟨v, he, hv⟩ := Option.map_eq_some_iff.mp he
    obtain ⟨r, hrun, hstack⟩ := Option.map_eq_some_iff.mp hrun
    cases e with
    | error => cases he
    | ok =>
      cases he
      exact ⟨_, r, v, σ, compile_of_isEmpty hparse htypes, hindex, hcall, hv, hrun, hstack⟩
  · obtain ⟨⟨e, σ⟩, heval, he⟩ := Option.bind_eq_some_iff.mp heval
    obtain ⟨r, hrun, hresult⟩ := Option.map_eq_some_iff.mp hrun'
    cases e with
    | error => cases he
    | ok => exact ⟨_, r, σ, compile_of_isEmpty hparse' htypes', hmarks, heval, hrun, hresult⟩

end Stacklet
