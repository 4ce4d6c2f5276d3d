import Mathlib.Logic.Relation
import Stacklet.Machine.Run
/-!
# Runs of the machine as relations

* `Instr.takes`, `Instr.gives`: how many operands an instruction takes from the stack and puts
  there.
* `Machine.Move`: what an instruction can do to control, stack and calls. `execute_ends`: how an
  instruction ends, and when it fails.
* `Machine.State.mapWorld`: the same state in another world. `mapWorld_step`: a step does the same
  there, unless it calls a built-in function that does not.
* `Machine.Steps`: some steps in a row. `exists_steps_of_runFrom`, `exists_runFrom_of_steps`: a run
  with enough fuel is a row of steps and a last step that ends it. `exists_steps_of_run`: it ends at
  an instruction that it came to.
* `Program.lookup_labels_of_unique`: where labels are that are placed once.
-/

namespace Stacklet

open List

namespace Instr

/-- The label that an instruction places. -/
def placed? : Instr → Option String
  | .label l => some l
  | _ => none

/-- The label that an instruction may jump to. -/
def target? : Instr → Option String
  | .jump l | .jumpIfZero l => some l
  | _ => none

theorem placed?_eq_some {i : Instr} {l : String} (h : i.placed? = some l) : i = .label l := by
  cases i with
  | label => exact congrArg Instr.label (Option.some.inj h)
  | _ => cases h

/-- The built-in function that an instruction calls. -/
def builtin? : Instr → Option Builtin
  | .call f => Builtin.ofName? f
  | _ => none

/-- The number of operands that an instruction takes from the stack. Functions of the program take
theirs with instructions of their own. -/
def takes : Instr → Nat
  | .store _ | .newArray | .neg | .not | .jumpIfZero _ | .pop => 1
  | .loadIndex | .storeIndex _ | .binary _ => 2
  | .call f => (Builtin.ofName? f).elim 0 fun b => b.params.length
  | _ => 0

/-- The number of values that an instruction puts on the stack. -/
def gives : Instr → Nat
  | .pushInt _ | .pushDouble _ | .pushString _ | .load _ | .newArray | .loadIndex | .binary _ | .neg
  | .not => 1
  | .call f => (Builtin.ofName? f).elim 0 fun b => if b.returns = .void then 0 else 1
  | _ => 0

/-- Whether the next instruction can follow behind this one within a call. -/
def goesOn : Instr → Bool
  | .jump _ | .ret => false
  | .call f => (Builtin.ofName? f).isSome
  | _ => true

end Instr

namespace Machine

variable {m : Machine} {s s' : State} {i : Instr}

/-- What an instruction can do to control, stack and calls: it goes on, jumps, calls or returns. -/
inductive Move (m : Machine) (s : State) (i : Instr) : State → Prop
  | onward (vs : List Value) (locals : Locals) (world : World) : i.goesOn → vs.length = i.gives →
    Move m s i { s with
      ip := s.ip + 1, stack := vs ++ s.stack.drop i.takes, locals, toWorld := world }
  | jump (l : String) (ip : Nat) : i.target? = some l → m.target? l = some ip →
    Move m s i { s with ip, stack := s.stack.drop i.takes }
  | call (f : String) (ip : Nat) : i = .call f → Builtin.ofName? f = none → m.target? f = some ip →
    Move m s i { s with ip, locals := [], callers := ⟨s.ip + 1, s.locals⟩ :: s.callers }
  | ret (caller : Suspended) (callers : List Suspended) : i = .ret → s.callers = caller :: callers →
    Move m s i { s with ip := caller.returnTo, locals := caller.locals, callers }

/-- Why an instruction can fail: operands are missing, a label or function is unknown, or a stream
failed. -/
inductive Failure (m : Machine) (s : State) (i : Instr) : Fault → Prop
  | underflow : s.stack.length < i.takes → Failure m s i .stackUnderflow
  | label (l : String) : i.target? = some l → m.target? l = none → Failure m s i (.unknownLabel l)
  | function (f : String) : i = .call f → Builtin.ofName? f = none → m.target? f = none →
    Failure m s i (.unknownFunction f)
  | stream (e : StreamError) : Failure m s i (.stream e)

/-- How an instruction ends. One that fails leaves the machine where it is. -/
inductive Ends (m : Machine) (s : State) (i : Instr) : Step → Prop
  | next {s' : State} : i.takes ≤ s.stack.length → Move m s i s' → Ends m s i (.next s')
  | halt : i = .ret → s.callers = [] → Ends m s i (.halt s)
  | fault {f : Fault} (s' : State) : s'.ip = s.ip → Failure m s i f → Ends m s i (.fault f s')

namespace Ends

attribute [local simp] Instr.takes Instr.gives Instr.goesOn

theorem onward (taken : List Value) {stack : List Value} (hs : s.stack = taken ++ stack)
    (ht : taken.length = i.takes) (ho : i.goesOn) (vs : List Value) (hv : vs.length = i.gives)
    (locals : Locals) (world : World) : Ends m s i
      (.next { s with ip := s.ip + 1, stack := vs ++ stack, locals, toWorld := world }) := by
  have hdrop : s.stack.drop i.takes = stack := by rw [hs, ← ht, drop_left]
  refine .next ?_ (hdrop ▸ .onward vs locals world ho hv)
  rw [hs, length_append, ht]
  exact Nat.le_add_right _ _

theorem underflow (h : s.stack.length < i.takes) : Ends m s i s.underflow :=
  .fault s rfl (.underflow h)

theorem goto (taken : List Value) {stack : List Value} {l : String} (hs : s.stack = taken ++ stack)
    (ht : taken.length = i.takes) (hl : i.target? = some l) :
    Ends m s i (State.goto { s with stack } m l) := by
  have hdrop : s.stack.drop i.takes = stack := by rw [hs, ← ht, drop_left]
  unfold State.goto
  cases h : m.target? l with
  | none => exact .fault _ rfl (.label l hl h)
  | some ip =>
    refine .next ?_ (hdrop ▸ .jump l ip hl h)
    rw [hs, length_append, ht]
    exact Nat.le_add_right _ _

theorem print {f : String} {b : Builtin} (hf : Builtin.ofName? f = some b)
    (hp : b.params.length = 1) (hr : b.returns = .void) (text : Value → String) :
    Ends m s (.call f) (s.print text) := by
  have ht : (Instr.call f).takes = 1 := by simp [hf, hp]
  have hg : (Instr.call f).gives = 0 := by simp [hf, hr]
  have ho : (Instr.call f).goesOn := by simp [hf]
  unfold State.print
  cases hs : s.stack with
  | nil => exact .underflow (by rw [hs, ht]; exact Nat.one_pos)
  | cons v stack =>
    dsimp only
    cases s.sink.print (text v) with
    | mk r sink =>
      cases r with
      | error e => exact .fault _ rfl (.stream e)
      | ok _ => exact .onward [v] hs ht.symm ho [] hg.symm s.locals _

theorem read {f : String} {b : Builtin} (hf : Builtin.ofName? f = some b) (hp : b.params = [])
    (hr : b.returns ≠ .void) (reader : Input → Except StreamError String × Input)
    (value : String → Value) : Ends m s (.call f) (s.read reader value) := by
  have ht : (Instr.call f).takes = 0 := by simp [hf, hp]
  have hg : (Instr.call f).gives = 1 := by simp [hf, hr]
  have ho : (Instr.call f).goesOn := by simp [hf]
  unfold State.read
  cases reader s.input with
  | mk r input =>
    cases r with
    | error e => exact .fault _ rfl (.stream e)
    | ok t => exact .onward [] rfl ht.symm ho [value t] hg.symm s.locals _

theorem callBuiltin {f : String} {b : Builtin} (hf : Builtin.ofName? f = some b) :
    Ends m s (.call f) (m.callBuiltin s b) := by
  cases b with
  | printInt | printDouble | printStr => exact .print hf rfl rfl _
  | inputInt | inputDouble | inputStr => exact .read hf rfl (by decide) _ _
  | timeUp =>
    have ht : (Instr.call f).takes = 0 := by simp [hf, Builtin.params]
    have hg : (Instr.call f).gives = 1 := by simp [hf, Builtin.returns]
    have ho : (Instr.call f).goesOn := by simp [hf]
    exact .onward [] rfl ht.symm ho [_] hg.symm s.locals _

theorem callFunction {f : String} (hf : Builtin.ofName? f = none) :
    Ends m s (.call f) (m.callFunction s f) := by
  unfold Machine.callFunction
  cases h : m.target? f with
  | none => exact .fault _ rfl (.function f rfl hf h)
  | some ip => exact .next (by simp [hf]) (.call f ip rfl hf h)

end Ends

/-- **How instructions end.** -/
theorem execute_ends (m : Machine) (s : State) (i : Instr) : Ends m s i (m.execute s i) := by
  have push (v : Value) (ht : i.takes = 0) (ho : i.goesOn) (hg : i.gives = 1) :
      Ends m s i (s.push v) :=
    .onward [] rfl ht.symm ho [v] hg.symm s.locals s.toWorld
  have none (hs : s.stack = []) (ht : 0 < i.takes) : Ends m s i s.underflow :=
    .underflow (by rwa [hs])
  have one {v : Value} (hs : s.stack = [v]) (ht : 1 < i.takes) : Ends m s i s.underflow :=
    .underflow (by rwa [hs])
  cases i with
  | pushInt n => exact push (.int n) rfl rfl rfl
  | pushDouble x => exact push (.double x) rfl rfl rfl
  | pushString t => exact push (.string t) rfl rfl rfl
  | load x => exact push (s.locals.load x) rfl rfl rfl
  | label l => exact .onward [] rfl rfl rfl [] rfl s.locals s.toWorld
  | jump l => exact .goto [] rfl rfl rfl
  | call f =>
    rw [execute]
    cases h : Builtin.ofName? f with
    | none => exact .callFunction h
    | some b => exact .callBuiltin h
  | ret =>
    rw [execute]
    cases h : s.callers with
    | nil => exact .halt rfl h
    | cons caller callers => exact .next (Nat.zero_le _) (.ret caller callers rfl h)
  | store x =>
    rw [execute]
    cases h : s.stack with
    | nil => exact none h Nat.one_pos
    | cons v stack => exact .onward [v] h rfl rfl [] rfl (s.locals.store x v) s.toWorld
  | newArray | neg | not =>
    rw [execute]
    cases h : s.stack with
    | nil => exact none h Nat.one_pos
    | cons v stack => exact .onward [v] h rfl rfl [_] rfl s.locals s.toWorld
  | pop =>
    rw [execute]
    cases h : s.stack with
    | nil => exact none h Nat.one_pos
    | cons v stack => exact .onward [v] h rfl rfl [] rfl s.locals s.toWorld
  | jumpIfZero l =>
    rw [execute]
    cases h : s.stack with
    | nil => exact none h Nat.one_pos
    | cons v stack =>
      dsimp only
      split
      · exact .goto [v] h rfl rfl
      · exact .onward [v] h rfl rfl [] rfl s.locals s.toWorld
  | loadIndex | binary =>
    rw [execute]
    match h : s.stack with
    | [] => exact none h Nat.two_pos
    | [_] => exact one h Nat.one_lt_two
    | v :: w :: stack => exact .onward [v, w] h rfl rfl [_] rfl s.locals s.toWorld
  | storeIndex x =>
    rw [execute]
    match h : s.stack with
    | [] => exact none h Nat.two_pos
    | [_] => exact one h Nat.one_lt_two
    | v :: w :: stack => exact .onward [v, w] h rfl rfl [] rfl _ s.toWorld

/-! ## Other worlds -/

def State.mapWorld (f : World → World) (s : State) : State := { s with toWorld := f s.toWorld }

def Step.mapWorld (f : World → World) : Step → Step
  | .next s => .next (s.mapWorld f)
  | .halt s => .halt (s.mapWorld f)
  | .fault e s => .fault e (s.mapWorld f)

def Finished.mapWorld (f : World → World) (r : Finished) : Finished :=
  { r with state := r.state.mapWorld f }

section Worlds

theorem execute_of_builtin? {b : Builtin} (h : i.builtin? = some b) :
    m.execute s i = m.callBuiltin s b := by
  cases i with
  | call =>
    rw [Instr.builtin?] at h
    simp only [execute, h]
  | _ => cases h

variable {f : World → World}

theorem mapWorld_goto (label : String) :
    (s.goto m label).mapWorld f = (s.mapWorld f).goto m label := by
  unfold State.goto
  cases m.target? label <;> rfl

theorem mapWorld_print (hsink : ∀ w sink, f { w with sink } = { f w with sink })
    (text : Value → String) :
    (s.print text).mapWorld f = (s.mapWorld f).print text := by
  obtain ⟨w, ip, stack, locals, callers⟩ := s
  have hsame : (f w).sink = w.sink := (congrArg World.sink (hsink w w.sink) :)
  cases stack with
  | nil => rfl
  | cons v stack =>
    simp only [State.print, State.mapWorld, hsame]
    cases w.sink.print (text v) with
    | mk r sink =>
      cases r with
      | ok => exact congrArg (fun w => Step.next ⟨w, ip + 1, stack, locals, callers⟩) (hsink w sink)
      | error e =>
        exact congrArg (fun w => Step.fault _ ⟨w, ip, stack, locals, callers⟩) (hsink w sink)

theorem mapWorld_read (hinput : ∀ w input, f { w with input } = { f w with input })
    (reader : Input → Except StreamError String × Input) (value : String → Value) :
    (s.read reader value).mapWorld f = (s.mapWorld f).read reader value := by
  obtain ⟨w, ip, stack, locals, callers⟩ := s
  have hsame : (f w).input = w.input := (congrArg World.input (hinput w w.input) :)
  simp only [State.read, State.mapWorld, hsame]
  cases reader w.input with
  | mk r input =>
    cases r with
    | ok =>
      exact congrArg (fun w => Step.next ⟨w, ip + 1, _ :: stack, locals, callers⟩) (hinput w input)
    | error e =>
      exact congrArg (fun w => Step.fault _ ⟨w, ip, stack, locals, callers⟩) (hinput w input)

/-- **Only built-in functions** change the world or depend on it. -/
theorem mapWorld_execute
    (hb : ∀ b, i.builtin? = some b →
      (m.callBuiltin s b).mapWorld f = m.callBuiltin (s.mapWorld f) b) :
    (m.execute s i).mapWorld f = m.execute (s.mapWorld f) i := by
  obtain ⟨w, ip, stack, locals, callers⟩ := s
  cases i with
  | call name =>
    rw [Instr.builtin?] at hb
    simp only [execute]
    cases h : Builtin.ofName? name with
    | some b => exact hb b h
    | none =>
      simp only [callFunction]
      cases m.target? name <;> rfl
  | jump l => exact mapWorld_goto l
  | pushInt | pushDouble | pushString | load | label => rfl
  | store | newArray | neg | not | pop => cases stack <;> rfl
  | ret => cases callers <;> rfl
  | loadIndex | storeIndex | binary => rcases stack with _ | ⟨v, _ | ⟨v', stack⟩⟩ <;> rfl
  | jumpIfZero l =>
    cases stack with
    | nil => rfl
    | cons v stack =>
      by_cases hv : v.isZero
      · simpa [execute, State.mapWorld, hv] using mapWorld_goto (f := f) l
      · simp [execute, State.mapWorld, hv, State.advance, Step.mapWorld]

theorem mapWorld_step (h : ∀ i, m.program.code[s.ip]? = some i →
      (m.execute s i).mapWorld f = m.execute (s.mapWorld f) i) :
    (m.step s).mapWorld f = m.step (s.mapWorld f) := by
  have hip : (s.mapWorld f).ip = s.ip := rfl
  rw [step, step, hip]
  cases hi : m.program.code[s.ip]? with
  | none => rfl
  | some i => exact h i hi

end Worlds

/-! ## Runs -/

abbrev Steps (m : Machine) : State → State → Prop :=
  Relation.ReflTransGen fun s s' => m.step s = .next s'

/-- The end of a run, if a step ends it. -/
def Step.finished? : Step → Option Finished
  | .next _ => none
  | .halt s => some ⟨.ok (), s⟩
  | .fault f s => some ⟨.error f, s⟩

theorem runFrom_next (h : m.step s = .next s') (fuel : Nat) :
    m.runFrom (fuel + 1) s = m.runFrom fuel s' := by
  rw [runFrom, h]

theorem runFrom_finished {r : Finished} (h : (m.step s).finished? = some r) (fuel : Nat) :
    m.runFrom (fuel + 1) s = some r := by
  rw [runFrom]
  cases hs : m.step s with
  | next => rw [hs] at h; cases h
  | halt | fault => rw [hs] at h; exact h

theorem exists_steps_of_runFrom {fuel : Nat} {r : Finished} (h : m.runFrom fuel s = some r) :
    ∃ s', m.Steps s s' ∧ (m.step s').finished? = some r := by
  induction fuel generalizing s with
  | zero => cases h
  | succ fuel ih =>
    cases hs : m.step s with
    | next s' =>
      rw [runFrom_next hs] at h
      obtain ⟨s'', hsteps, hend⟩ := ih h
      exact ⟨s'', .head hs hsteps, hend⟩
    | halt | fault =>
      rw [runFrom, hs] at h
      exact ⟨s, .refl, by rw [hs]; exact h⟩

theorem exists_runFrom_of_steps {r : Finished} (h : m.Steps s s')
    (hend : (m.step s').finished? = some r) :
    ∃ fuel, m.runFrom fuel s = some r := by
  induction h using Relation.ReflTransGen.head_induction_on with
  | refl => exact ⟨1, runFrom_finished hend 0⟩
  | head hs _ ih =>
    obtain ⟨fuel, hrun⟩ := ih
    exact ⟨fuel + 1, (runFrom_next hs fuel).trans hrun⟩

theorem runFrom_unique {fuel fuel' : Nat} {r r' : Finished} (h : m.runFrom fuel s = some r)
    (h' : m.runFrom fuel' s = some r') : r = r' := by
  induction fuel generalizing fuel' s with
  | zero => cases h
  | succ fuel ih =>
    cases fuel' with
    | zero => cases h'
    | succ fuel' =>
      cases hs : m.step s with
      | next s' =>
        rw [runFrom_next hs] at h h'
        exact ih h h'
      | halt | fault =>
        rw [runFrom, hs] at h h'
        exact Option.some.inj (h.symm.trans h')

theorem run_unique {fuel fuel' : Nat} {r r' : Finished} (h : m.run fuel s = some r)
    (h' : m.run fuel' s = some r') :
    r = r' := by
  obtain ⟨last, hbody, rfl⟩ := Option.map_eq_some_iff.mp h
  obtain ⟨last', hbody', rfl⟩ := Option.map_eq_some_iff.mp h'
  unfold runBody at hbody hbody'
  cases hstart : m.start? s with
  | none =>
    rw [hstart] at hbody hbody'
    rw [Option.some.inj (hbody.symm.trans hbody')]
  | some s₀ =>
    rw [hstart] at hbody hbody'
    rw [runFrom_unique hbody hbody']

theorem failure_of_finished {f : Fault} (h : (m.step s).finished? = some ⟨.error f, s'⟩) :
    ∃ i, m.program.code[s.ip]? = some i ∧ Failure m s i f := by
  unfold step at h
  cases hi : m.program.code[s.ip]? with
  | none => rw [hi] at h; cases h
  | some i =>
    rw [hi] at h
    refine ⟨i, rfl, ?_⟩
    have hends := execute_ends m s i
    dsimp only at h
    cases hr : m.execute s i with
    | next | halt => rw [hr] at h; cases h
    | fault =>
      rw [hr] at h hends
      cases h
      cases hends with
      | fault _ _ hf => exact hf

theorem flush_error {r : Finished} {f : Fault} (h : r.flush.result = .error f) :
    r.result = .error f ∨ ∃ e, f = .stream e := by
  obtain ⟨result, last⟩ := r
  cases result with
  | error g => exact .inl h
  | ok =>
    unfold Finished.flush at h
    cases hflush : last.sink.flush with
    | mk q sink =>
      cases q with
      | ok => simp [hflush] at h
      | error e => exact .inr ⟨e, by simpa [hflush] using h.symm⟩

theorem ip_of_finished {r : Finished} (h : (m.step s).finished? = some r) : r.state.ip = s.ip := by
  unfold step at h
  cases hi : m.program.code[s.ip]? with
  | none =>
    rw [hi] at h
    cases h
    rfl
  | some i =>
    rw [hi] at h
    have hends := execute_ends m s i
    dsimp only at h
    cases hr : m.execute s i with
    | next => rw [hr] at h; cases h
    | halt =>
      rw [hr] at h hends
      cases h
      cases hends with
      | halt => rfl
    | fault =>
      rw [hr] at h hends
      cases h
      cases hends with
      | fault _ hip => exact hip

theorem ip_flush (r : Finished) : r.flush.state.ip = r.state.ip := by
  unfold Finished.flush
  split
  · rfl
  · split <;> rfl

theorem exists_steps_of_run {fuel : Nat} {r : Finished} {s₀ : State} (hstart : m.start? s = some s₀)
    (h : m.run fuel s = some r) : ∃ s', m.Steps s₀ s' ∧ r.state.ip = s'.ip := by
  obtain ⟨last, hbody, rfl⟩ := Option.map_eq_some_iff.mp h
  rw [runBody, hstart] at hbody
  obtain ⟨s', hsteps, hend⟩ := exists_steps_of_runFrom hbody
  exact ⟨s', hsteps, (ip_flush last).trans (ip_of_finished hend)⟩

/-- Faults of a run are stream errors, or those of an instruction that the run came to. -/
theorem failure_of_run {fuel : Nat} {r : Finished} {f : Fault} (h : m.run fuel s = some r)
    (hf : r.result = .error f) :
    (∃ e, f = .stream e) ∨
      ∃ s₀ s' i, m.start? s = some s₀ ∧ m.Steps s₀ s' ∧ m.program.code[s'.ip]? = some i ∧
      Failure m s' i f := by
  obtain ⟨⟨result, last⟩, hbody, rfl⟩ := Option.map_eq_some_iff.mp h
  rcases flush_error hf with hf | hstream
  · obtain rfl : result = .error f := hf
    unfold runBody at hbody
    cases hs : m.start? s with
    | none => rw [hs] at hbody; cases hbody
    | some s₀ =>
      rw [hs] at hbody
      obtain ⟨s', hsteps, hend⟩ := exists_steps_of_runFrom hbody
      obtain ⟨i, hi, hfail⟩ := failure_of_finished hend
      exact .inr ⟨s₀, s', i, rfl, hsteps, hi, hfail⟩
  · exact .inl hstream

theorem move_of_step (h : m.step s = .next s') :
    ∃ i, m.program.code[s.ip]? = some i ∧ i.takes ≤ s.stack.length ∧ Move m s i s' := by
  unfold step at h
  cases hi : m.program.code[s.ip]? with
  | none => rw [hi] at h; cases h
  | some i =>
    rw [hi] at h
    have hends := execute_ends m s i
    rw [show m.execute s i = .next s' from h] at hends
    cases hends with
    | next ht hm => exact ⟨i, rfl, ht, hm⟩

end Machine

/-! ## Where labels are -/

namespace Program

variable {p : Program} {l : String} {j : Nat}

theorem mem_labels : (l, j) ∈ p.labels ↔ p.code[j]? = some (.label l) := by
  unfold labels
  rw [mem_reverse, mem_filterMap, ← Array.getElem?_toList]
  constructor
  · rintro ⟨⟨i, k⟩, hmem, h⟩
    have hk := mem_zipIdx_iff_getElem?.mp hmem
    cases i with
    | label l' =>
      cases h
      exact hk
    | _ => cases h
  · intro h
    exact ⟨(.label l, j), mem_zipIdx_iff_getElem?.mpr h, rfl⟩

theorem getElem?_of_lookup_labels (h : p.labels.lookup l = some j) :
    p.code[j]? = some (.label l) := by
  obtain ⟨ks, ks', heq, -⟩ := lookup_eq_some_iff.mp h
  exact mem_labels.mp (heq ▸ mem_append_right ks mem_cons_self)

theorem exists_lookup_labels (h : p.code[j]? = some (.label l)) :
    ∃ j', p.labels.lookup l = some j' := by
  cases hl : p.labels.lookup l with
  | some j' => exact ⟨j', rfl⟩
  | none => simpa using lookup_eq_none_iff.mp hl _ (mem_labels.mpr h)

theorem lookup_labels_of_unique (h : p.code[j]? = some (.label l))
    (hu : ∀ k, p.code[k]? = some (.label l) → k = j) : p.labels.lookup l = some j := by
  obtain ⟨k, hk⟩ := exists_lookup_labels h
  rw [hk, hu k (getElem?_of_lookup_labels hk)]

end Program

end Stacklet
