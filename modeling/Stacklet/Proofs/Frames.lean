import Stacklet.Proofs.Height
/-!
# Calls are isolated from each other

Which return belongs to a call is told by the instructions that are executed behind it alone: it is
the first one that is not used up by a call in between.

* `Machine.Trace`: steps in a row, with the instructions that they execute. `exists_trace`: all
  steps in a row have a trace.
* `nesting?`: the number of calls that wait within a call, by counting; none behind the return of
  the call itself.
* `callers_of_step`: what an instruction does to the calls that wait. `callers_of_trace`: what a
  trace does.
* **`Machine.call_frames_isolated`**: the calls that wait are left alone up to the return, and this
  goes on behind the call with the variables that there were.
-/

namespace Stacklet

/-- The number of calls that wait within a call, if it was `depth` before an instruction. None if
the instruction is the return of the call itself. -/
def Instr.nesting? (depth : Nat) : Instr → Option Nat
  | .call f => some (if Builtin.ofName? f = none then depth + 1 else depth)
  | .ret => if depth = 0 then none else some (depth - 1)
  | _ => some depth

def nesting? (depth : Nat) (is : List Instr) : Option Nat := is.foldlM Instr.nesting? depth

@[simp] theorem nesting?_nil (depth : Nat) : nesting? depth [] = some depth := by simp [nesting?]

@[simp] theorem nesting?_cons (depth : Nat) (i : Instr) (is : List Instr) :
    nesting? depth (i :: is) = (i.nesting? depth).bind fun depth => nesting? depth is := by
  simp [nesting?]

/-- The first return that no call in between uses up ends a call. -/
theorem exists_matching_ret {depth : Nat} {is : List Instr} (h : nesting? depth is = none) :
    ∃ body rest, is = body ++ Instr.ret :: rest ∧ nesting? depth body = some 0 := by
  induction is generalizing depth with
  | nil => simp at h
  | cons i is ih =>
    cases hi : i.nesting? depth with
    | some depth' =>
      rw [nesting?_cons, hi] at h
      obtain ⟨body, rest, rfl, hbody⟩ := ih h
      exact ⟨i :: body, rest, rfl, by simp [hi, hbody]⟩
    | none =>
      cases i with
      | ret =>
        have hdepth : depth = 0 := by simpa [Instr.nesting?] using hi
        exact ⟨[], is, rfl, by simp [hdepth]⟩
      | _ => simp [Instr.nesting?] at hi

namespace Machine

/-- Steps in a row that execute the instructions `is`. -/
def Trace (m : Machine) : State → List Instr → State → Prop
  | s, [], s' => s = s'
  | s, i :: is, s' =>
    m.program.code[s.ip]? = some i ∧ ∃ next, m.step s = .next next ∧ m.Trace next is s'

variable {m : Machine} {s s' : State} {i : Instr} {is is' : List Instr}

theorem trace_append : m.Trace s (is ++ is') s' ↔ ∃ mid, m.Trace s is mid ∧ m.Trace mid is' s' := by
  induction is generalizing s with
  | nil => simp [Trace]
  | cons i is ih =>
    simp only [List.cons_append, Trace, ih]
    grind

theorem exists_trace (h : m.Steps s s') : ∃ is, m.Trace s is s' := by
  induction h using Relation.ReflTransGen.head_induction_on with
  | refl => exact ⟨[], rfl⟩
  | head hstep _ ih =>
    obtain ⟨is, htrace⟩ := ih
    obtain ⟨i, hi, -⟩ := move_of_step hstep
    exact ⟨i :: is, hi, _, hstep, htrace⟩

theorem nesting?_of_goesOn (depth : Nat) (h : i.goesOn) : i.nesting? depth = some depth := by
  cases i with
  | ret => simp [Instr.goesOn] at h
  | call f =>
    have hf : Builtin.ofName? f ≠ none := by simpa [Instr.goesOn, Option.isSome_iff_ne_none] using h
    simp [Instr.nesting?, hf]
  | _ => simp [Instr.nesting?]

theorem nesting?_of_target? (depth : Nat) {l : String} (h : i.target? = some l) :
    i.nesting? depth = some depth := by
  cases i <;> simp_all [Instr.target?, Instr.nesting?]

theorem callers_of_ret (hi : m.program.code[s.ip]? = some .ret) (h : m.step s = .next s') :
    s.callers = ⟨s'.ip, s'.locals⟩ :: s'.callers := by
  obtain ⟨i, hi', -, hmove⟩ := move_of_step h
  obtain rfl : i = .ret := Option.some.inj (hi'.symm.trans hi)
  cases hmove with
  | onward _ _ _ hon => simp [Instr.goesOn] at hon
  | jump _ _ hl => simp [Instr.target?] at hl
  | call _ _ hc => simp at hc
  | ret caller callers _ hcallers => exact hcallers

/-- **A step within a call** leaves alone the calls that wait around it. -/
theorem callers_of_step {inner callers : List Suspended} {depth : Nat}
    (hi : m.program.code[s.ip]? = some i) (h : m.step s = .next s')
    (hs : s.callers = inner ++ callers) (hdepth : i.nesting? inner.length = some depth) :
    ∃ inner', inner'.length = depth ∧ s'.callers = inner' ++ callers := by
  obtain ⟨i', hi', -, hmove⟩ := move_of_step h
  obtain rfl : i' = i := Option.some.inj (hi'.symm.trans hi)
  cases hmove with
  | onward _ _ _ hon =>
    rw [nesting?_of_goesOn _ hon, Option.some.injEq] at hdepth
    exact ⟨inner, hdepth, hs⟩
  | jump _ _ hl =>
    rw [nesting?_of_target? _ hl, Option.some.injEq] at hdepth
    exact ⟨inner, hdepth, hs⟩
  | call f ip hc hb =>
    subst hc
    have hlength : inner.length + 1 = depth := by simpa [Instr.nesting?, hb] using hdepth
    exact ⟨⟨s.ip + 1, s.locals⟩ :: inner, hlength, by simp [hs]⟩
  | ret caller rest hr hcallers =>
    subst hr
    rw [hs] at hcallers
    cases inner with
    | nil => simp [Instr.nesting?] at hdepth
    | cons c inner =>
      have hlength : inner.length = depth := by simpa [Instr.nesting?] using hdepth
      exact ⟨inner, hlength, (List.cons.inj hcallers).2.symm⟩

/-- **Steps within a call** leave alone the calls that wait around it. -/
theorem callers_of_trace (inner : List Suspended) {callers : List Suspended} {depth : Nat}
    (h : m.Trace s is s') (hs : s.callers = inner ++ callers)
    (hdepth : nesting? inner.length is = some depth) :
    ∃ inner', inner'.length = depth ∧ s'.callers = inner' ++ callers := by
  induction is generalizing s inner with
  | nil =>
    obtain rfl : s = s' := h
    exact ⟨inner, by simpa using hdepth, hs⟩
  | cons i is ih =>
    obtain ⟨hi, next, hstep, htrace⟩ := h
    rw [nesting?_cons] at hdepth
    obtain ⟨depth', hdepth', hrest⟩ := Option.bind_eq_some_iff.mp hdepth
    obtain ⟨inner', hlength, hnext⟩ := callers_of_step hi hstep hs hdepth'
    exact ih inner' htrace hnext (hlength ▸ hrest)

/-- If a step ends the run, these calls wait in its last state. -/
def Step.EndsWith (callers : List Suspended) : Step → Prop
  | .next _ => True
  | .halt s | .fault _ s => s.callers = callers

theorem endsWith_goto (s : State) (l : String) : (s.goto m l).EndsWith s.callers := by
  unfold State.goto
  cases m.target? l <;> simp [Step.EndsWith]

theorem endsWith_callBuiltin (s : State) (b : Builtin) :
    (m.callBuiltin s b).EndsWith s.callers := by
  have hprint (text : Value → String) : (s.print text).EndsWith s.callers := by
    unfold State.print
    split
    · split <;> simp [Step.EndsWith, State.advance]
    · simp [Step.EndsWith, State.underflow]
  have hread (reader : Input → Except StreamError String × Input) (value : String → Value) :
      (s.read reader value).EndsWith s.callers := by
    unfold State.read
    split <;> simp [Step.EndsWith, State.push]
  cases b with
  | printInt | printDouble | printStr => exact hprint _
  | inputInt | inputDouble | inputStr => exact hread _ _
  | timeUp => simp [callBuiltin, Step.EndsWith, State.push]

theorem endsWith_execute (s : State) (i : Instr) : (m.execute s i).EndsWith s.callers := by
  cases i with
  | pushInt | pushDouble | pushString | load | label =>
    simp [execute, Step.EndsWith, State.push, State.advance]
  | jump l => exact endsWith_goto s l
  | store | newArray | neg | not | pop | loadIndex | storeIndex | binary =>
    simp only [execute]
    split <;> simp [Step.EndsWith, State.push, State.advance, State.underflow]
  | jumpIfZero l =>
    simp only [execute]
    split
    · split
      · exact endsWith_goto _ l
      · simp [Step.EndsWith, State.advance]
    · simp [Step.EndsWith, State.underflow]
  | call f =>
    simp only [execute]
    split
    · exact endsWith_callBuiltin s _
    · unfold callFunction
      split <;> simp [Step.EndsWith]
  | ret =>
    simp only [execute]
    split <;> simp_all [Step.EndsWith]

theorem callers_of_finished {r : Finished} (h : (m.step s).finished? = some r) :
    r.state.callers = s.callers := by
  have hends : (m.step s).EndsWith s.callers := by
    unfold step
    split
    · exact endsWith_execute s _
    · simp [Step.EndsWith]
  generalize m.step s = e at h hends
  cases e with
  | next => simp [Step.finished?] at h
  | halt s' | fault _ s' =>
    simp only [Step.finished?, Option.some.injEq] at h
    subst h
    exact hends

/-- **Calls are isolated from each other.** Behind a call of a function of the program, as long as
its return was not executed, the calls that wait are those that waited before, with the calling one,
and those within the call; each of them has the variables and the place to return to that it had.
The return that belongs to the call, which is the first one that no call in between uses up, goes on
behind the call with the variables and waiting calls that there were. Nothing else leaves a call. -/
theorem call_frames_isolated {first : State} {f : String}
    (hi : m.program.code[s.ip]? = some (.call f)) (hf : Builtin.ofName? f = none)
    (hcall : m.step s = .next first) :
    (∀ s', m.Steps first s' → ∃ is, m.Trace first is s') ∧
    (∀ is s' depth, m.Trace first is s' → nesting? 0 is = some depth →
      (∃ inner, inner.length = depth ∧ s'.callers = inner ++ ⟨s.ip + 1, s.locals⟩ :: s.callers) ∧
      ∀ r, (m.step s').finished? = some r → r.state.callers = s'.callers) ∧
    (∀ body rest s', m.Trace first (body ++ Instr.ret :: rest) s' → nesting? 0 body = some 0 →
      ∃ back, m.Trace first (body ++ [.ret]) back ∧ back.ip = s.ip + 1 ∧ back.locals = s.locals ∧
        back.callers = s.callers ∧ m.Trace back rest s') ∧
    ∀ is, nesting? 0 is = none →
      ∃ body rest, is = body ++ Instr.ret :: rest ∧ nesting? 0 body = some 0 := by
  have hfirst := callers_of_call hi hf hcall
  refine ⟨fun s' => exists_trace, fun is s' depth htrace hdepth => ?_,
    fun body rest s' htrace hbody => ?_, fun is => exists_matching_ret⟩
  · exact ⟨callers_of_trace [] htrace hfirst hdepth, fun r => callers_of_finished⟩
  · obtain ⟨last, hlast, hret, back, hback, hrest⟩ := trace_append.mp htrace
    obtain ⟨inner, hlength, hcallers⟩ := callers_of_trace [] hlast hfirst hbody
    have hreturn : ⟨back.ip, back.locals⟩ :: back.callers = inner ++ ⟨s.ip + 1, s.locals⟩ ::
        s.callers :=
      (callers_of_ret hret hback).symm.trans hcallers
    rw [List.length_eq_zero_iff.mp hlength, List.nil_append, List.cons.injEq,
      Suspended.mk.injEq] at hreturn
    exact ⟨back, trace_append.mpr ⟨last, hlast, hret, back, hback, rfl⟩, hreturn.1.1, hreturn.1.2,
      hreturn.2, hrest⟩

/-- A function that calls itself once and has a variable of the caller's name. -/
def recursing : Machine := .load { code := #[
  .label "main", .pushInt 5, .store "x", .pushInt 1, .call "f", .ret,
  .label "f", .jumpIfZero "done", .pushInt 0, .call "f", .label "done", .pushInt 7,
    .store "x", .ret] }

/-- What is executed in the call of the function, up to its return. -/
def recursingBody : List Instr :=
  [.label "f", .jumpIfZero "done", .pushInt 0, .call "f", .label "f", .jumpIfZero "done",
  .label "done", .pushInt 7, .store "x", .ret, .label "done", .pushInt 7, .store "x"]

def recursingCall : State :=
  { ip := 4, stack := [.int 1], locals := [("x", .int 5)], input := ⟨[], false⟩, sink := {} }

theorem recursing_frames_isolated : recursing.program.code[recursingCall.ip]? = some (.call "f") ∧
    Builtin.ofName? "f" = none ∧ nesting? 0 recursingBody = some 0 ∧
    ∃ first, recursing.step recursingCall = .next first ∧
      ∃ back, recursing.Trace first (recursingBody ++ [Instr.ret]) back ∧ back.ip = 5 ∧
        back.locals = [("x", .int 5)] := by
  have hbody : nesting? 0 recursingBody = some 0 := by decide
  have hcall : recursing.step recursingCall =
      .next { recursingCall with ip := 6, locals := [], callers := [⟨5, [("x", .int 5)]⟩] } := rfl
  have htrace : ∃ last, recursing.Trace { recursingCall with ip := 6, locals := [],
                                                             callers := [⟨5, [("x", .int 5)]⟩] }
      (recursingBody ++ [Instr.ret]) last :=
    ⟨_, rfl, _, rfl, rfl, _, rfl, rfl, _, rfl, rfl, _, rfl, rfl, _, rfl, rfl, _, rfl, rfl, _, rfl,
      rfl, _, rfl, rfl, _, rfl,
      rfl, _, rfl, rfl, _, rfl, rfl, _, rfl, rfl, _, rfl, rfl, _, rfl, rfl⟩
  obtain ⟨last, htrace⟩ := htrace
  obtain ⟨back, hback, hip, hlocals, -⟩ :=
    (call_frames_isolated rfl rfl hcall).2.2.1 recursingBody [] last htrace hbody
  exact ⟨rfl, rfl, hbody, _, hcall, back, hback, hip, hlocals⟩

end Machine

end Stacklet
