import Stacklet.Proofs.Execution
/-!
# Effects of instructions

* `Effect`: what an instruction does to the operands and to the variables of the running call, if it
  neither calls a function of the program nor returns.
* `Machine.effect_of_step`: so it is in every step.
-/

namespace Stacklet

/-- What a built-in function puts on the stack. -/
def Builtin.Gives (b : Builtin) : List Value → Prop
  | [] => b.returns = .void
  | [.int _] => b.returns = .int
  | [.double _] => b.returns = .double
  | [.string _] => b.returns = .string
  | _ => False

/-- What an instruction does to the operands and the variables of the running call. -/
inductive Effect : Instr → List Value → Locals → List Value → Locals → Prop
  | pushInt (n : Int64) (stack : List Value) (ls : Locals) :
      Effect (.pushInt n) stack ls (.int n :: stack) ls
  | pushDouble (x : Float) (stack : List Value) (ls : Locals) :
      Effect (.pushDouble x) stack ls (.double x :: stack) ls
  | pushString (t : String) (stack : List Value) (ls : Locals) :
      Effect (.pushString t) stack ls (.string t :: stack) ls
  | load (x : String) (stack : List Value) (ls : Locals) :
      Effect (.load x) stack ls (ls.load x :: stack) ls
  | store (x : String) (v : Value) (stack : List Value) (ls : Locals) :
    Effect (.store x) (v :: stack) ls stack (ls.store x v)
  | newArray (n : Value) (stack : List Value) (ls : Locals) :
    Effect .newArray (n :: stack) ls (.zeros ((Value.position? n.toInt).getD 0) :: stack) ls
  | loadIndex (i base : Value) (stack : List Value) (ls : Locals) :
    Effect .loadIndex (i :: base :: stack) ls (base.loadAt i.toInt :: stack) ls
  | storeIndex (x : String) (i v : Value) (stack : List Value) (ls : Locals) :
    Effect (.storeIndex x) (i :: v :: stack) ls stack (ls.storeIndex x i.toInt v)
  | binary (op : BinOp) (b a : Value) (stack : List Value) (ls : Locals) :
    Effect (.binary op) (b :: a :: stack) ls (op.apply a b :: stack) ls
  | neg (v : Value) (stack : List Value) (ls : Locals) :
      Effect .neg (v :: stack) ls (v.negate :: stack) ls
  | not (v : Value) (stack : List Value) (ls : Locals) :
      Effect .not (v :: stack) ls (.ofBool v.isZero :: stack) ls
  | pop (v : Value) (stack : List Value) (ls : Locals) : Effect .pop (v :: stack) ls stack ls
  | jumpIfZero (l : String) (v : Value) (stack : List Value) (ls : Locals) :
    Effect (.jumpIfZero l) (v :: stack) ls stack ls
  | jump (l : String) (stack : List Value) (ls : Locals) : Effect (.jump l) stack ls stack ls
  | label (l : String) (stack : List Value) (ls : Locals) : Effect (.label l) stack ls stack ls
  | builtin (f : String) (b : Builtin) (args result stack : List Value) (ls : Locals) :
      Builtin.ofName? f = some b →
    args.length = b.params.length → b.Gives result →
      Effect (.call f) (args ++ stack) ls (result ++ stack) ls

namespace Machine

variable {m : Machine} {s s' : State} {i : Instr}

theorem effect_of_goto {l : String} {stack : List Value}
    (h : State.goto { s with stack } m l = .next s') :
    s'.stack = stack ∧ s'.locals = s.locals := by
  unfold State.goto at h
  split at h
  · cases h
    exact ⟨rfl, rfl⟩
  · cases h

theorem effect_of_builtin {f : String} {b : Builtin} (hf : Builtin.ofName? f = some b)
    (h : m.callBuiltin s b = .next s') : Effect (.call f) s.stack s.locals s'.stack s'.locals := by
  have print {text : Value → String} (hp : b.params.length = 1) (hr : b.returns = .void)
      (h : s.print text = .next s') : Effect (.call f) s.stack s.locals s'.stack s'.locals := by
    unfold State.print at h
    split at h
    · next v stack hs =>
      split at h
      · cases h
        rw [hs]
        exact .builtin f b [v] [] stack s.locals hf hp.symm hr
      · cases h
    · cases h
  have push (v : Value) (world : World) (hp : b.params = []) (hr : b.Gives [v])
      (h : State.push { s with toWorld := world } v = .next s') :
      Effect (.call f) s.stack s.locals s'.stack s'.locals := by
    cases h
    exact .builtin f b [] [v] s.stack s.locals hf (by rw [hp]; rfl) hr
  have read {reader : Input → Except StreamError String × Input} (value : String → Value)
      (hp : b.params = []) (hr : ∀ text, b.Gives [value text])
      (h : s.read reader value = .next s') :
      Effect (.call f) s.stack s.locals s'.stack s'.locals := by
    unfold State.read at h
    split at h
    · exact push _ _ hp (hr _) h
    · cases h
  cases b with
  | printInt | printDouble | printStr => exact print rfl rfl h
  | inputInt => exact read (fun t => .int (Number.leadingInt t)) rfl (fun _ => rfl) h
  | inputDouble => exact read (fun t => .double (Number.leadingDouble t)) rfl (fun _ => rfl) h
  | inputStr => exact read .string rfl (fun _ => rfl) h
  | timeUp => exact push (.ofBool (m.limit ≤ s.clock.elapsed)) _ rfl rfl h

/-- **Steps have the effects of their instructions**, if they neither call a function of the program
nor return. -/
theorem effect_of_step (h : m.step s = .next s') (hi : m.program.code[s.ip]? = some i)
    (hcall : ∀ f, i = .call f → Builtin.ofName? f ≠ none) (hret : i ≠ .ret) :
    Effect i s.stack s.locals s'.stack s'.locals := by
  have hexec : m.execute s i = .next s' := by simpa [step, hi] using h
  cases i with
  | ret => exact absurd rfl hret
  | call f =>
    rw [execute] at hexec
    cases hb : Builtin.ofName? f with
    | none => exact absurd hb (hcall f rfl)
    | some b =>
      rw [hb] at hexec
      exact effect_of_builtin hb hexec
  | jump l =>
    obtain ⟨hstack, hlocals⟩ := effect_of_goto hexec
    rw [hstack, hlocals]
    exact .jump l s.stack s.locals
  | jumpIfZero l =>
    rw [execute] at hexec
    split at hexec
    · next v stack hs =>
      rw [hs]
      split at hexec
      · obtain ⟨hstack, hlocals⟩ := effect_of_goto hexec
        rw [hstack, hlocals]
        exact .jumpIfZero l v stack s.locals
      · cases hexec
        exact .jumpIfZero l v stack s.locals
    · cases hexec
  | pushInt | pushDouble | pushString | load | label =>
    cases hexec
    constructor
  | store | newArray | neg | not | pop | loadIndex | storeIndex | binary =>
    rw [execute] at hexec
    split at hexec
    · next hs =>
      rw [hs]
      cases hexec
      constructor
    · cases hexec

end Machine

end Stacklet
