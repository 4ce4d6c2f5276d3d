import Stacklet.Machine.State
import Stacklet.Typing.Builtin
/-!
# Steps of the machine

* `Machine.Step`: how a step ends: in a next state, at the end of the run, or in a fault.
* `Machine.execute`: what an instruction does.
* `Machine.step`: one step. Past the last instruction a run is at its end.
-/

namespace Stacklet.Machine

inductive Step where
  | next (s : State)
  | halt (s : State)
  | fault (f : Fault) (s : State)

namespace State

/-- Goes on behind the instruction. -/
def advance (s : State) : Step := .next { s with ip := s.ip + 1 }

/-- Goes on behind the instruction, with `v` pushed. -/
def push (s : State) (v : Value) : Step := .next { s with ip := s.ip + 1, stack := v :: s.stack }

def underflow (s : State) : Step := .fault .stackUnderflow s

/-- Goes to a label. -/
def goto (s : State) (m : Machine) (label : String) : Step :=
  match m.target? label with
  | some ip => .next { s with ip }
  | none => .fault (.unknownLabel label) s

/-- Prints the topmost value as `text` writes it. -/
def print (s : State) (text : Value → String) : Step :=
  match s.stack with
  | v :: stack =>
    match s.sink.print (text v) with
    | (.ok (), sink) => advance { s with stack, sink }
    | (.error e, sink) => .fault (.stream e) { s with stack, sink }
  | _ => s.underflow

/-- Pushes a value that is made of what a read gives. -/
def read (s : State) (reader : Input → Except StreamError String × Input) (value : String → Value) :
    Step :=
  match reader s.input with
  | (.ok text, input) => push { s with input } (value text)
  | (.error e, input) => .fault (.stream e) { s with input }

end State

/-- Calls a built-in function. -/
def callBuiltin (m : Machine) (s : State) : Builtin → Step
  | .printInt => s.print fun v => Number.decimal v.toInt.toInt
  | .printDouble => s.print fun v => Number.general v.toDouble
  | .printStr => s.print Value.toText
  | .inputInt => s.read Input.readToken fun t => .int (Number.leadingInt t)
  | .inputDouble => s.read Input.readToken fun t => .double (Number.leadingDouble t)
  | .inputStr => s.read Input.readText .string
  | .timeUp => State.push { s with clock := s.clock.tick } (.ofBool (m.limit ≤ s.clock.elapsed))

/-- Calls a function of the program: the running call is suspended and a new one starts without
variables. -/
def callFunction (m : Machine) (s : State) (f : String) : Step :=
  match m.target? f with
  | some ip => .next { s with ip, locals := [], callers := ⟨s.ip + 1, s.locals⟩ :: s.callers }
  | none => .fault (.unknownFunction f) s

/-- Executes an instruction. Built-in functions come before those of the program, and the run ends
when the outermost call returns. -/
def execute (m : Machine) (s : State) : Instr → Step
  | .pushInt n => s.push (.int n)
  | .pushDouble x => s.push (.double x)
  | .pushString t => s.push (.string t)
  | .load x => s.push (s.locals.load x)
  | .store x =>
    match s.stack with
    | v :: stack => State.advance { s with stack, locals := s.locals.store x v }
    | _ => s.underflow
  | .newArray =>
    match s.stack with
    | n :: stack => State.push { s with stack } (.zeros ((Value.position? n.toInt).getD 0))
    | _ => s.underflow
  | .loadIndex =>
    match s.stack with
    | i :: base :: stack => State.push { s with stack } (base.loadAt i.toInt)
    | _ => s.underflow
  | .storeIndex x =>
    match s.stack with
    | i :: v :: stack => State.advance { s with stack, locals := s.locals.storeIndex x i.toInt v }
    | _ => s.underflow
  | .binary op =>
    match s.stack with
    | b :: a :: stack => State.push { s with stack } (op.apply a b)
    | _ => s.underflow
  | .neg =>
    match s.stack with
    | v :: stack => State.push { s with stack } v.negate
    | _ => s.underflow
  | .not =>
    match s.stack with
    | v :: stack => State.push { s with stack } (.ofBool v.isZero)
    | _ => s.underflow
  | .jump label => s.goto m label
  | .jumpIfZero label =>
    match s.stack with
    | v :: stack =>
      if v.isZero then State.goto { s with stack } m label else State.advance { s with stack }
    | _ => s.underflow
  | .call f =>
    match Builtin.ofName? f with
    | some b => callBuiltin m s b
    | none => callFunction m s f
  | .ret =>
    match s.callers with
    | caller :: callers => .next { s with ip := caller.returnTo, locals := caller.locals, callers }
    | [] => .halt s
  | .pop =>
    match s.stack with
    | _ :: stack => State.advance { s with stack }
    | _ => s.underflow
  | .label _ => s.advance

def step (m : Machine) (s : State) : Step :=
  match m.program.code[s.ip]? with
  | some i => execute m s i
  | none => .halt s

end Stacklet.Machine
