import Stacklet.Machine.Step
/-!
# Runs of the machine

* `Machine.runFrom`: steps until the end of the run or a fault, at most so many.
* `Machine.run`: a whole run. It starts at the entry, if the program has it, with an empty stack,
  and a run that comes to its end flushes the output. A fault is reported where the instruction
  comes from that the machine stands at.
* `Machine.runs`: several runs, one after the other.
-/

namespace Stacklet.Machine

/-- A finished run: its fault, if there was one, and the last state. -/
structure Finished where
  result : Except Fault Unit
  state : State

/-- Steps to the end of the run. None if `fuel` steps are not enough. -/
def runFrom (m : Machine) : (fuel : Nat) → State → Option Finished
  | 0, _ => none
  | fuel + 1, s =>
    match m.step s with
    | .next s => runFrom m fuel s
    | .halt s => some ⟨.ok (), s⟩
    | .fault f s => some ⟨.error f, s⟩

/-- The state without what earlier runs left behind. The instruction pointer stays, and the clock
starts anew. -/
def State.clear (s : State) : State :=
  { s with stack := [], locals := [], callers := [], clock := s.clock.restart }

/-- Flushes the output of a run that came to its end. -/
def Finished.flush (r : Finished) : Finished :=
  match r.result with
  | .error _ => r
  | .ok () =>
    match r.state.sink.flush with
    | (.ok (), sink) => { r with state := { r.state with sink } }
    | (.error e, sink) => ⟨.error (.stream e), { r.state with sink }⟩

/-- The state that a run starts in; none if the program does not have the entry. -/
def start? (m : Machine) (s : State) : Option State :=
  (m.target? m.entry).map fun ip => { s.clear with ip }

/-- A run without the flush at its end. -/
def runBody (m : Machine) (fuel : Nat) (s : State) : Option Finished :=
  match m.start? s with
  | some s => m.runFrom fuel s
  | none => some ⟨.ok (), s.clear⟩

/-- A run. None if `fuel` steps are not enough. -/
def run (m : Machine) (fuel : Nat) (s : State) : Option Finished :=
  (m.runBody fuel s).map Finished.flush

/-- So many runs, each in the state that the one before it left. -/
def runs (m : Machine) (fuel : Nat) : Nat → State → Option (List Finished)
  | 0, _ => some []
  | n + 1, s => do
    let first ← m.run fuel s
    return first :: (← runs m fuel n first.state)

/-- What a run wrote that started in `s`. -/
def Finished.output (r : Finished) (s : State) : ByteArray :=
  r.state.sink.written.extract s.sink.written.size r.state.sink.written.size

/-- The fault of a run with its place. -/
def Finished.fault? (m : Machine) (r : Finished) : Option (Located Fault) :=
  match r.result with
  | .ok () => none
  | .error f => some ⟨m.program.locAt r.state.ip, f⟩

end Stacklet.Machine
