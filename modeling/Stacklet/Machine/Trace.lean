import Stacklet.Machine.Run
import Stacklet.Record
/-!
# Records of a run

* `Machine.records`: what a run reports: each instruction before it is executed, each call and
  return of a function of the program, and at the end the number of steps.
* `Machine.runsRecords`: what several runs report, one after the other.
-/

namespace Stacklet.Machine

def note (level : Level) (text : String) : Record := ⟨level, .machine, text⟩

/-- A number behind blanks, to a width of five. -/
def padded (n : Nat) : String :=
  let ds := Number.digits n
  String.ofList (List.replicate (5 - ds.length) ' ' ++ ds)

/-- An instruction that is about to be executed. -/
def instrNote (ip : Nat) (i : Instr) : Record :=
  note .trace (padded ip ++ " " ++ i.mnemonic ++ " " ++ i.operand?.getD "")

/-- A call of, or a return from, a function of the program that is about to happen. -/
def callNotes (m : Machine) (s : State) : Instr → List Record
  | .call f =>
    if (Builtin.ofName? f).isNone && (m.target? f).isSome then
      [note .debug ("call " ++ f ++ " from " ++ Number.decimal s.ip)]
    else []
  | .ret =>
    match s.callers with
    | caller :: _ => [note .debug ("ret to " ++ Number.decimal caller.returnTo)]
    | [] => []
  | _ => []

/-- The records of the instructions that are executed from a state on, added to `done`, and their
number, added to `steps`. -/
def notesFrom (m : Machine) : (fuel : Nat) → State → (done : Array Record) → (steps : Nat) →
    Array Record × Nat
  | 0, _, done, steps => (done, steps)
  | fuel + 1, s, done, steps =>
    match m.program.code[s.ip]? with
    | none => (done, steps)
    | some i =>
      let done := (done.push (instrNote s.ip i)).appendList (callNotes m s i)
      match m.execute s i with
      | .next s => notesFrom m fuel s done (steps + 1)
      | _ => (done, steps + 1)

/-- The records of a run. -/
def records (m : Machine) (fuel : Nat) (s : State) : Array Record :=
  let (done, steps) := match m.start? s with
    | some s => m.notesFrom fuel s #[] 0
    | none => (#[note .debug ("no '" ++ m.entry ++ "' label, nothing to run")], 0)
  done.push (note .debug ("vm stopped after " ++ Number.decimal steps ++ " steps"))

/-- The records of so many runs, each in the state that the one before it left. -/
def runsRecords (m : Machine) (fuel : Nat) : Nat → State → List Record
  | 0, _ => []
  | n + 1, s =>
    let later := match m.run fuel s with
      | some r => runsRecords m fuel n r.state
      | none => []
    (m.records fuel s).toList ++ later

end Stacklet.Machine
