import Stacklet.Code.Instr
import Stacklet.Loc
/-!
# Programs

* `Names`: the texts that a program mentions, numbered in the order of their first mention.
* `Program`: instructions, the places that they come from, and the names.
* `Program.listing`: one line for each instruction, with its index, mnemonic and operand.
* `Program.labels`, `Program.locAt`: where labels are, and where instructions come from.
-/

namespace Stacklet

/-- Distinct texts; the number of a text is its position. Strings, variables and labels share the
numbers. -/
structure Names where
  texts : List String := []
  deriving DecidableEq, Repr

namespace Names

/-- The number of a text. -/
def id? (ns : Names) (text : String) : Option Nat := ns.texts.idxOf? text

/-- The names with a text among them; a new text gets the next number. -/
def insert (ns : Names) (text : String) : Names :=
  if ns.texts.contains text then ns else ⟨ns.texts ++ [text]⟩

end Names

structure Program where
  code : Array Instr := #[]
  /-- The places of the instructions, in the same order. -/
  locs : Array Loc := #[]
  names : Names := {}

namespace Program

/-- The line of a listing without its end: index, mnemonic and, if there is one, operand. -/
def line (i : Nat) (instr : Instr) : String :=
  let head := Number.decimal i ++ " " ++ instr.mnemonic
  match instr.operand? with
  | some arg => head ++ " " ++ arg
  | none => head

def listing (p : Program) : String :=
  String.join (p.code.toList.zipIdx.map fun (instr, i) => line i instr ++ "\n")

/-- The place of the instruction at an index; nowhere if none is recorded. -/
def locAt (p : Program) (i : Nat) : Loc := p.locs[i]?.getD .nowhere

/-- The labels with the index of their instruction, the last one first. -/
def labels (p : Program) : List (String × Nat) :=
  (p.code.toList.zipIdx.filterMap fun (instr, i) =>
    match instr with
    | .label name => some (name, i)
    | _ => none).reverse

/-- A program of instructions at given places, with the names that they mention in order. -/
def ofCode (code : List Instr) (locs : List Loc) : Program :=
  { code := code.toArray
    locs := locs.toArray
    names := (code.filterMap Instr.reference?).foldl (fun ns r => ns.insert r.text) {} }

end Program

end Stacklet
