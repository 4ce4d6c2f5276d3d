import Stacklet.Number.Shortest
/-!
# Instructions

* `BinOp`, `Instr`: the instructions of the stack machine. Labels, variables and functions are named
  by their text.
* `Instr.mnemonic`, `Instr.operand?`: how an instruction is written.
* `Instr.reference?`: the text that an instruction refers to, and what it names.
-/

namespace Stacklet

/-- Operations on the two topmost values; the right operand is on top. -/
inductive BinOp where
  | add | sub | mul | div | mod | eq | ne | lt | gt | le | ge
  deriving DecidableEq, Repr

def BinOp.mnemonic : BinOp → String
  | add => "ADD"
  | sub => "SUB"
  | mul => "MUL"
  | div => "DIV"
  | mod => "MOD"
  | eq => "EQ"
  | ne => "NEQ"
  | lt => "LT"
  | gt => "GT"
  | le => "LE"
  | ge => "GE"

inductive Instr where
  | pushInt (n : Int64)
  | pushDouble (x : Float)
  | pushString (s : String)
  | load (slot : String)
  | store (slot : String)
  | newArray
  | loadIndex
  /-- Stores the second value from the top at the index on top. -/
  | storeIndex (slot : String)
  | binary (op : BinOp)
  | neg
  | not
  | jump (label : String)
  | jumpIfZero (label : String)
  | call (function : String)
  | ret
  | pop
  | label (name : String)
  deriving Repr

/-- A text that an instruction refers to. -/
inductive Reference where
  | string (text : String)
  | slot (text : String)
  | label (text : String)
  deriving DecidableEq, Repr

def Reference.text : Reference → String
  | string t | slot t | label t => t

namespace Instr

def mnemonic : Instr → String
  | pushInt _ => "PUSH_INT"
  | pushDouble _ => "PUSH_DOUBLE"
  | pushString _ => "PUSH_STRING"
  | load _ => "LOAD"
  | store _ => "STORE"
  | newArray => "NEW_ARRAY"
  | loadIndex => "LOAD_INDEX"
  | storeIndex _ => "STORE_INDEX"
  | binary op => op.mnemonic
  | neg => "NEG"
  | not => "NOT"
  | jump _ => "JMP"
  | jumpIfZero _ => "JZ"
  | call _ => "CALL"
  | ret => "RET"
  | pop => "POP"
  | label _ => "LABEL"

def reference? : Instr → Option Reference
  | pushString s => some (.string s)
  | load x | store x | storeIndex x => some (.slot x)
  | jump l | jumpIfZero l | call l | label l => some (.label l)
  | _ => none

/-- The operand as text. Strings are written without quotes. -/
def operand? : Instr → Option String
  | pushInt n => some (Number.decimal n.toInt)
  | pushDouble x => some (Number.shortest x)
  | i => i.reference?.map Reference.text

def isRet : Instr → Bool
  | ret => true
  | _ => false

end Instr

end Stacklet
