import Stacklet.Code.Instr
import Stacklet.Number.General
/-!
# Values

* `Value`: what the machine computes with. Arrays are values too: a copy shares nothing with what it
  was copied from.
* `Value.toInt`, `Value.toDouble`, `Value.toText`: every value as a number and as text.
* `Value.loadAt`, `Value.storeAt`: indexing.
* `BinOp.apply`: the binary operations.
-/

namespace Stacklet

inductive Value where
  | absent
  | int (n : Int64)
  | double (x : Float)
  | string (s : String)
  | array (items : Array Value)

namespace Value

/-- The value that fills new arrays. -/
def zero : Value := .int 0

/-- An array of zeros. -/
def zeros (n : Nat) : Value := .array (Array.replicate n zero)

def ofBool (b : Bool) : Value := .int (if b then 1 else 0)

/-- Whether a value counts as false: zero, and what is empty. -/
def isZero : Value → Bool
  | absent => true
  | int n => n == 0
  | double x => x == 0
  | string s => s.isEmpty
  | array items => items.isEmpty

/-- A value as an integer. Doubles lose their fraction, and texts count as the integer that they
start with. -/
def toInt : Value → Int64
  | int n => n
  | double x => Number.truncate x
  | string s => Number.leadingInt s
  | absent | array _ => 0

/-- A value as a double. Texts count as the double that they start with. -/
def toDouble : Value → Float
  | int n => Number.ofInt64 n
  | double x => x
  | string s => Number.leadingDouble s
  | absent | array _ => 0

/-- A value as it is printed. -/
def toText : Value → String
  | int n => Number.decimal n.toInt
  | double x => Number.general x
  | string s => s
  | absent | array _ => ""

def isDouble : Value → Bool
  | double _ => true
  | _ => false

def isString : Value → Bool
  | string _ => true
  | _ => false

mutual

/-- Equality of values of one kind; doubles are compared as numbers. -/
def same : Value → Value → Bool
  | absent, absent => true
  | int m, int n => m == n
  | double x, double y => x == y
  | string s, string t => s == t
  | array ⟨xs⟩, array ⟨ys⟩ => sameAll xs ys
  | _, _ => false

/-- Equality of lists of values, one by one. -/
def sameAll : List Value → List Value → Bool
  | [], [] => true
  | v :: vs, w :: ws => same v w && sameAll vs ws
  | _, _ => false

end

/-! ## Indexing -/

/-- The position that an index stands for; none if it is negative. -/
def position? (i : Int64) : Option Nat := if 0 ≤ i then some i.toInt.toNat else none

/-- The item of an array, or the character of a string, at an index. Where there is none, it is zero
or the empty string. -/
def loadAt (base : Value) (i : Int64) : Value :=
  match base with
  | array items => ((position? i).bind fun n => items[n]?).getD zero
  | string s =>
    match (position? i).bind fun n => s.toList[n]? with
    | some c => .string (String.singleton c)
    | none => .string ""
  | _ => zero

/-- The items with `v` at position `n`, filled up with zeros before it. -/
def put (items : Array Value) (n : Nat) (v : Value) : Array Value :=
  if n < items.size then items.set! n v
  else (items ++ Array.replicate (n - items.size) zero).push v

/-- What a variable holds after `v` was stored at an index. It becomes an array if it was none, and
a negative index stores nothing. -/
def storeAt (held : Option Value) (i : Int64) (v : Value) : Value :=
  match held, position? i with
  | some (array items), some n => .array (put items n v)
  | some (array items), none => .array items
  | _, some n => .array (put #[] n v)
  | _, none => .array #[]

/-! ## Operations -/

/-- The opposite number. -/
def negate : Value → Value
  | double x => .double (-x)
  | v => .int (-v.toInt)

end Value

namespace BinOp

open Value

/-- Arithmetic on doubles if either operand is one, on integers that wrap around otherwise. -/
def arithmetic (onDouble : Float → Float → Float) (onInt : Int64 → Int64 → Int64)
    (a b : Value) : Value :=
  if a.isDouble || b.isDouble then .double (onDouble a.toDouble b.toDouble)
  else .int (onInt a.toInt b.toInt)

/-- A comparison of doubles if either operand is one, of integers otherwise. -/
def compare (onDouble : Float → Float → Bool) (onInt : Int64 → Int64 → Bool)
    (a b : Value) : Value :=
  .ofBool (if a.isDouble || b.isDouble then onDouble a.toDouble b.toDouble
    else onInt a.toInt b.toInt)

/-- Division and remainder by zero are zero. -/
def unlessZero (f : Int64 → Int64 → Int64) (a b : Int64) : Int64 := if b = 0 then 0 else f a b

/-- The result of an operation. Addition joins texts if either operand is one, the remainder is
always one of integers, and equality compares what would be printed. -/
def apply (op : BinOp) (a b : Value) : Value :=
  match op with
  | add =>
    if a.isString || b.isString then .string (a.toText ++ b.toText)
      else arithmetic (· + ·) (· + ·) a b
  | sub => arithmetic (· - ·) (· - ·) a b
  | mul => arithmetic (· * ·) (· * ·) a b
  | div => arithmetic (· / ·) (unlessZero (· / ·)) a b
  | mod => .int (unlessZero (· % ·) a.toInt b.toInt)
  | eq => .ofBool (a.toText == b.toText)
  | ne => .ofBool (a.toText != b.toText)
  | lt => compare (fun x y => x < y) (fun m n => m < n) a b
  | gt => compare (fun x y => y < x) (fun m n => n < m) a b
  | le => compare (fun x y => x ≤ y) (fun m n => m ≤ n) a b
  | ge => compare (fun x y => y ≤ x) (fun m n => n ≤ m) a b

end BinOp

end Stacklet
