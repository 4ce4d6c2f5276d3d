import Stacklet.Number.Double
import Stacklet.Text.Blank
/-!
# Reading numbers

* `readInt?`, `readDouble?`: the number that a whole text is a numeral of.
* `leadingInt`, `leadingDouble`: the number that a text starts with, behind blanks; zero if it
  starts with none.
* `Numeral`: digits and a power of ten. `Numeral.toDouble` is the nearest double.

A numeral may be very long. Integers are read up to a bound, and of a decimal fraction only the
digits are multiplied out that decide between two doubles.
-/

namespace Stacklet.Number

/-- A text without the sign that it starts with, and whether the sign is a minus. -/
def splitSign : List Char → Bool × List Char
  | '-' :: cs => (true, cs)
  | '+' :: cs => (false, cs)
  | cs => (false, cs)

/-! ## Integers -/

/-- The number that digits stand for, or `bound` if it is larger. -/
def boundedValue (bound : Nat) (ds : List Char) : Nat :=
  ds.foldl (fun n d => min bound (10 * n + digitValue d)) 0

theorem boundedValue_eq_min (bound : Nat) (ds : List Char) :
    boundedValue bound ds = min bound (digitsValue ds) := by
  have step (n : Nat) : ds.foldl (fun n d => min bound (10 * n + digitValue d)) (min bound n) =
      min bound (ds.foldl (fun n d => 10 * n + digitValue d) n) := by
    induction ds generalizing n with
    | nil => rfl
    | cons d ds ih =>
      rw [List.foldl_cons, List.foldl_cons, ← ih]
      congr 1
      omega
  simpa [boundedValue, digitsValue] using step 0

/-- The integer that the whole text is a numeral of: digits behind at most one sign. None for other
texts, and for integers of more than 64 bits. -/
def readInt? (cs : List Char) : Option Int64 :=
  let (negative, ds) := splitSign cs
  if ds.isEmpty || !ds.all Char.isDigit then none
  else
    let m := boundedValue UInt64.size ds
    let n : Int := if negative then -(m : Int) else m
    if Int64.minValue.toInt ≤ n ∧ n ≤ Int64.maxValue.toInt then some (Int64.ofInt n) else none

/-- The longest text at the head of `cs` that is a sign with digits behind it; either may be
absent. -/
def intHead (cs : List Char) : List Char :=
  match cs with
  | '-' :: ds => '-' :: ds.takeWhile Char.isDigit
  | '+' :: ds => '+' :: ds.takeWhile Char.isDigit
  | ds => ds.takeWhile Char.isDigit

/-- The integer that a text starts with, behind blanks; zero if there is none of 64 bits. -/
def leadingInt (s : String) : Int64 := (readInt? (intHead (trimStart s.toList))).getD 0

/-! ## Doubles -/

/-- The number with the digits `digits`, times `10 ^ exponent`. -/
structure Numeral where
  digits : List Char
  exponent : Int

/-- The double nearest to `n * 10 ^ e`. -/
def ofScientific (n : Nat) (e : Int) : Float := Float.ofScientific n (e < 0) e.natAbs

/-- More digits than any number has that lies half way between two doubles. Of the digits behind
them it only matters whether one is not zero. -/
def decidingDigits : Nat := 800

/-- The double nearest to a numeral. What is too small or too large for a double is decided by the
place of its first digit. -/
def Numeral.toDouble (n : Numeral) : Float :=
  let ds := n.digits.dropWhile (· == '0')
  let top := n.exponent + ds.length
  if ds.isEmpty ∨ top < -330 then 0
  else if 310 < top then infinity
  else
    let value := digitsValue (ds.take decidingDigits)
    let behind := ds.drop decidingDigits
    let e := n.exponent + behind.length
    if behind.all (· == '0') then ofScientific value e else ofScientific (10 * value + 1) (e - 1)

/-- Where the digits of an exponent stop to count. -/
def exponentLimit : Nat := 65536

/-- The exponent that digits stand for. Once it has come to `exponentLimit`, the digits that follow
are passed over. -/
def exponentValue (ds : List Char) : Nat :=
  ds.foldl (fun n d => if n < exponentLimit then 10 * n + digitValue d else n) 0

/-- The exponent at the head of a text, and what is behind it: the letter `e`, a sign or none, and
digits. If there is none, it is zero and nothing is taken. -/
def takeExponent : List Char → Int × List Char
  | [] => (0, [])
  | c :: cs =>
    let (negative, behind) := splitSign cs
    let ds := behind.takeWhile Char.isDigit
    if (c = 'e' ∨ c = 'E') ∧ ds ≠ [] then
      let n := exponentValue ds
      (if negative then -(n : Int) else n, behind.dropWhile Char.isDigit)
    else (0, c :: cs)

/-- The longest numeral without a sign at the head of a text, and what is behind it: digits with a
point among them or none, and an exponent or none. A digit must stand before or behind the point. -/
def takeNumeral? (cs : List Char) : Option (Numeral × List Char) :=
  let whole := cs.takeWhile Char.isDigit
  let (part, rest) := match cs.dropWhile Char.isDigit with
    | '.' :: r => (r.takeWhile Char.isDigit, r.dropWhile Char.isDigit)
    | r => ([], r)
  if whole.isEmpty && part.isEmpty then none
  else
    let (k, rest) := takeExponent rest
    some (⟨whole ++ part, k - part.length⟩, rest)

/-- What is behind `name` at the head of a text, letters in any case. -/
def dropName? (name : String) (cs : List Char) : Option (List Char) :=
  if (cs.take name.length).map Char.toLower = name.toList then some (cs.drop name.length) else none

/-- The longest name of a double at the head of a text, and what is behind it. -/
def takeName? (cs : List Char) : Option (Float × List Char) :=
  match dropName? "infinity" cs, dropName? "inf" cs, dropName? "nan" cs with
  | some rest, _, _ => some (infinity, rest)
  | none, some rest, _ => some (infinity, rest)
  | none, none, some rest => some (notANumber, rest)
  | none, none, none => none

/-- The double at the head of a text, read from as many characters as possible, and what is behind
it. -/
def takeDouble? (cs : List Char) : Option (Float × List Char) :=
  let (negative, ds) := splitSign cs
  let unsigned := match takeNumeral? ds with
    | some (n, rest) => some (n.toDouble, rest)
    | none => takeName? ds
  unsigned.map fun (x, rest) => (if negative then -x else x, rest)

/-- The double that the whole text is a numeral or a name of. -/
def readDouble? (cs : List Char) : Option Float :=
  match takeDouble? cs with
  | some (x, []) => some x
  | _ => none

/-- The double that a text starts with, behind blanks; zero if there is none. -/
def leadingDouble (s : String) : Float := ((takeDouble? (trimStart s.toList)).map Prod.fst).getD 0

end Stacklet.Number
