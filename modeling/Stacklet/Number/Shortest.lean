import Stacklet.Number.Double
/-!
# Doubles with as few digits as possible

* `shortestDigits`: the shortest decimal that is nearer to a given double than to any other; of two
  of the same length the one nearer to the double, and of two equally near the larger.
* `shortest`: that decimal written out without an exponent, as listings show doubles.
-/

namespace Stacklet.Number

/-- The numbers that a double `mantissa * 2 ^ exponent` is the nearest double of, as multiples of
`2 ^ (exponent - 2)`. The ends belong to it if the mantissa is even. Below a power of two doubles
lie twice as close. -/
structure Basin where
  lower : Nat
  upper : Nat
  closed : Bool

def Basin.ofMantissa (mantissa : Nat) : Basin :=
  ⟨4 * mantissa - (if mantissa = 1 <<< 52 then 1 else 2), 4 * mantissa + 2, mantissa % 2 == 0⟩

/-- The comparison of `a / b` with `c / d`, strict or not. -/
def below (closed : Bool) (a b c d : Nat) : Bool :=
  if closed then a * d ≤ c * b else a * d < c * b

/-- The best number of the form `n * 10 ^ k` in the basin of a double, if there is one. -/
def onGrid? (mantissa : Nat) (exponent k : Int) : Option Nat :=
  let b := Basin.ofMantissa mantissa
  let unit := (magnitude 1 (exponent - 2)).scale (-k)
  let value : Ratio := ⟨4 * mantissa * unit.num, unit.den⟩
  let n := value.num / value.den
  let down := below b.closed (b.lower * unit.num) unit.den n 1
  let up := below b.closed (n + 1) 1 (b.upper * unit.num) unit.den
  if down && up then some (if 2 * (value.num % value.den) < value.den then n else n + 1)
  else if down then some n
  else if up then some (n + 1)
  else none

/-- The digits of the shortest decimal for `mantissa * 2 ^ exponent`, a positive number, and the
exponent of the last of them. Seventeen digits always suffice. -/
def shortestDigits (mantissa : Nat) (exponent : Int) : Nat × Int :=
  let top := (magnitude mantissa exponent).decimalExponent
  let found := (List.range 17).findSome? fun (n : Nat) =>
    (onGrid? mantissa exponent (top - n)).map fun d => (d, top - (n : Int))
  found.getD (0, 0)

/-- The text of a double in listings. -/
def shortest (x : Float) : String :=
  match shape x with
  | .nan => "NaN"
  | .infinite negative => signed negative ['i', 'n', 'f']
  | .finite negative m e =>
    if m = 0 then signed negative ['0']
    else
      let (n, last) := shortestDigits m e
      let ds := digits n
      let (whole, part) := placePoint ds (last + ds.length - 1)
      signed negative (joinPoint whole part)

end Stacklet.Number
