/-!
# Decimal digits

* `digitCount`, `digitsValue`: the length of a numeral, and the number that digits stand for.
* `decimal`: the numeral of an integer.
* `roundHalfEven`: a quotient rounded to the nearest integer, a half to the even neighbour.
* `decimalExponent`: the position of the first digit of a positive quotient.
* `placePoint`, `joinPoint`: digits around a point, without zeros at the end.
-/

namespace Stacklet.Number

/-- The number of decimal digits of `n`. -/
def digitCount (n : Nat) : Nat :=
  if n < 10 then 1 else digitCount (n / 10) + 1
termination_by n
decreasing_by omega

/-- The value of the digit `c`. -/
def digitValue (c : Char) : Nat := c.toNat - '0'.toNat

/-- The number that the digits `ds` stand for. -/
def digitsValue (ds : List Char) : Nat := ds.foldl (fun n d => 10 * n + digitValue d) 0

/-- The digits of `n`, at least one. -/
def digits (n : Nat) : List Char := Nat.toDigits 10 n

/-- The numeral of an integer: digits, behind a minus sign if it is negative. -/
def decimal : Int → String
  | .ofNat n => String.ofList (digits n)
  | .negSucc n => String.ofList ('-' :: digits (n + 1))

/-- `num / den` rounded to the nearest integer; a half goes to the even neighbour. -/
def roundHalfEven (num den : Nat) : Nat :=
  let q := num / den
  let twice := 2 * (num % den)
  if twice < den then q
  else if den < twice then q + 1
  else q + q % 2

/-- A quotient of two numbers. -/
structure Ratio where
  num : Nat
  den : Nat

namespace Ratio

/-- The quotient times `10 ^ k`. -/
def scale (r : Ratio) : Int → Ratio
  | .ofNat k => ⟨r.num * Nat.pow 10 k, r.den⟩
  | .negSucc k => ⟨r.num, r.den * Nat.pow 10 (k + 1)⟩

/-- The exponent `e` with `10 ^ e ≤ r < 10 ^ (e + 1)`, for a positive quotient. -/
def decimalExponent (r : Ratio) : Int :=
  if r.den ≤ r.num then (digitCount (r.num / r.den) : Int) - 1
  else -(digitCount ((r.den - 1) / r.num) : Int)

end Ratio

/-- Digits with a point behind the digit of weight one: the digits before and behind the point. The
first of `ds` has weight `10 ^ e`. -/
def placePoint (ds : List Char) : Int → List Char × List Char
  | .ofNat e => ((ds ++ List.replicate (e + 1 - ds.length) '0').take (e + 1), ds.drop (e + 1))
  | .negSucc e => (['0'], List.replicate e '0' ++ ds)

/-- A text without the characters `c` that it ends in. -/
def trimEnd (c : Char) (cs : List Char) : List Char := (cs.reverse.dropWhile (· == c)).reverse

/-- Digits before and behind a point as text. Zeros at the end of the fraction are not written, and
neither is the point if nothing is left behind it. -/
def joinPoint (whole part : List Char) : List Char :=
  match trimEnd '0' part with
  | [] => whole
  | ds => whole ++ '.' :: ds

/-- Text behind a minus sign if `negative`. -/
def withSign (negative : Bool) (cs : List Char) : List Char := if negative then '-' :: cs else cs

def signed (negative : Bool) (cs : List Char) : String := String.ofList (withSign negative cs)

end Stacklet.Number
