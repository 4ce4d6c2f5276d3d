import Stacklet.Number.Digits
/-!
# Doubles as exact numbers

* `Shape`: what a double stands for: not a number, an infinity, or `± mantissa * 2 ^ exponent`.
* `truncate`: the integer part, clamped to 64 bits.
* `ofInt64`: the nearest double of an integer.
-/

namespace Stacklet.Number

/-- What a double stands for. -/
inductive Shape where
  | nan
  | infinite (negative : Bool)
  | finite (negative : Bool) (mantissa : Nat) (exponent : Int)
  deriving DecidableEq, Repr

/-- The least exponent of a finite double. -/
def leastExponent : Int := -1074

/-- The shape of the double with these 64 bits: sign, eleven exponent bits, 52 fraction bits. -/
def Shape.ofBits (bits : Nat) : Shape :=
  let negative := (bits >>> 63) % 2 == 1
  let field : Nat := (bits >>> 52) % (1 <<< 11)
  let part := bits % (1 <<< 52)
  if field = 2047 then if part = 0 then .infinite negative else .nan
  else if field = 0 then .finite negative part leastExponent
  else .finite negative ((1 <<< 52) + part) (leastExponent + (field : Int) - 1)

/-- What the double `x` stands for. -/
def shape (x : Float) : Shape := .ofBits x.toBits.toNat

/-- `mantissa * 2 ^ exponent` as a quotient. -/
def magnitude (mantissa : Nat) : Int → Ratio
  | .ofNat e => ⟨mantissa <<< e, 1⟩
  | .negSucc e => ⟨mantissa, 1 <<< (e + 1)⟩

/-- The double that is positive infinity. -/
def infinity : Float := Float.ofBits 0x7ff0000000000000

/-- A double that is not a number. -/
def notANumber : Float := Float.ofBits 0x7ff8000000000000

/-- The integer of 64 bits that is nearest to `n`. -/
def clamp (n : Int) : Int64 :=
  if n < Int64.minValue.toInt then Int64.minValue
  else if Int64.maxValue.toInt < n then Int64.maxValue
  else Int64.ofInt n

/-- The double without its fraction, clamped to 64 bits; zero for what is not a number. -/
def truncate (x : Float) : Int64 :=
  match shape x with
  | .nan => 0
  | .infinite negative => if negative then Int64.minValue else Int64.maxValue
  | .finite negative m e =>
    let r := magnitude m e
    let n : Int := r.num / r.den
    clamp (if negative then -n else n)

/-- The double nearest to an integer. -/
def ofInt64 (n : Int64) : Float := Float.ofInt n.toInt

end Stacklet.Number
