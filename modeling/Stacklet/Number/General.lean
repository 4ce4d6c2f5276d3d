import Stacklet.Number.Read
import Stacklet.Number.Shortest
/-!
# Doubles with six significant digits

* `fixed`: a number with so many digits behind the point. `scientific`: a number with one digit
  before the point, and an exponent.
* `splitExponent?`: takes such a text apart. `trimFraction`: leaves out zeros at the end.
* `GeneralFormat`: the decisions of the format, `printed` those of this language.
* `general`: the text of a double. It is written with an exponent first. Unless that is very large
  or very small, it is written again, with as many digits behind the point as the exponent leaves.
-/

namespace Stacklet.Number

/-! ## Digits around a point -/

/-- Digits before and behind a point, which is only written if there are any behind it. -/
def pointed (whole part : List Char) : List Char :=
  if part.isEmpty then whole else whole ++ '.' :: part

/-- The quotient `r` with `decimals` digits behind the point, a half rounded to even. -/
def fixed (decimals : Nat) (r : Ratio) : List Char :=
  let s := r.scale decimals
  let ds := digits (roundHalfEven s.num s.den)
  let ds := List.replicate (decimals + 1 - ds.length) '0' ++ ds
  pointed (ds.take (ds.length - decimals)) (ds.drop (ds.length - decimals))

/-- A positive number rounded to significant digits: `digits` are those of `d.ddd`, to be multiplied
by `10 ^ exponent`. -/
structure Rounded where
  digits : Nat
  exponent : Int

/-- The positive quotient `r` rounded to `precision` digits, a half to even. -/
def Rounded.ofRatio (precision : Nat) (r : Ratio) : Rounded :=
  let e := r.decimalExponent
  let s := r.scale (precision - 1 - e)
  let n := roundHalfEven s.num s.den
  if n = Nat.pow 10 precision then ⟨Nat.pow 10 (precision - 1), e + 1⟩ else ⟨n, e⟩

/-- The positive quotient `r` with a digit before the point, `decimals` digits behind it, and the
exponent for that. -/
def scientific (decimals : Nat) (r : Ratio) : List Char :=
  let n := Rounded.ofRatio (decimals + 1) r
  let ds := digits n.digits
  pointed (ds.take 1) (ds.drop 1) ++ 'e' :: (decimal n.exponent).toList

/-! ## Texts -/

/-- What is before the first `e` of a text, and the integer of 32 bits behind it. -/
def splitExponent? (cs : List Char) : Option (List Char × Int) :=
  match cs.dropWhile (· != 'e') with
  | _ :: rest =>
    match readInt? rest with
    | some e =>
      if Int32.minValue.toInt ≤ e.toInt ∧ e.toInt ≤ Int32.maxValue.toInt then
        some (cs.takeWhile (· != 'e'), e.toInt)
      else none
    | none => none
  | [] => none

/-- A numeral without zeros at the end of its fraction, and without a point if nothing is left of
it. -/
def trimFraction (cs : List Char) : List Char :=
  if cs.contains '.' then trimEnd '.' (trimEnd '0' cs) else cs

/-- An exponent with its sign, padded with zeros to `width` digits. -/
def exponentText (width : Nat) (e : Int) : List Char :=
  let ds := digits e.natAbs
  (if e < 0 then '-' else '+') :: (List.replicate (width - ds.length) '0' ++ ds)

/-! ## Doubles -/

/-- How doubles are written with a fixed number of significant digits. -/
structure GeneralFormat where
  /-- The number of significant digits. -/
  precision : Nat
  /-- The least exponent that is written positionally. -/
  leastPositional : Int
  /-- The least number of digits of an exponent. -/
  exponentWidth : Nat

/-- Doubles are printed with six significant digits, positionally for exponents from -4 up to the
precision, and exponents have two digits or more. -/
def printed : GeneralFormat := ⟨6, -4, 2⟩

/-- The text of a double as it is printed. -/
def general (x : Float) : String :=
  match shape x with
  | .nan => "nan"
  | .infinite negative => signed negative ['i', 'n', 'f']
  | .finite negative m e =>
    if m = 0 then signed negative ['0']
    else
      let r := magnitude m e
      match splitExponent? (withSign negative (scientific (printed.precision - 1) r)) with
      | none => shortest x
      | some (mantissa, exponent) =>
        String.ofList <|
          if exponent < printed.leastPositional ∨ (printed.precision : Int) ≤ exponent then
            trimFraction mantissa ++ 'e' :: exponentText printed.exponentWidth exponent
          else
            trimFraction (withSign negative (fixed (printed.precision - 1 - exponent).toNat r))

end Stacklet.Number
