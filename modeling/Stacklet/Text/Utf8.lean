/-!
# Reading bytes as UTF-8

* `Utf8.pieces`: cuts bytes into characters and ill-formed pieces. An ill-formed piece is the
  longest start of some character that stands there, or a single byte that starts none.
* `Utf8.decode?`: the text of well-formed bytes.
* `Utf8.decodeLossy`: the text with `U+FFFD` in the place of each ill-formed piece.
-/

namespace Stacklet.Utf8

/-- The bytes that may follow the first byte `a` of a character, in order, each as a range; none if
no character starts with `a`. -/
def tails? (a : UInt8) : Option (List (UInt8 × UInt8)) :=
  if a < 0x80 then some []
  else if a < 0xc2 then none
  else if a < 0xe0 then some [(0x80, 0xbf)]
  else if a = 0xe0 then some [(0xa0, 0xbf), (0x80, 0xbf)]
  else if a = 0xed then some [(0x80, 0x9f), (0x80, 0xbf)]
  else if a < 0xf0 then some [(0x80, 0xbf), (0x80, 0xbf)]
  else if a = 0xf0 then some [(0x90, 0xbf), (0x80, 0xbf), (0x80, 0xbf)]
  else if a < 0xf4 then some [(0x80, 0xbf), (0x80, 0xbf), (0x80, 0xbf)]
  else if a = 0xf4 then some [(0x80, 0x8f), (0x80, 0xbf), (0x80, 0xbf)]
  else none

/-- The longest start of `bytes` that fits the ranges. -/
def fitting : List (UInt8 × UInt8) → List UInt8 → List UInt8
  | (lo, hi) :: ranges, b :: bytes => if lo ≤ b ∧ b ≤ hi then b :: fitting ranges bytes else []
  | _, _ => []

/-- The value bits of the first byte of a character with `n` further bytes. -/
def leadBits (a : UInt8) : Nat → Nat
  | 0 => a.toNat
  | n + 1 => a.toNat % (1 <<< (5 - n))

/-- The character with first byte `a` and further bytes `bs`. -/
def assemble (a : UInt8) (bs : List UInt8) : Char :=
  Char.ofNat (bs.foldl (fun v b => v * 64 + b.toNat % 64) (leadBits a bs.length))

/-- The characters of `bytes`, with `none` for each ill-formed piece. -/
def pieces : List UInt8 → List (Option Char)
  | [] => []
  | a :: bytes =>
    match tails? a with
    | none => none :: pieces bytes
    | some ranges =>
      let bs := fitting ranges bytes
      (if bs.length = ranges.length then some (assemble a bs) else none) ::
        pieces (bytes.drop bs.length)
termination_by bytes => bytes.length
decreasing_by all_goals grind

/-- The text of well-formed bytes; none if a piece of them is ill-formed. -/
def decode? (bytes : List UInt8) : Option String :=
  ((pieces bytes).mapM id).map String.ofList

/-- The text of any bytes, with `U+FFFD` for each ill-formed piece. -/
def decodeLossy (bytes : List UInt8) : String :=
  String.ofList ((pieces bytes).map fun p => p.getD '�')

end Stacklet.Utf8
