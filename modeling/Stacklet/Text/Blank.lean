/-!
# Blank characters

* `isBlank`: the characters with the Unicode property `White_Space`. They separate tokens, and
  numbers are read behind them.
-/

namespace Stacklet

/-- The ranges of code points with the property `White_Space`, both ends included. -/
def blankRanges : List (Nat × Nat) :=
  [(0x09, 0x0d), (0x20, 0x20), (0x85, 0x85), (0xa0, 0xa0), (0x1680, 0x1680), (0x2000, 0x200a),
    (0x2028, 0x2029), (0x202f, 0x202f), (0x205f, 0x205f), (0x3000, 0x3000)]

/-- Whether `c` is white space in the sense of Unicode. -/
def isBlank (c : Char) : Bool :=
  blankRanges.any fun r => r.1 ≤ c.toNat && c.toNat ≤ r.2

/-- The text behind the blanks that it starts with. -/
def trimStart (cs : List Char) : List Char := cs.dropWhile isBlank

end Stacklet
