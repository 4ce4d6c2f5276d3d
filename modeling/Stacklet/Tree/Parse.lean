import Stacklet.Tree.Statement
/-!
# Parsing programs

    program = (function | statement | ";")*

* `Productions.upTo`: the productions with recursion to a given depth. A recursive call follows a
  token that was taken, so a depth equal to the number of tokens is never used up. `stuck` records
  that it was.
* `Parser.program`: takes all tokens up to the end of input.
* `Tree.parse`: the tree of a list of tokens, and the errors in it.
-/

namespace Stacklet

namespace Productions

/-- The productions without any levels of recursion. To call them is an error. -/
def stuck : Productions :=
  let expression : Parser Tree := do Parser.usedUp (Parser.zero (← Parser.here))
  let statement : Parser Tree :=
    do Parser.usedUp { kind := .block, text := "Block", loc := ← Parser.here }
  ⟨0, expression, expression, expression, statement⟩

/-- The productions whose recursive calls are those of `r`. -/
def next (r : Productions) : Productions :=
  ⟨r.bound + 1, Parser.expression r, Parser.assignment r, Parser.unary r, Parser.statement r⟩

/-- The productions with `n` levels of recursion. -/
def upTo : Nat → Productions
  | 0 => stuck
  | n + 1 => (upTo n).next

end Productions

namespace Parser

/-- Functions and statements up to the end of input, in at most `n` rounds. Stray semicolons are
left out. -/
def items (r : Productions) : Nat → Parser (List Tree)
  | 0 => usedUp []
  | n + 1 => do
    let t ← peek
    if t.kind = .endOfInput then
      return []
    else if ← accept (.symbol .semicolon) then
      items r n
    else
      let first ← if t.kind = .keyword .fnKw then function r else statement r
      return first :: (← items r n)

def program : Parser Tree := do
  let n ← remaining
  let children ← items (Productions.upTo n) (n + 1)
  return { kind := .program, text := "Program", loc := .start, children }

end Parser

/-- The tree of a list of tokens, and the errors that were found on the way. -/
def Tree.parse (tokens : List Token) : Tree × Array (Located SyntaxError) :=
  let (t, s) := Parser.program.run (.ofTokens tokens)
  (t, s.errors)

end Stacklet
