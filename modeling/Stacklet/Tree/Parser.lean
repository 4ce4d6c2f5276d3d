import Stacklet.Token
import Stacklet.Tree
import Stacklet.Tree.Error
/-!
# Reading tokens into trees

* `Parser`: computations that take tokens off a list and collect errors. They never fail: where
  something is missing, an error is recorded and a stand-in is returned.
* `Parser.expect`: takes a token of one kind, or else records an error and drops what stands there.
* `Parser.commaSeparated`: one or more items with commas between them.

Every round of a loop takes a token, so loops are given a bound on the number of tokens left. A
bound that is used up would be an error of its own.
-/

namespace Stacklet

/-- The tokens that are left, a stand-in for the end of input behind the last of them, and the
errors so far. -/
structure Parser.State where
  rest : List Token
  fallback : Token
  errors : Array (Located SyntaxError) := #[]

abbrev Parser := StateM Parser.State

namespace Parser

/-- The start of a list of tokens. The end of input stands where the last token does. -/
def State.ofTokens (tokens : List Token) : State :=
  { rest := tokens
    fallback := ⟨.endOfInput, "", (tokens.getLast?.map Token.loc).getD .start⟩ }

def State.peek (s : State) : Token := s.rest.headD s.fallback

/-- The next token, which stays. -/
def peek : Parser Token := return (← get).peek

/-- The place of the next token. -/
def here : Parser Loc := return (← peek).loc

/-- The number of tokens left. -/
def remaining : Parser Nat := return (← get).rest.length

/-- Takes the next token. -/
def advance : Parser Token := modifyGet fun s => (s.peek, { s with rest := s.rest.tail })

/-- Takes the next token if it has the kind `k`, and says whether it does. -/
def accept (k : Token.Kind) : Parser Bool := do
  if (← peek).kind = k then
    let _ ← advance
    return true
  else
    return false

/-- Records an error at the next token. -/
def report (e : SyntaxError) : Parser Unit :=
  modify fun s => { s with errors := s.errors.push ⟨s.peek.loc, e⟩ }

/-- The bound of a loop or of the recursion is used up: an error, and `a` is what there is so
far. -/
def usedUp {α : Type} (a : α) : Parser α := do
  report .unfinished
  return a

/-- Takes a token of kind `k`. If another stands there, that is an error and one token is dropped;
the stand-in that is returned has no text and stands where the dropped token did. At the end of
input nothing is dropped. -/
def expect (k : Token.Kind) (w : Wanted) : Parser Token := do
  let t ← peek
  if t.kind = k then
    advance
  else if t.kind = .endOfInput then
    report (.missing w)
    return (← get).fallback
  else
    report (.misplaced w t.text)
    let _ ← advance
    return ⟨.unknown, "", t.loc⟩

/-- Takes a sign. -/
def expectSign (s : Symbol) (w : Wanted) : Parser Unit := discard (expect (.symbol s) w)

/-- Takes a reserved word. -/
def expectWord (k : Keyword) (w : Wanted) : Parser Unit := discard (expect (.keyword k) w)

/-- The name of a type. If none stands there, that is an error and `int` is assumed; nothing is
dropped. -/
def typeName (w : Wanted) : Parser Tree := do
  let t ← peek
  if t.kind.isType then
    let _ ← advance
    return { kind := .typeName, text := t.text, loc := t.loc }
  else
    report (.missing w)
    return { kind := .typeName, text := "int", loc := t.loc }

/-- Items as long as each follows a comma, in at most `n` rounds. -/
def commaTail (item : Parser Tree) : Nat → Parser (List Tree)
  | 0 => usedUp []
  | n + 1 => do
    if ← accept (.symbol .comma) then
      let first ← item
      return first :: (← commaTail item n)
    else
      return []

/-- Items with commas between them, at least one and at most `n` more. -/
def commaSeparated (n : Nat) (item : Parser Tree) : Parser (List Tree) := do
  let first ← item
  return first :: (← commaTail item (n + 1))

end Parser

end Stacklet
