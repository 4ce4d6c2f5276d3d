import Stacklet.Tree.Parser
/-!
# Parsing expressions

The productions for expressions, tightest first:

    primary    = number | string | name | "(" expression ")"
    suffixed   = primary suffix*
    suffix     = "(" [assignment ("," assignment)*] ")" | "[" expression "]"
    unary      = ("+" | "-" | "!") unary | suffixed
    term       = unary (("*" | "/" | "%") unary)*
    additive   = term (("+" | "-") term)*
    relational = additive (("<" | "<=" | ">" | ">=") additive)*
    equality   = relational (("==" | "!=") relational)*
    assignment = equality ["=" assignment]
    expression = assignment ["," expression]

Suffixes follow names only, which may stand in parentheses.

* `Productions`: the productions that may be called again once a token has been taken, and a bound
  on the number of tokens left. Each parser here is written in terms of such a record, and recursion
  goes through it only.
-/

namespace Stacklet

/-- Parsers for what may be nested. They are to be used where at most `bound` tokens are left. -/
structure Productions where
  bound : Nat
  expression : Parser Tree
  assignment : Parser Tree
  unary : Parser Tree
  statement : Parser Tree

namespace Parser

variable (r : Productions)

/-- The tree of a single token. -/
def leaf (kind : Tree.Kind) (t : Token) : Tree := { kind, text := t.text, loc := t.loc }

/-- The expression that stands in for one that is missing at `loc`. -/
def zero (loc : Loc) : Tree := { kind := .number, text := "0", loc }

def primary : Parser Tree := do
  let t ← peek
  match t.kind with
  | .number =>
    let _ ← advance
    return leaf .number t
  | .string =>
    let _ ← advance
    return leaf .string t
  | .name =>
    let _ ← advance
    return leaf .identifier t
  | .symbol .openParen =>
    let _ ← advance
    let e ← r.expression
    expectSign .closeParen (.item "')'")
    return e
  | .endOfInput =>
    report .endInExpression
    return zero t.loc
  | _ =>
    report (.unexpected t.text)
    let _ ← advance
    return zero t.loc

/-- The arguments of a call behind its opening parenthesis. -/
def arguments : Parser (List Tree) := do
  if ← accept (.symbol .closeParen) then
    return []
  else
    let args ← commaSeparated r.bound r.assignment
    expectSign .closeParen (.item "')'")
    return args

/-- Calls and indices behind `base`, in at most `n` rounds. -/
def suffixes : Nat → Tree → Parser Tree
  | 0, base => usedUp base
  | n + 1, base => do
    if ← accept (.symbol .openParen) then
      let args ← arguments r
      suffixes n { kind := .call, text := "Call", loc := base.loc, children := base :: args }
    else if ← accept (.symbol .openBracket) then
      let i ← r.expression
      expectSign .closeBracket (.item "']'")
      suffixes n { kind := .index, text := "Index", loc := base.loc, children := [base, i] }
    else
      return base

/-- A primary expression. If it is a name, calls and indices may follow. -/
def suffixed : Parser Tree := do
  let base ← primary r
  if base.kind = .identifier then suffixes r (r.bound + 1) base else return base

def unary : Parser Tree := do
  let t ← peek
  match t.kind with
  | .symbol .plus | .symbol .minus | .symbol .bang =>
    let _ ← advance
    let operand ← r.unary
    return { kind := .unary, text := t.text, loc := t.loc, children := [operand] }
  | _ => suffixed r

/-- Whether a token is one of the operators `ops`. -/
def isOneOf (ops : List Symbol) : Token.Kind → Bool
  | .symbol s => ops.contains s
  | _ => false

/-- Operators of one level and their right operands behind `left`, in at most `n` rounds. -/
def operatorTail (ops : List Symbol) (operand : Parser Tree) : Nat → Tree → Parser Tree
  | 0, left => usedUp left
  | n + 1, left => do
    let t ← peek
    if isOneOf ops t.kind then
      let _ ← advance
      let right ← operand
      operatorTail ops operand n
        { kind := .binary, text := t.text, loc := left.loc, children := [left, right] }
    else
      return left

/-- A level of binary operators that group to the left. -/
def operatorLevel (ops : List Symbol) (operand : Parser Tree) : Parser Tree := do
  let left ← operand
  operatorTail ops operand (r.bound + 1) left

def term : Parser Tree := operatorLevel r [.star, .slash, .percent] (unary r)

def additive : Parser Tree := operatorLevel r [.plus, .minus] (term r)

def relational : Parser Tree := operatorLevel r [.lt, .le, .gt, .ge] (additive r)

def equality : Parser Tree := operatorLevel r [.eq, .ne] (relational r)

/-- Whether an expression of this kind may stand left of `=`. -/
def isTarget : Tree.Kind → Bool
  | .identifier | .index => true
  | _ => false

def assignment : Parser Tree := do
  let target ← equality r
  if ← accept (.symbol .assign) then
    unless isTarget target.kind do report .assignmentTarget
    let value ← r.assignment
    return { kind := .assign, text := "=", loc := target.loc, children := [target, value] }
  else
    return target

def expression : Parser Tree := do
  let left ← assignment r
  if ← accept (.symbol .comma) then
    let right ← r.expression
    return { kind := .comma, text := ",", loc := left.loc, children := [left, right] }
  else
    return left

end Parser

end Stacklet
