import Stacklet.Tree.Expression
/-!
# Parsing statements and functions

    block       = "{" (statement | ";")* "}"
    declaration = type declarator ("," declarator)* ";"
    declarator  = name ["=" assignment] ["[" expression "]"]
    if          = "if" "(" expression ")" block ("else" "if" "(" expression ")" block)*
                  ["else" block]
    while       = "while" "(" expression ")" block
    do          = "do" block "while" "(" expression ")" ";"
    for         = "for" "(" (declaration | [expression] ";") [expression] ";" [expression] ")" block
    return      = "return" [expression] ";"
    statement   = block | declaration | if | while | do | for | return | ("break" | "continue") ";"
                | expression ";"
    function    = "fn" type name "(" [parameter ("," parameter)*] ")" block
    parameter   = type name ["[" "]"]
-/

namespace Stacklet.Parser

variable (r : Productions)

/-- Statements up to a closing brace or the end of input, in at most `n` rounds. Stray semicolons
are left out. -/
def statements : Nat → Parser (List Tree)
  | 0 => usedUp []
  | n + 1 => do
    let t ← peek
    if t.kind = .endOfInput ∨ t.kind = .symbol .closeBrace then
      return []
    else if ← accept (.symbol .semicolon) then
      statements n
    else
      let first ← r.statement
      return first :: (← statements n)

def block : Parser Tree := do
  let loc ← here
  expectSign .openBrace (.item "'\x7b'")
  let children ← statements r (r.bound + 1)
  expectSign .closeBrace (.item "'\x7d'")
  return { kind := .block, text := "Block", loc, children }

/-- A declared name. A size behind an initial value is an error, and the size is kept. -/
def declarator : Parser Tree := do
  let name ← expect .name (.item "variable name")
  let value ← if ← accept (.symbol .assign) then pure [← assignment r] else pure []
  if ← accept (.symbol .openBracket) then
    unless value.isEmpty do report .arrayInitializer
    let size ← expression r
    expectSign .closeBracket (.item "']'")
    return { kind := .declarator, text := name.text, isArray := true, loc := name.loc,
             children := [size] }
  else
    return { kind := .declarator, text := name.text, loc := name.loc, children := value }

def declaration : Parser Tree := do
  let loc ← here
  let type ← typeName (.item "type")
  let names ← commaSeparated r.bound (declarator r)
  expectSign .semicolon (.behind "';'" "variable list")
  return { kind := .declaration, text := "VarDeclList", loc, children := type :: names }

/-- The branches behind the first block of a conditional, in at most `n` rounds. -/
def elseBranches : Nat → Parser (List Tree)
  | 0 => usedUp []
  | n + 1 => do
    let loc ← here
    if ← accept (.keyword .elseKw) then
      if ← accept (.keyword .ifKw) then
        expectSign .openParen (.behind "'('" "else if")
        let condition ← expression r
        expectSign .closeParen (.behind "')'" "else if condition")
        let body ← block r
        let branch : Tree :=
          { kind := .elseIf, text := "ElseIf", loc, children := [condition, body] }
        return branch :: (← elseBranches n)
      else
        return [← block r]
    else
      return []

def conditional : Parser Tree := do
  let loc ← here
  expectWord .ifKw (.item "'if'")
  expectSign .openParen (.behind "'('" "if")
  let condition ← expression r
  expectSign .closeParen (.behind "')'" "if condition")
  let body ← block r
  let branches ← elseBranches r (r.bound + 1)
  return { kind := .conditional, text := "If", loc, children := condition :: body :: branches }

def whileLoop : Parser Tree := do
  let loc ← here
  expectWord .whileKw (.item "'while'")
  expectSign .openParen (.behind "'('" "while")
  let condition ← expression r
  expectSign .closeParen (.behind "')'" "while condition")
  let body ← block r
  return { kind := .whileLoop, text := "While", loc, children := [condition, body] }

def doWhile : Parser Tree := do
  let loc ← here
  expectWord .doKw (.item "'do'")
  let body ← block r
  expectWord .whileKw (.behind "'while'" "do-block")
  expectSign .openParen (.behind "'('" "while")
  let condition ← expression r
  expectSign .closeParen (.item "')'")
  expectSign .semicolon (.behind "';'" "do-while")
  return { kind := .doWhile, text := "DoWhile", loc, children := [body, condition] }

/-- The first part of the header of a `for` loop, with the semicolon behind it. -/
def forFirst : Parser Tree := do
  let t ← peek
  if t.kind.isType then
    declaration r
  else if ← accept (.symbol .semicolon) then
    return .omitted t.loc
  else
    let e ← expression r
    expectSign .semicolon (.behind "';'" "for-init expression")
    return { kind := .exprStmt, text := "ExprStmt", loc := t.loc, children := [e] }

/-- An expression that may be left out before the sign `s`, which stays. -/
def optionalBefore (s : Symbol) : Parser Tree := do
  let t ← peek
  if t.kind = .symbol s then return .omitted t.loc else expression r

def forLoop : Parser Tree := do
  let loc ← here
  expectWord .forKw (.item "'for'")
  expectSign .openParen (.behind "'('" "for")
  let first ← forFirst r
  let condition ← optionalBefore r .semicolon
  expectSign .semicolon (.behind "';'" "for condition")
  let step ← optionalBefore r .closeParen
  expectSign .closeParen (.behind "')'" "for header")
  let body ← block r
  return { kind := .forLoop, text := "For", loc, children := [first, condition, step, body] }

def returnStmt : Parser Tree := do
  let loc ← here
  expectWord .returnKw (.item "'return'")
  let value ← if (← peek).kind = .symbol .semicolon then pure [] else pure [← expression r]
  expectSign .semicolon (.behind "';'" "return")
  return { kind := .returnStmt, text := "Return", loc, children := value }

/-- A statement of one word and a semicolon. -/
def jump (kind : Tree.Kind) (text word : String) : Parser Tree := do
  let t ← advance
  expectSign .semicolon (.behind "';'" word)
  return { kind, text, loc := t.loc }

def exprStmt : Parser Tree := do
  let loc ← here
  let e ← expression r
  expectSign .semicolon (.behind "';'" "expression")
  return { kind := .exprStmt, text := "ExprStmt", loc, children := [e] }

/-- A statement; its first token tells which. -/
def statement : Parser Tree := do
  match (← peek).kind with
  | .symbol .openBrace => block r
  | .keyword .ifKw => conditional r
  | .keyword .whileKw => whileLoop r
  | .keyword .doKw => doWhile r
  | .keyword .forKw => forLoop r
  | .keyword .returnKw => returnStmt r
  | .keyword .breakKw => jump .breakStmt "Break" "break"
  | .keyword .continueKw => jump .continueStmt "Continue" "continue"
  | k => if k.isType then declaration r else exprStmt r

/-- A parameter stands where its type does. -/
def parameter : Parser Tree := do
  let type ← typeName (.item "argument type")
  let name ← expect .name (.item "argument name")
  let isArray ← accept (.symbol .openBracket)
  if isArray then expectSign .closeBracket (.item "']'")
  return { kind := .parameter, text := name.text, isArray, loc := type.loc, children := [type] }

/-- The parameters of a function behind the opening parenthesis. -/
def parameters : Parser (List Tree) := do
  if ← accept (.symbol .closeParen) then
    return []
  else
    let ps ← commaSeparated r.bound parameter
    expectSign .closeParen (.behind "')'" "arguments")
    return ps

def function : Parser Tree := do
  let loc ← here
  expectWord .fnKw (.item "'fn'")
  let type ← typeName (.behind "return type" "'fn'")
  let name ← expect .name (.item "function name")
  expectSign .openParen (.behind "'('" "function name")
  let ps ← parameters r
  let body ← block r
  return { kind := .function, text := name.text, loc, children := type :: (ps ++ [body]) }

end Stacklet.Parser
