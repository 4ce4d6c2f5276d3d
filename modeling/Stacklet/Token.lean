import Stacklet.Loc
/-!
# Tokens

* `Keyword`, `Symbol`: the words and signs of the language, each with its spelling.
* `Token.Kind`, `Token`: a kind, the text that carries the meaning, and a place. The text of a
  string literal stands without its quotes, and the end of the input has no text.
-/

namespace Stacklet

/-- The reserved words. -/
inductive Keyword where
  | fnKw | intKw | charKw | doubleKw | stringKw | ifKw | elseKw | whileKw | doKw | forKw | returnKw
  | breakKw | continueKw
  deriving DecidableEq, Repr

namespace Keyword

def all : List Keyword :=
  [fnKw, intKw, charKw, doubleKw, stringKw, ifKw, elseKw, whileKw, doKw, forKw, returnKw, breakKw,
    continueKw]

/-- How the word is written. -/
def spelling : Keyword → String
  | fnKw => "fn"
  | intKw => "int"
  | charKw => "char"
  | doubleKw => "double"
  | stringKw => "string"
  | ifKw => "if"
  | elseKw => "else"
  | whileKw => "while"
  | doKw => "do"
  | forKw => "for"
  | returnKw => "return"
  | breakKw => "break"
  | continueKw => "continue"

/-- The reserved word that is written `w`, letter for letter. -/
def ofSpelling? (w : String) : Option Keyword := all.find? fun k => k.spelling == w

/-- The name of the word in reports. -/
def label : Keyword → String
  | fnKw => "KW_FN"
  | intKw => "KW_INT"
  | charKw => "KW_CHAR"
  | doubleKw => "KW_DOUBLE"
  | stringKw => "KW_STRING"
  | ifKw => "KW_IF"
  | elseKw => "KW_ELSE"
  | whileKw => "KW_WHILE"
  | doKw => "KW_DO"
  | forKw => "KW_FOR"
  | returnKw => "KW_RETURN"
  | breakKw => "KW_BREAK"
  | continueKw => "KW_CONTINUE"

/-- Whether the word names a type. -/
def isType : Keyword → Bool
  | intKw | charKw | doubleKw | stringKw => true
  | _ => false

theorem mem_all (k : Keyword) : k ∈ all := by cases k <;> decide

end Keyword

/-- Operators, brackets and separators. -/
inductive Symbol where
  | plus | minus | star | slash | percent | bang | assign | eq | ne | lt | le | gt | ge | openParen
  | closeParen | openBrace | closeBrace | openBracket | closeBracket | semicolon | comma
  deriving DecidableEq, Repr

namespace Symbol

/-- The characters of the sign. -/
def chars : Symbol → List Char
  | plus => ['+']
  | minus => ['-']
  | star => ['*']
  | slash => ['/']
  | percent => ['%']
  | bang => ['!']
  | assign => ['=']
  | eq => ['=', '=']
  | ne => ['!', '=']
  | lt => ['<']
  | le => ['<', '=']
  | gt => ['>']
  | ge => ['>', '=']
  | openParen => ['(']
  | closeParen => [')']
  | openBrace => ['\x7b']
  | closeBrace => ['\x7d']
  | openBracket => ['[']
  | closeBracket => [']']
  | semicolon => [';']
  | comma => [',']

/-- How the sign is written. -/
def spelling (s : Symbol) : String := String.ofList s.chars

/-- The name of the sign in reports. -/
def label : Symbol → String
  | plus => "PLUS"
  | minus => "MINUS"
  | star => "STAR"
  | slash => "SLASH"
  | percent => "PERCENT"
  | bang => "BANG"
  | assign => "ASSIGN"
  | eq => "EQ"
  | ne => "NEQ"
  | lt => "LT"
  | le => "LE"
  | gt => "GT"
  | ge => "GE"
  | openParen => "LPAREN"
  | closeParen => "RPAREN"
  | openBrace => "LBRACE"
  | closeBrace => "RBRACE"
  | openBracket => "LBRACKET"
  | closeBracket => "RBRACKET"
  | semicolon => "SEMICOLON"
  | comma => "COMMA"

/-- The sign at the head of a text; where one sign starts another, the longer one that fits. -/
def ofHead? : List Char → Option Symbol
  | '=' :: '=' :: _ => some eq
  | '!' :: '=' :: _ => some ne
  | '<' :: '=' :: _ => some le
  | '>' :: '=' :: _ => some ge
  | '=' :: _ => some assign
  | '!' :: _ => some bang
  | '<' :: _ => some lt
  | '>' :: _ => some gt
  | '+' :: _ => some plus
  | '-' :: _ => some minus
  | '*' :: _ => some star
  | '/' :: _ => some slash
  | '%' :: _ => some percent
  | '(' :: _ => some openParen
  | ')' :: _ => some closeParen
  | '\x7b' :: _ => some openBrace
  | '\x7d' :: _ => some closeBrace
  | '[' :: _ => some openBracket
  | ']' :: _ => some closeBracket
  | ';' :: _ => some semicolon
  | ',' :: _ => some comma
  | _ => none

end Symbol

namespace Token

/-- The kinds of tokens. -/
inductive Kind where
  | keyword (k : Keyword)
  | name
  | number
  | string
  | symbol (s : Symbol)
  | endOfInput
  | unknown
  deriving DecidableEq, Repr

/-- The name of the kind in reports. -/
def Kind.label : Kind → String
  | keyword k => k.label
  | name => "IDENTIFIER"
  | number => "NUMBER"
  | string => "STRING_LITERAL"
  | symbol s => s.label
  | endOfInput => "EOF"
  | unknown => "UNKNOWN"

/-- Whether a token of this kind names a type. -/
def Kind.isType : Kind → Bool
  | keyword k => k.isType
  | _ => false

end Token

/-- A token. -/
structure Token where
  kind : Token.Kind
  text : String
  loc : Loc
  deriving DecidableEq, Repr

end Stacklet
