import Stacklet.Text.Blank
import Stacklet.Token
/-!
# Cutting a source text into tokens

* `Lexeme.ofHead`: the lexeme at the head of a text that starts with no blank. Words and numbers are
  as long as possible, and every character starts some lexeme, so cutting never fails.
* `Cursor.scan`: the next token of a text and what is left behind it.
* `Cursor.tokens`, `Token.scan`: all tokens, the last of them the end of the input.
-/

namespace Stacklet

/-- Whether a word may start with `c`. -/
def isLetter (c : Char) : Bool := c.isAlpha || c == '_'

/-- Whether a word may go on with `c`. -/
def isWordChar (c : Char) : Bool := isLetter c || c.isDigit

/-- A lexeme cut off a text: the kind and text of its token, how it is written, and what follows. -/
structure Lexeme where
  kind : Token.Kind
  text : String
  written : List Char
  rest : List Char

namespace Lexeme

/-- A word: a keyword if it is spelled like one, a name otherwise. -/
def word (cs : List Char) : Lexeme :=
  let w := cs.takeWhile isWordChar
  let text := String.ofList w
  { kind := match Keyword.ofSpelling? text with
      | some k => .keyword k
      | none => .name
    text, written := w, rest := cs.dropWhile isWordChar }

/-- The point and the digits behind it, if a digit follows the point. -/
def fraction : List Char → List Char
  | '.' :: d :: cs => if d.isDigit then '.' :: d :: cs.takeWhile Char.isDigit else []
  | _ => []

/-- A number: digits, and a fraction if there is one. -/
def number (cs : List Char) : Lexeme :=
  let whole := cs.takeWhile Char.isDigit
  let behind := cs.dropWhile Char.isDigit
  let w := whole ++ fraction behind
  { kind := .number, text := String.ofList w, written := w
    rest := behind.drop (fraction behind).length }

/-- A string literal, given the text behind its opening quote. It ends at the next quote, or else at
the end of the text, and a backslash means itself. -/
def string (cs : List Char) : Lexeme :=
  let inside := cs.takeWhile (· != '"')
  let behind := cs.dropWhile (· != '"')
  { kind := .string, text := String.ofList inside
    written := '"' :: (inside ++ behind.take 1), rest := behind.drop 1 }

/-- A sign, or the single character that starts nothing else. -/
def sign (c : Char) (cs : List Char) : Lexeme :=
  match Symbol.ofHead? (c :: cs) with
  | some s =>
    { kind := .symbol s, text := s.spelling, written := s.chars,
      rest := (c :: cs).drop s.chars.length }
  | none => { kind := .unknown, text := String.ofList [c], written := [c], rest := cs }

/-- The lexeme at the head of the text `c :: cs`. -/
def ofHead (c : Char) (cs : List Char) : Lexeme :=
  if isLetter c then word (c :: cs)
  else if c.isDigit then number (c :: cs)
  else if c = '"' then string cs
  else sign c cs

theorem length_dropWhile_le {α : Type} (p : α → Bool) (l : List α) :
    (l.dropWhile p).length ≤ l.length :=
  (List.dropWhile_sublist p).length_le

theorem chars_ne_nil (s : Symbol) : s.chars ≠ [] := by cases s <;> simp [Symbol.chars]

theorem ofHead_kind_ne (c : Char) (cs : List Char) : (ofHead c cs).kind ≠ .endOfInput := by
  unfold ofHead
  split
  · simp only [word]; split <;> simp
  · split
    · simp [number]
    · split
      · simp [string]
      · unfold sign; split <;> simp

theorem length_rest_ofHead_lt (c : Char) (cs : List Char) :
    (ofHead c cs).rest.length < (c :: cs).length := by
  unfold ofHead
  split
  · next h =>
    have := length_dropWhile_le isWordChar cs
    have hc : isWordChar c = true := by simp [isWordChar, h]
    simp [word, hc]; omega
  · split
    · next h =>
      have := length_dropWhile_le Char.isDigit cs
      simp [number, h]; omega
    · split
      · have := length_dropWhile_le (· != '"') cs
        simp [string]; omega
      · unfold sign
        split
        · next s _ =>
          have := List.length_pos_iff.mpr (chars_ne_nil s)
          simp; omega
        · simp

end Lexeme

/-- What is left of a source text, and the place where it starts. -/
structure Cursor where
  rest : List Char
  loc : Loc

namespace Cursor

/-- The beginning of a source text. -/
def ofSource (source : String) : Cursor := ⟨source.toList, .start⟩

/-- The end of the source text. -/
def finish (c : Cursor) : Cursor := ⟨[], c.loc.after c.rest⟩

/-- The cursor behind the blanks that it stands before. -/
def skipBlanks (c : Cursor) : Cursor :=
  ⟨c.rest.dropWhile isBlank, c.loc.after (c.rest.takeWhile isBlank)⟩

/-- The next token and the cursor behind it. At the end this is the end of the input, again and
again. -/
def scan (c : Cursor) : Token × Cursor :=
  let c := c.skipBlanks
  match c.rest with
  | [] => (⟨.endOfInput, "", c.loc⟩, c)
  | h :: t =>
    let x := Lexeme.ofHead h t
    (⟨x.kind, x.text, c.loc⟩, ⟨x.rest, c.loc.after x.written⟩)

theorem length_rest_scan_lt (c : Cursor) (h : c.scan.1.kind ≠ .endOfInput) :
    c.scan.2.rest.length < c.rest.length := by
  have hle := Lexeme.length_dropWhile_le isBlank c.rest
  unfold scan at h ⊢
  simp only [skipBlanks] at h ⊢
  split at h
  · simp at h
  · next a t ht =>
    rw [ht] at hle
    have := Lexeme.length_rest_ofHead_lt a t
    simp only
    omega

/-- All tokens from the cursor on. The last one, and no other, is the end of the input. -/
def tokens (c : Cursor) : List Token :=
  if _h : c.scan.1.kind = .endOfInput then [c.scan.1] else c.scan.1 :: c.scan.2.tokens
termination_by c.rest.length
decreasing_by exact length_rest_scan_lt c _h

end Cursor

/-- The tokens of a source text. -/
def Token.scan (source : String) : List Token := (Cursor.ofSource source).tokens

theorem Token.scan_ofList (source : String) {cs : List Char} (h : source = .ofList cs) :
    scan source = Cursor.tokens ⟨cs, .start⟩ := by
  rw [h, scan, Cursor.ofSource, String.toList_ofList]

end Stacklet
