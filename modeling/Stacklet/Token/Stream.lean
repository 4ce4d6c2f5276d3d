import Stacklet.Token.Scan
/-!
# Reading tokens one at a time

* `Token.Stream`: a cursor with room for one token that was looked at and not yet taken.
* `Stream.peek`, `Stream.next`, `Stream.drain`: look at the next token, take it, take all that are
  left.
-/

namespace Stacklet.Token

/-- A source of tokens. The token in `buffered` stands before those of `cursor`. -/
structure Stream where
  cursor : Cursor
  buffered : Option Token

namespace Stream

def ofSource (source : String) : Stream := ⟨.ofSource source, none⟩

/-- The next token, which stays in the stream. -/
def peek (s : Stream) : Token × Stream :=
  match s.buffered with
  | some t => (t, s)
  | none => (s.cursor.scan.1, ⟨s.cursor.scan.2, some s.cursor.scan.1⟩)

/-- The next token, which leaves the stream. -/
def next (s : Stream) : Token × Stream :=
  match s.buffered with
  | some t => (t, ⟨s.cursor, none⟩)
  | none => (s.cursor.scan.1, ⟨s.cursor.scan.2, none⟩)

/-- All tokens up to the end of the input, which stays the only token left. -/
def drain (s : Stream) : List Token × Stream :=
  let ts := match s.buffered with
    | some t => if t.kind = .endOfInput then [t] else t :: s.cursor.tokens
    | none => s.cursor.tokens
  (ts, ⟨s.cursor.finish, none⟩)

end Stream

end Stacklet.Token
