import Stacklet.Machine.Fault
import Stacklet.Text.Utf8
/-!
# Input

* `Input`: the bytes that are still to be read, in the chunks in which they arrive, and whether
  reading on behind the last of them fails.
* `Input.readToken`: the next run of bytes without blanks.
* `Input.readText`: the rest of the line or, if that is empty, the next line.
-/

namespace Stacklet

abbrev Bytes := List UInt8

structure Input where
  chunks : List Bytes
  failing : Bool := false

namespace Input

/-- Bytes in chunks of one size, the last one perhaps shorter; all in one chunk if the size is
zero. -/
def cut (size : Nat) (bytes : Bytes) : List Bytes :=
  if _h : size = 0 ∨ bytes.drop size = [] then [bytes]
  else bytes.take size :: cut size (bytes.drop size)
termination_by bytes.length
decreasing_by
  rw [List.drop_eq_nil_iff] at _h
  grind

/-- The bytes that are left. -/
def unread (input : Input) : Bytes := input.chunks.flatten

/-- Space, tab, line feed, form feed and carriage return. -/
def isBlankByte (b : UInt8) : Bool := b == 0x20 || b == 0x09 || b == 0x0a || b == 0x0c || b == 0x0d

def isTokenByte (b : UInt8) : Bool := !isBlankByte b

/-- What was read, and whether reading ended before the last byte. -/
structure Taken where
  bytes : Bytes
  rest : List Bytes
  ended : Bool

/-- Reads on with a token of which some bytes were read. The blank behind it is left. -/
def takeToken (token : Bytes) : List Bytes → Taken
  | [] => ⟨token, [], false⟩
  | chunk :: chunks =>
    let behind := if token.isEmpty then chunk.dropWhile isBlankByte else chunk
    let token := token ++ behind.takeWhile isTokenByte
    match behind.dropWhile isTokenByte with
    | [] => takeToken token chunks
    | rest => ⟨token, rest :: chunks, true⟩

/-- Reads on with a line of which some bytes were read. Its line feed is read too. -/
def takeLine (line : Bytes) : List Bytes → Taken
  | [] => ⟨line, [], false⟩
  | chunk :: chunks =>
    let line := line ++ chunk.takeWhile (· != 0x0a)
    match chunk.dropWhile (· != 0x0a) with
    | [] => takeLine line chunks
    | feed :: rest => ⟨line ++ [feed], rest :: chunks, true⟩

/-- The bytes that were taken from an input, and what is left of it. Reading up to the end fails if
the input does. -/
def finish (input : Input) (t : Taken) : Except StreamError Bytes × Input :=
  (if input.failing && !t.ended then .error .inputFailed else .ok t.bytes,
    { input with chunks := t.rest })

/-- The next token, empty at the end of the input. -/
def readToken (input : Input) : Except StreamError String × Input :=
  let (r, rest) := input.finish (takeToken [] input.chunks)
  (r.map Utf8.decodeLossy, rest)

/-- A text without the line feed that it ends in and a carriage return before that. -/
def trimLineEnd (cs : List Char) : List Char :=
  match cs.reverse with
  | '\n' :: '\r' :: r => r.reverse
  | '\n' :: r => r.reverse
  | _ => cs

/-- The next line without its end, and whether any byte was read. -/
def readLine (input : Input) : Except StreamError (String × Bool) × Input :=
  let (r, rest) := input.finish (takeLine [] input.chunks)
  let line := do
    let bytes ← r
    match Utf8.decode? bytes with
    | some text => pure (String.ofList (trimLineEnd text.toList), !bytes.isEmpty)
    | none => throw StreamError.invalidText
  (line, rest)

/-- The rest of the line. If that is empty, as it is behind a number that was read, the next
line. -/
def readText (input : Input) : Except StreamError String × Input :=
  match input.readLine with
  | (.ok ("", true), rest) =>
    let (r, rest) := rest.readLine
    (r.map Prod.fst, rest)
  | (r, rest) => (r.map Prod.fst, rest)

end Input

end Stacklet
