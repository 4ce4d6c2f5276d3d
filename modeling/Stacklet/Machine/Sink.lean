import Stacklet.Machine.Fault
/-!
# Output

* `Sink`: where a run writes to. It may have room for so many bytes only, and take so many flushes
  only.
* `Sink.print`: writes a text and flushes.
-/

namespace Stacklet

structure Sink where
  written : ByteArray := .empty
  /-- The number of bytes that still fit, if that is limited. -/
  room : Option Nat := none
  /-- The number of flushes that still succeed, if that is limited. -/
  flushes : Option Nat := none

namespace Sink

/-- Writes bytes. If they do not fit, those that do are kept and the write fails. -/
def write (s : Sink) (bytes : ByteArray) : Except StreamError Unit × Sink :=
  match s.room with
  | none => (.ok (), { s with written := s.written ++ bytes })
  | some room =>
    if bytes.size ≤ room then
      (.ok (), { s with written := s.written ++ bytes, room := some (room - bytes.size) })
    else
      (.error .outputFull, { s with written := s.written ++ bytes.extract 0 room, room := some 0 })

def flush (s : Sink) : Except StreamError Unit × Sink :=
  match s.flushes with
  | none => (.ok (), s)
  | some 0 => (.error .flushFailed, s)
  | some (n + 1) => (.ok (), { s with flushes := some n })

/-- Writes a text and flushes if that succeeds. -/
def print (s : Sink) (text : String) : Except StreamError Unit × Sink :=
  match s.write text.toUTF8 with
  | (.ok (), s) => s.flush
  | failed => failed

end Sink

end Stacklet
