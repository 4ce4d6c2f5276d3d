import Stacklet.Machine.Input
import Stacklet.Machine.Sink
/-!
# Around the machine

* `Clock`: what a clock shows each time it is read, and when the run started.
* `World`: input, output and clock.
-/

namespace Stacklet

/-- A clock, in nanoseconds. It is read time after time and shows the numbers of `readings`, which
may be any. -/
structure Clock where
  readings : Nat → Nat := fun _ => 0
  started : Nat := 0

namespace Clock

/-- The time since the start, by the next reading. -/
def elapsed (c : Clock) : Nat := c.readings 0 - c.started

/-- The clock behind its next reading. -/
def tick (c : Clock) : Clock := { c with readings := fun n => c.readings (n + 1) }

/-- The clock behind its next reading, which is the start of a run. -/
def restart (c : Clock) : Clock := { c.tick with started := c.readings 0 }

end Clock

/-- What a machine reads from and writes to. -/
structure World where
  input : Input
  sink : Sink
  clock : Clock := {}

end Stacklet
