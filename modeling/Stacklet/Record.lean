/-!
# Records of what was done

* `Record`: a line that a stage reports about its work, with its level and origin.
-/

namespace Stacklet

inductive Level where
  | debug | trace
  deriving DecidableEq, Repr

/-- The stage that reports: scanning, parsing, checking or lowering, a run, or all of them
together. -/
inductive Origin where
  | tokens | trees | typing | code | machine | pipeline
  deriving DecidableEq, Repr

structure Record where
  level : Level
  origin : Origin
  text : String
  deriving DecidableEq, Repr

end Stacklet
