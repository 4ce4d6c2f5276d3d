/-!
# Faults

* `StreamError`: what can go wrong with the input and the output of a run.
* `Fault`: why a run stops before its end. `Fault.message` is the wording.
-/

namespace Stacklet

inductive StreamError where
  | inputFailed
  | invalidText
  | outputFull
  | flushFailed
  deriving DecidableEq, Repr

def StreamError.message : StreamError → String
  | inputFailed => "input failed"
  | invalidText => "stream did not contain valid UTF-8"
  | outputFull => "failed to write whole buffer"
  | flushFailed => "flush failed"

inductive Fault where
  | stackUnderflow
  | unknownLabel (name : String)
  | unknownFunction (name : String)
  | stream (e : StreamError)
  deriving DecidableEq, Repr

def Fault.message : Fault → String
  | stackUnderflow => "stack underflow"
  | unknownLabel name => "unknown label: " ++ name
  | unknownFunction name => "unknown function: " ++ name
  | stream e => "i/o error: " ++ e.message

end Stacklet
