/-!
# What the compiler reports of its work

The events that a compilation passes through, in order. They are written as log records elsewhere.
-/

namespace ScriptPir

/-- An event of a compilation. -/
inductive Notice where
  | phaseStarted (phase source : String)
  | phaseCompleted (phase source : String)
  | semanticError (line : Int) (message : String)
  | functionStored (name : String) (line : Int) (replaced : Bool)
  | callSkipped (name : String)
  | outputWritten (path : String) (bytes : Nat)
deriving DecidableEq, Repr

end ScriptPir
