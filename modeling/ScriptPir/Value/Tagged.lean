import ScriptPir.Value.Fold
import ScriptPir.Violation

/-!
# Values by code

A value given from outside names its kind by a code, and the code may be that of no kind. Such a
value counts as a constant, but it takes part in no operation and cannot be written.
-/

namespace ScriptPir

/-- A value whose kind is given by a code. -/
inductive Tagged where
  | known (v : Value)
  | unknown (code : Int)
deriving Repr

namespace Tagged

/-- The kind of a value. -/
def kind : Tagged → ValueKind
  | known v => v.kind
  | unknown code => .unknown code

/-- Whether a value counts as a constant. -/
def isStatic : Tagged → Bool
  | known v => v.isStatic
  | unknown _ => true

/-- The class of a variable whose first value this is. -/
def cls : Tagged → Class
  | known v => v.cls
  | unknown _ => .integer

/-- A value as an operand of the target code. -/
def render : Tagged → Except Violation String
  | known v => .ok v.render
  | unknown code => .error (.invalidValue (.unknown code))

/-- Combines two values by an arithmetic operator. -/
def fold (op : String) : Tagged → Tagged → Except FoldError Value
  | known l, known r => ScriptPir.fold op l r
  | l, r => .error (.unsupported op l.kind r.kind)

/-- Negates a value. -/
def neg : Tagged → Except FoldError Value
  | known v => foldNeg v
  | unknown code => .error (.unsupportedNeg (.unknown code))

end Tagged

end ScriptPir
