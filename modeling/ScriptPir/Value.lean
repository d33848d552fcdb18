import ScriptPir.Numeral.Binary64
import ScriptPir.Numeral.Decimal
import ScriptPir.Numeral.Word

/-!
# Operands

What is known of the value of an expression before the program runs: a constant, or the place that
will hold the value when it does. A value is written as an operand of the target code by `render`.
-/

namespace ScriptPir

/-- A register of a subroutine. -/
inductive Reg where
  /-- A register for objects. -/
  | object (n : Nat)
  /-- A register for truth values. -/
  | boolean (n : Nat)
deriving DecidableEq, Repr, Inhabited

/-- The name of a register. -/
def Reg.render : Reg → String
  | object n => "$P" ++ Numeral.ofNat n
  | boolean n => "$I" ++ Numeral.ofNat n

/-- A place that holds a value at run time. -/
inductive Ref where
  /-- A variable. -/
  | name (x : String)
  | reg (r : Reg)
  /-- An element of an array at a constant index. -/
  | elementAt (array : String) (index : Int64)
  /-- An element of an array at an index that is itself held somewhere. -/
  | elementBy (array : String) (index : Ref)
deriving DecidableEq, Repr, Inhabited

/-- A place as an operand. -/
def Ref.render : Ref → String
  | name x => x
  | reg r => r.render
  | elementAt array i => array ++ "[" ++ Numeral.ofInt i.toInt ++ "]"
  | elementBy array i => array ++ "[" ++ i.render ++ "]"

/-- A class of the run time. -/
inductive Class where
  | integer
  | double
  | string
  | array
deriving DecidableEq, Repr, Inhabited

/-- The name of a class. -/
def Class.name : Class → String
  | integer => "Integer"
  | double => "Double"
  | string => "String"
  | array => "ResizablePMCArray"

/-- The kind of a value. A kind is also known by a code, which may be that of no value. -/
inductive ValueKind where
  | integer
  | float
  | string
  | dynamic
  | unknown (code : Int)
deriving DecidableEq, Repr, Inhabited

namespace ValueKind

/-- The kind with a given code. -/
def ofCode : Int → ValueKind
  | 0 => integer
  | 1 => float
  | 2 => string
  | 3 => dynamic
  | code => unknown code

/-- The name of a kind. -/
def name : ValueKind → String
  | integer => "Integer"
  | float => "Float"
  | string => "String"
  | dynamic => "Dynamic"
  | unknown code => "ValueKind(" ++ Numeral.ofWord (Int64.ofInt code) ++ ")"

end ValueKind

/-- What is known of the value of an expression. -/
inductive Value where
  | int (n : Int64)
  | float (x : Float)
  /-- A string, as it stands between the quotes of the target code. -/
  | str (s : String)
  /-- A value known only at run time, by the place that holds it. -/
  | dynamic (place : Ref)
deriving Repr, Inhabited

namespace Value

/-- The kind of a value. -/
def kind : Value → ValueKind
  | int _ => .integer
  | float _ => .float
  | str _ => .string
  | dynamic _ => .dynamic

/-- Whether a value is a constant. -/
def isStatic : Value → Bool
  | dynamic _ => false
  | _ => true

/-- A value as an operand of the target code. -/
def render : Value → String
  | int n => Numeral.ofInt n.toInt
  | float x => Numeral.ofFloat x
  | str s => "\"" ++ s ++ "\""
  | dynamic place => place.render

/-- The class of a variable whose first value this is. Values of the run time morph an integer. -/
def cls : Value → Class
  | float _ => .double
  | str _ => .string
  | int _ | dynamic _ => .integer

/-- The text of a string; other constants have none. -/
def text : Value → String
  | str s => s
  | dynamic place => place.render
  | int _ | float _ => ""

end Value

end ScriptPir
