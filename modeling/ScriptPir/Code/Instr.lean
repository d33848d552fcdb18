import ScriptPir.Value

/-!
# Target code

The instructions of the target language and how they are laid out as lines of text: instructions are
indented, labels and directives are not. A *fragment* is a piece of a subroutine under assembly.
-/

namespace ScriptPir

/-- A jump target. Labels are numbered through the whole program. -/
structure Label where
  number : Nat
deriving DecidableEq, Repr, Inhabited

/-- The name of a label. -/
def Label.name (l : Label) : String := "label_" ++ Numeral.ofNat l.number

/-- A comparison or connective of truth values. -/
inductive BoolOp where
  | lt
  | le
  | gt
  | ge
  | eq
  | ne
  | and
  | or
  | bitAnd
  | bitOr
deriving DecidableEq, Repr, Inhabited

namespace BoolOp

/-- The name of the instruction that computes an operation. -/
def mnemonic : BoolOp → String
  | lt => "islt"
  | le => "isle"
  | gt => "isgt"
  | ge => "isge"
  | eq => "iseq"
  | ne => "isne"
  | and => "and"
  | or => "or"
  | bitAnd => "band"
  | bitOr => "bor"

/-- The operation an operator of the source stands for. -/
def ofText? : String → Option BoolOp
  | "<" => some lt
  | "<=" => some le
  | ">" => some gt
  | ">=" => some ge
  | "==" => some eq
  | "!=" => some ne
  | "&&" | "and" => some and
  | "||" | "or" => some or
  | "&" => some bitAnd
  | "|" => some bitOr
  | _ => none

end BoolOp

/-- An argument of a call, which may have a name. -/
structure Argument where
  value : Value
  name : Option String := none
deriving Repr, Inhabited

/-- An argument as it is written in a call. -/
def Argument.render (a : Argument) : String :=
  match a.name with
  | none => a.value.render
  | some name => a.value.render ++ " :named(\"" ++ name ++ "\")"

/-- An instruction. -/
inductive Instr where
  /-- Declares a variable. -/
  | declare (x : String)
  /-- Declares a parameter. -/
  | param (x : String)
  /-- Puts a new object of a class in a place. -/
  | construct (place : Ref) (cls : Class)
  /-- Assigns to a variable, by an assignment operator of the source. -/
  | assign (x : String) (op : String) (v : Value)
  /-- Raises a variable to a power. -/
  | assignPower (x : String) (v : Value)
  /-- Assigns to an element of an array. -/
  | store (target v : Value)
  | setGlobal (global : String) (v : Value)
  /-- Reads a global into a variable. -/
  | loadGlobal (x : String) (global : String)
  /-- Reads a global into a register. -/
  | getGlobal (r : Reg) (global : String)
  | neg (r : Reg) (v : Value)
  | not (r : Reg) (v : Value)
  /-- Arithmetic, by an operator of the source. -/
  | arith (r : Reg) (op : String) (a b : Value)
  | power (r : Reg) (a b : Value)
  /-- A comparison or connective. -/
  | test (r : Reg) (op : BoolOp) (a b : Value)
  /-- A call, whose result goes to a register or nowhere. -/
  | call (result : Option Reg) (callee : String) (args : List Argument)
  | jump (l : Label)
  /-- Jumps if a value is true, or false if negated. -/
  | branch (negated : Bool) (v : Value) (l : Label)
  | ret (v : Option Value)
  /-- A line of target code given in the source. -/
  | raw (text : String)
deriving Repr, Inhabited

/-- The text of an instruction. -/
def Instr.render : Instr → String
  | declare x => ".local pmc " ++ x
  | param x => ".param pmc " ++ x
  | construct place cls => place.render ++ " = new \"" ++ cls.name ++ "\""
  | assign x op v => x ++ " " ++ op ++ " " ++ v.render
  | assignPower x v => x ++ " = pow " ++ x ++ ", " ++ v.render
  | store target v => target.render ++ " = " ++ v.render
  | setGlobal global v => "set_global \"" ++ global ++ "\", " ++ v.render
  | loadGlobal x global => "get_global " ++ x ++ ", \"" ++ global ++ "\""
  | getGlobal r global => r.render ++ " = get_global \"" ++ global ++ "\""
  | neg r v => r.render ++ " = neg " ++ v.render
  | not r v => r.render ++ " = not " ++ v.render
  | arith r op a b => r.render ++ " = " ++ a.render ++ " " ++ op ++ " " ++ b.render
  | power r a b => r.render ++ " = pow " ++ a.render ++ ", " ++ b.render
  | test r op a b => r.render ++ " = " ++ op.mnemonic ++ " " ++ a.render ++ ", " ++ b.render
  | call result callee args =>
    (match result with | some r => r.render ++ " = " | none => "") ++
      callee ++ "(" ++ ", ".intercalate (args.map Argument.render) ++ ")"
  | jump l => "goto " ++ l.name
  | branch negated v l =>
    (if negated then "unless " else "if ") ++ v.render ++ " goto " ++ l.name
  | ret none => ".return()"
  | ret (some v) => ".return(" ++ v.render ++ ")"
  | raw text => text

namespace Layout

/-- An instruction on a line of its own. -/
def instruction (text : String) : String := "    " ++ text ++ "\n"

/-- A label on a line of its own. -/
def label (name : String) : String := name ++ ":\n"

/-- A directive on a line of its own. -/
def directive (text : String) : String := text ++ "\n"

end Layout

/-- A line of a subroutine. -/
inductive Line where
  | instr (i : Instr)
  | label (l : Label)
deriving Repr, Inhabited

/-- The text of a line. -/
def Line.render : Line → String
  | instr i => Layout.instruction i.render
  | label l => Layout.label l.name

/-- A piece of a subroutine. -/
abbrev Fragment := Array Line

/-- The text of a fragment. -/
def Fragment.render (f : Fragment) : String := f.foldl (fun s l => s ++ l.render) ""

/-- A subroutine as text. -/
def renderSub (name : String) (body : Fragment) : String :=
  Layout.directive (".sub " ++ name) ++ body.render ++ Layout.directive ".end"

end ScriptPir
