/-!
# Functions

The functions that a program defines, and the calls it makes. Only functions that are called are
written out, each once, in the order of their first calls; a call of a function that is not defined
is left to the libraries.
-/

namespace ScriptPir

/-- A function: its name, its code and the line of its definition. -/
structure FunctionRecord (τ : Type) where
  name : String
  code : τ
  line : Int
deriving Repr, Inhabited

/-- The functions defined, in the order of their first definitions, and all callees in order. -/
structure Functions (τ : Type) where
  records : Array (FunctionRecord τ) := #[]
  calls : Array String := #[]
deriving Repr, Inhabited

namespace Functions

variable {τ : Type}

/-- The function of a given name. -/
def lookup? (f : Functions τ) (name : String) : Option (FunctionRecord τ) :=
  f.records.find? (·.name = name)

/-- Whether a function is defined. -/
def defined (f : Functions τ) (name : String) : Bool := f.records.any (·.name = name)

/-- Defines a function. A later definition takes the place of an earlier one. -/
def define (f : Functions τ) (r : FunctionRecord τ) : Functions τ :=
  if f.defined r.name then
    { f with records := f.records.map fun old => if old.name = r.name then r else old }
  else { f with records := f.records.push r }

/-- Notes a call. -/
def call (f : Functions τ) (name : String) : Functions τ := { f with calls := f.calls.push name }

/-- The functions to write out: those called, each once, in the order of their first calls. -/
def emitted (f : Functions τ) : List (FunctionRecord τ) :=
  f.calls.toList.eraseDups.filterMap f.lookup?

/-- The calls of functions that are not defined, in order. -/
def skipped (f : Functions τ) : List String := f.calls.toList.filter (!f.defined ·)

end Functions

/-- Functions as text, each after an empty line. -/
def renderFunctions {τ : Type} (render : FunctionRecord τ → String)
    (records : List (FunctionRecord τ)) : String :=
  records.foldl (fun s r => s ++ "\n" ++ render r) ""

end ScriptPir
