import ScriptPir.Numeral.Decimal
import ScriptPir.Value.Fold

/-!
# Semantic errors

Errors in what a program means. All of them are collected while the program is lowered, and reported
in the order of their lines.
-/

namespace ScriptPir

/-- What is wrong with a program. -/
inductive SemanticFault where
  /-- A variable is changed before it has a value. -/
  | undefinedVariable (name : String)
  /-- An operation on constants fails. -/
  | folding (error : FoldError)
deriving DecidableEq, Repr

/-- The text of a fault. -/
def SemanticFault.message : SemanticFault → String
  | undefinedVariable name => "Undefined variable " ++ name ++ "!"
  | folding error => error.message

/-- An error on a line. -/
structure SemanticError where
  line : Int
  message : String
deriving DecidableEq, Repr, Inhabited

/-- The text of an error. -/
def SemanticError.text (e : SemanticError) : String :=
  "line " ++ Numeral.ofInt e.line ++ ": " ++ e.message

/-- Errors in the order in which they were found, or sorted. -/
abbrev ErrorList := Array SemanticError

namespace ErrorList

/-- Appends an error. -/
def add (l : ErrorList) (line : Int) (message : String) : ErrorList := l.push ⟨line, message⟩

/-- Sorts by line; errors on one line keep their order. -/
def sort (l : ErrorList) : ErrorList :=
  (l.toList.mergeSort fun a b => a.line ≤ b.line).toArray

/-- Whether an error belongs before another. -/
def less? (l : ErrorList) (i j : Nat) : Option Bool := do
  return (← l[i]?).line < (← l[j]?).line

/-- Exchanges two errors. -/
def swap? (l : ErrorList) (i j : Nat) : Option ErrorList := do
  let a ← l[i]?
  let b ← l[j]?
  return (l.setIfInBounds i b).setIfInBounds j a

/-- All errors as text, one on a line. -/
def text (l : ErrorList) : String :=
  if l.isEmpty then "no errors" else "\n".intercalate (l.toList.map SemanticError.text)

end ErrorList

end ScriptPir
