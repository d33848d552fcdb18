import ScriptPir.Token
import ScriptPir.Tree.Kind

/-!
# Operators

How binary operators bind. A lower precedence binds tighter.
-/

namespace ScriptPir

/-- How a binary operator is parsed. -/
structure Operator where
  /-- The kind of node it builds. -/
  kind : Kind
  /-- Its precedence; lower binds tighter. -/
  prec : Nat
  /-- Whether it groups to the right. -/
  right : Bool := false
deriving DecidableEq, Repr

namespace Operator

/-- The binary operators. -/
def table : List (String × Operator) :=
  [("**", ⟨.binary, 1, true⟩),
    ("%", ⟨.binary, 2, false⟩), ("*", ⟨.binary, 2, false⟩), ("/", ⟨.binary, 2, false⟩),
    ("+", ⟨.binary, 3, false⟩), ("-", ⟨.binary, 3, false⟩),
    ("<", ⟨.compare, 5, false⟩), ("<=", ⟨.compare, 5, false⟩),
    (">", ⟨.compare, 5, false⟩), (">=", ⟨.compare, 5, false⟩),
    ("!=", ⟨.compare, 6, false⟩), ("==", ⟨.compare, 6, false⟩),
    ("&", ⟨.logic, 7, false⟩), ("|", ⟨.logic, 9, false⟩),
    ("&&", ⟨.logic, 10, false⟩), ("and", ⟨.logic, 10, false⟩),
    ("||", ⟨.logic, 11, false⟩), ("or", ⟨.logic, 11, false⟩)]

/-- A precedence that no operator exceeds. -/
def loosest : Nat := 11

/-- The loosest precedence that may stand in the right operand without brackets. -/
def limit (op : Operator) : Nat := if op.right then op.prec else op.prec - 1

/-- The binary operator that a token is. -/
def ofToken? (t : Token) : Option Operator :=
  if t.kind = .op ∨ t.kind = .ident then (table.find? (·.1 = t.text)).map (·.2) else none

/-- The assignment operators. -/
def assigns : List String := ["=", "+=", "-=", "*=", "/=", "%=", "**="]

end Operator

/-- Whether a token is an assignment operator. -/
def Token.isAssign (t : Token) : Bool := t.kind = .op && t.text ∈ Operator.assigns

end ScriptPir
