import ScriptPir.Value
import ScriptPir.Violation

/-!
# Scopes

The variables declared in the main program or in one function, in order, and the supply of truth
registers of its subroutine.
-/

namespace ScriptPir

/-- The variables of one subroutine. -/
structure Scope where
  names : Array String := #[]
  nextBool : Nat := 0
deriving DecidableEq, Repr, Inhabited

namespace Scope

/-- Whether a name has been declared. -/
def declared (s : Scope) (name : String) : Bool := s.names.contains name

/-- Declares a name, if it is new. -/
def declare (s : Scope) (name : String) : Scope :=
  if s.declared name then s else { s with names := s.names.push name }

/-- Takes a truth register. -/
def freshBool (s : Scope) : Reg × Scope :=
  (.boolean s.nextBool, { s with nextBool := s.nextBool + 1 })

end Scope

/-- The scopes around a place, innermost first. -/
structure Scopes where
  stack : List Scope := []
deriving Repr, Inhabited

namespace Scopes

/-- The number of scopes. -/
def depth (s : Scopes) : Nat := s.stack.length

/-- Enters a new scope. -/
def push (s : Scopes) : Scopes := ⟨{} :: s.stack⟩

/-- Leaves the innermost scope. -/
def pop (s : Scopes) : Except Violation (Scope × Scopes) :=
  match s.stack with
  | top :: below => .ok (top, ⟨below⟩)
  | [] => .error .scopeUnderflow

/-- The innermost scope. -/
def top (s : Scopes) : Except Violation Scope :=
  match s.stack with
  | top :: _ => .ok top
  | [] => .error .noScope

/-- Puts a scope in the place of the innermost one. -/
def setTop (s : Scopes) (scope : Scope) : Scopes := ⟨scope :: s.stack.tail⟩

end Scopes

end ScriptPir
