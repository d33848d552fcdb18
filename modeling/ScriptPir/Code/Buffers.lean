import ScriptPir.Violation

/-!
# Fragments under assembly

A stack of buffers. What is written goes to the one on top; a finished fragment is popped and
written to the one below, or kept for later.
-/

namespace ScriptPir

/-- A stack of buffers, the one on top first. -/
structure Buffers (α : Type) where
  stack : List (Array α) := []
deriving Repr, Inhabited

namespace Buffers

variable {α : Type}

/-- The number of buffers. -/
def depth (b : Buffers α) : Nat := b.stack.length

/-- Starts a fragment. -/
def push (b : Buffers α) : Buffers α := ⟨#[] :: b.stack⟩

/-- Takes the fragment on top. -/
def pop (b : Buffers α) : Except Violation (Array α × Buffers α) :=
  match b.stack with
  | top :: below => .ok (top, ⟨below⟩)
  | [] => .error .bufferUnderflow

/-- Writes one item. -/
def write (b : Buffers α) (item : α) : Except Violation (Buffers α) :=
  match b.stack with
  | top :: below => .ok ⟨top.push item :: below⟩
  | [] => .error .noBuffer

/-- Writes a finished fragment. -/
def splice (b : Buffers α) (fragment : Array α) : Except Violation (Buffers α) :=
  match b.stack with
  | top :: below => .ok ⟨(top ++ fragment) :: below⟩
  | [] => .error .noBuffer

end Buffers

end ScriptPir
