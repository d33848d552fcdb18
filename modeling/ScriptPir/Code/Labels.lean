import ScriptPir.Code.Instr
import ScriptPir.Violation

/-!
# Labels and registers

Labels are numbered through the whole program and never used twice; object registers are numbered
from zero again and again. The labels of the constructs around a place are kept on two stacks: the
frames of branches and loops, and the exits of loops.
-/

namespace ScriptPir

/-- The supply of object registers. -/
structure Registers where
  next : Nat := 0
deriving DecidableEq, Repr, Inhabited

namespace Registers

/-- Takes a register. -/
def fresh (r : Registers) : Reg × Registers := (.object r.next, ⟨r.next + 1⟩)

/-- Starts again from the first register. -/
def reset (_ : Registers) : Registers := {}

end Registers

/-- The labels of one branch or loop. -/
structure Frame (ℓ : Type) where
  /-- The construct that has the labels. -/
  kind : Kind
  /-- Where a true condition leads, or the top of a loop. -/
  onTrue : ℓ
  /-- Where a false condition leads, or the exit of a loop. -/
  onFalse : ℓ
  /-- What follows all arms of a branch with more than one. -/
  finish : Option ℓ := none
deriving DecidableEq, Repr, Inhabited

/-- The supply of labels, and those in use at a place, innermost first. -/
structure Labels (ℓ : Type) where
  next : Nat := 0
  frames : List (Frame ℓ) := []
  loops : List ℓ := []
deriving Repr, Inhabited

namespace Labels

variable {ℓ : Type}

/-- Takes a label that was never used. -/
def fresh (l : Labels ℓ) : Label × Labels ℓ := (⟨l.next⟩, { l with next := l.next + 1 })

/-- Enters a branch or loop. -/
def push (l : Labels ℓ) (f : Frame ℓ) : Labels ℓ := { l with frames := f :: l.frames }

/-- Leaves the innermost branch or loop. -/
def pop (l : Labels ℓ) : Except Violation (Frame ℓ × Labels ℓ) :=
  match l.frames with
  | f :: frames => .ok (f, { l with frames })
  | [] => .error .frameUnderflow

/-- The labels of the innermost branch or loop. -/
def top (l : Labels ℓ) : Except Violation (Frame ℓ) :=
  match l.frames with
  | f :: _ => .ok f
  | [] => .error .noFrame

/-- Enters a loop with a given exit. -/
def pushLoop (l : Labels ℓ) (exit : ℓ) : Labels ℓ := { l with loops := exit :: l.loops }

/-- Leaves the innermost loop. -/
def popLoop (l : Labels ℓ) : Except Violation (Labels ℓ) :=
  match l.loops with
  | _ :: loops => .ok { l with loops }
  | [] => .error .loopUnderflow

/-- The exit of the innermost loop. -/
def loopExit (l : Labels ℓ) : Except Violation ℓ :=
  match l.loops with
  | exit :: _ => .ok exit
  | [] => .error .breakOutsideLoop

end Labels

end ScriptPir
