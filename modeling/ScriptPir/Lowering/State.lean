import Std.Data.TreeMap
import ScriptPir.Code.Buffers
import ScriptPir.Code.Labels
import ScriptPir.Code.Program
import ScriptPir.Code.Scope
import ScriptPir.Log.Notice
import ScriptPir.SemanticError
import ScriptPir.Tree.Node

/-!
# The state of a lowering

A tree is lowered in one walk. What is found out about a node is remembered under its id: the value
of an expression, and the fragment of a part that its parent will place. Instructions go to the
buffer on top of a stack.
-/

namespace ScriptPir

/-- What a lowering knows at a point of the walk. -/
structure Lowering where
  /-- The library included after the main program. -/
  stdlib : String := defaultStdlib
  /-- The values of the expressions passed. -/
  values : Std.TreeMap Int Value compare := {}
  /-- The fragments of parts that their parents have yet to place. -/
  fragments : Std.TreeMap Int Fragment compare := {}
  scopes : Scopes := {}
  buffers : Buffers Line := {}
  registers : Registers := {}
  labels : Labels Label := {}
  functions : Functions Fragment := {}
  /-- The libraries required, in the order of their first mention. -/
  requires : Array String := #[]
  /-- The id of the call whose result is not used, or -1. -/
  stmtCall : Int := -1
  errors : ErrorList := #[]
  notices : Array Notice := #[]
  /-- The program, once it is assembled. -/
  program : Option Program := none
  /-- Whether a tree was lowered already. -/
  used : Bool := false
deriving Inhabited

/-- A step of a lowering. -/
abbrev Lower := StateT Lowering (Except Violation)

namespace Lower

/-- A violation of a part is one of the lowering. -/
def check {α : Type} : Except Violation α → Lower α
  | .ok a => pure a
  | .error v => throw v

/-- Notes an event. -/
def note (n : Notice) : Lower Unit := modify fun s => { s with notices := s.notices.push n }

/-- Records a semantic error. -/
def report (line : Int) (fault : SemanticFault) : Lower Unit := do
  modify fun s => { s with errors := s.errors.add line fault.message }
  note (.semanticError line fault.message)

/-- The child of a node with a given index, which must be there. -/
def child (n : Node) (i : Nat) : Lower Node :=
  match n.child? i with
  | some c => pure c
  | none => throw .missingChild

/-- The operator of a node, which must be there. -/
def operator (n : Node) : Lower Node :=
  match n.op? with
  | some op => pure op
  | none => throw .missingChild

/-- The value of an expression that was passed. -/
def valueOf (n : Node) : Lower Value := do
  match (← get).values[n.id]? with
  | some v => pure v
  | none => throw (.noDescriptor n.id)

/-- Remembers the value of an expression. -/
def setValue (n : Node) (v : Value) : Lower Unit :=
  modify fun s => { s with values := s.values.insert n.id v }

/-- Starts a fragment. -/
def pushBuffer : Lower Unit := modify fun s => { s with buffers := s.buffers.push }

/-- Takes the fragment under assembly. -/
def popBuffer : Lower Fragment := do
  let s ← get
  let (fragment, buffers) ← check s.buffers.pop
  set { s with buffers }
  return fragment

/-- Writes a line. -/
def write (l : Line) : Lower Unit := do
  let s ← get
  let buffers ← check (s.buffers.write l)
  set { s with buffers }

/-- Writes an instruction. -/
def emit (i : Instr) : Lower Unit := write (.instr i)

/-- Writes a label. -/
def emitLabel (l : Label) : Lower Unit := write (.label l)

/-- Writes a finished fragment. -/
def splice (fragment : Fragment) : Lower Unit := do
  let s ← get
  let buffers ← check (s.buffers.splice fragment)
  set { s with buffers }

/-- Keeps a fragment until the parent of its node places it. -/
def keep (n : Node) (fragment : Fragment) : Lower Unit :=
  modify fun s => { s with fragments := s.fragments.insert n.id fragment }

/-- Keeps the fragment under assembly as that of a node. -/
def stash (n : Node) : Lower Unit := do keep n (← popBuffer)

/-- Takes the fragment of a node. -/
def take (n : Node) : Lower Fragment := do
  let s ← get
  match s.fragments[n.id]? with
  | some fragment =>
    set { s with fragments := s.fragments.erase n.id }
    return fragment
  | none => throw (.noFragment n.kind n.id)

/-- Enters a scope. -/
def pushScope : Lower Unit := modify fun s => { s with scopes := s.scopes.push }

/-- Leaves a scope. -/
def popScope : Lower Unit := do
  let s ← get
  let (_, scopes) ← check s.scopes.pop
  set { s with scopes }

/-- The innermost scope. -/
def topScope : Lower Scope := do check (← get).scopes.top

/-- Puts a scope in the place of the innermost one. -/
def setScope (scope : Scope) : Lower Unit :=
  modify fun s => { s with scopes := s.scopes.setTop scope }

/-- Declares a name in the innermost scope, and says whether it was there. -/
def declareName (name : String) : Lower Bool := do
  let scope ← topScope
  setScope (scope.declare name)
  return scope.declared name

/-- Takes a truth register. -/
def freshBool : Lower Reg := do
  let (r, scope) := (← topScope).freshBool
  setScope scope
  return r

/-- Takes an object register. -/
def freshRegister : Lower Reg := do
  let s ← get
  let (r, registers) := s.registers.fresh
  set { s with registers }
  return r

/-- Starts again from the first object register. -/
def resetRegisters : Lower Unit := modify fun s => { s with registers := s.registers.reset }

/-- Takes a label. -/
def freshLabel : Lower Label := do
  let s ← get
  let (l, labels) := s.labels.fresh
  set { s with labels }
  return l

/-- Enters a branch or loop. -/
def pushFrame (f : Frame Label) : Lower Unit := modify fun s => { s with labels := s.labels.push f }

/-- Leaves a branch or loop. -/
def popFrame : Lower (Frame Label) := do
  let s ← get
  let (f, labels) ← check s.labels.pop
  set { s with labels }
  return f

/-- The labels of the innermost branch or loop. -/
def topFrame : Lower (Frame Label) := do check (← get).labels.top

/-- Enters a loop. -/
def pushLoop (exit : Label) : Lower Unit :=
  modify fun s => { s with labels := s.labels.pushLoop exit }

/-- Leaves a loop. -/
def popLoop : Lower Unit := do
  let s ← get
  let labels ← check s.labels.popLoop
  set { s with labels }

/-- The exit of the innermost loop. -/
def loopExit : Lower Label := do check (← get).labels.loopExit

end Lower

end ScriptPir
