import ScriptPir.Lowering.Control
import ScriptPir.Lowering.Statement
import ScriptPir.Tree.Tour

/-!
# Lowering a tree

`lower` follows the walk of a tree and does what each event asks for. For a tree that the parser
made, this succeeds and leaves an assembled program.
-/

namespace ScriptPir

namespace Lower

/-- What is done when a walk enters a node. -/
def enter (n : Node) : Lower Unit := do
  match n.kind with
  | .program =>
    pushScope
    pushBuffer
  | .funcDef =>
    pushScope
    resetRegisters
  | .params | .cond | .body | .forInit | .forStep | .args | .inlinePir => pushBuffer
  | .ifStmt | .unlessStmt => enterBranch n
  | .elsifArm => enterElsif
  | .whileLoop | .forLoop => enterLoop n
  | .assign | .indexAssign | .globalSet =>
    resetRegisters
    pushBuffer
  | .callStmt =>
    resetRegisters
    let call ← child n 0
    modify fun s => { s with stmtCall := call.id }
  | .terminal | .stmtList | .returnStmt | .elseArm | .breakStmt | .arrayInit | .globalGet
  | .require | .call | .arg | .literal | .ident | .globalRef | .paren | .unary | .binary
  | .compare | .logic | .index => pure ()
  | .unknown _ => throw (.unknownEnter n.kind)

/-- Assembles the program. Nothing may be left open. -/
def exitProgram : Lower Unit := do
  let main ← popBuffer
  popScope
  let s ← get
  if s.buffers.depth ≠ 0 then throw (.openBuffers s.buffers.depth)
  if s.labels.frames.length ≠ 0 ∨ s.labels.loops.length ≠ 0 then throw .openFrames
  s.functions.skipped.forM fun name => note (.callSkipped name)
  let program : Program :=
    { main, stdlib := s.stdlib, requires := s.requires.toList, functions := s.functions.emitted }
  modify fun s => { s with program := some program }

/-- What is done when a walk exits a node. -/
def exit (n : Node) : Lower Unit := do
  match n.kind with
  | .terminal | .stmtList => pure ()
  | .program => exitProgram
  | .funcDef => exitFuncDef n
  | .params => exitParams n
  | .returnStmt => exitReturn n
  | .ifStmt | .unlessStmt => exitBranch n
  | .elsifArm => exitElsif n
  | .elseArm => exitElse n
  | .whileLoop => exitWhile n
  | .forLoop => exitFor n
  | .forInit | .forStep | .body | .args => stash n
  | .cond => exitCond n
  | .breakStmt => exitBreak
  | .assign => exitAssign n
  | .arrayInit => exitArrayInit n
  | .indexAssign => exitIndexAssign n
  | .globalSet => exitGlobalSet n
  | .globalGet => exitGlobalGet n
  | .require => exitRequire n
  | .inlinePir => exitInlinePir n
  | .callStmt => modify fun s => { s with stmtCall := -1 }
  | .call => exitCall n
  | .arg => setValue n (← valueOf (← child n (n.children.length - 1)))
  | .literal => exitLiteral n
  | .ident => setValue n (.dynamic (.name (← child n 0).text))
  | .globalRef => exitGlobalRef n
  | .paren => setValue n (← valueOf (← child n 1))
  | .unary => exitUnary n
  | .binary => exitBinary n
  | .compare | .logic => exitBoolean n
  | .index => exitIndex n
  | .unknown _ => throw (.unknownExit n.kind)

/-- What is done at a step of a walk. -/
def step : Event → Lower Unit
  | .enter n => enter n
  | .exit n => exit n
  | .missing => throw .absentNode

/-- Follows a walk, and fails where the walk was stopped. -/
def follow (walk : Walk) : Lower Unit := do
  walk.events.forM step
  if let some v := walk.stop then throw v

/-- Lowers a tree. A state serves for one tree only. -/
def tree (root : Node) (label : String) : Lower Unit := do
  if (← get).used then throw .reused
  modify fun s => { s with used := true }
  note (.phaseStarted "translate" label)
  follow root.walk
  note (.phaseCompleted "translate" label)

end Lower

/-- Lowers a tree, from a given state. -/
def Lowering.run (s : Lowering) (root : Node) (label : String) : Except Violation Lowering := do
  let ((), s) ← (Lower.tree root label).run s
  return s

/-- The text of the program that was assembled. -/
def Lowering.output (s : Lowering) : String :=
  match s.program with
  | some p => p.render
  | none => ""

/-- The values of some nodes that have one, in the order of the nodes. -/
def Lowering.valuesOf (s : Lowering) (nodes : List Node) : List (Node × Value) :=
  nodes.filterMap fun n => s.values[n.id]?.map (n, ·)

/-- The functions stored, in the order of the first definitions among some nodes. -/
def Lowering.functionsOf (s : Lowering) (nodes : List Node) : List (FunctionRecord Fragment) :=
  let names := (nodes.filter (·.kind = .funcDef)).filterMap fun n => (n.child? 0).map Node.text
  names.eraseDups.filterMap s.functions.lookup?

/-- Lowers a tree to a program that includes a given library. -/
def lower (root : Node) (label : String) (stdlib : String := defaultStdlib) :
    Except Violation Lowering :=
  Lowering.run { stdlib } root label

end ScriptPir
