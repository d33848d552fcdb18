import ScriptPir.Lowering.Expression
import ScriptPir.Text.Blank

/-!
# Lowering simple statements and functions

An assignment declares its variable when the name is new to the scope, before the instructions that
compute the value. A function is assembled apart from the program and stored under its name.
-/

namespace ScriptPir.Lower

/-- Declares and constructs a variable, if its name is new to the scope. -/
def declare (name : String) (cls : Class) : Lower Unit := do
  if !(← declareName name) then
    emit (.declare name)
    emit (.construct (.name name) cls)

/-- An assignment to a variable. -/
def exitAssign (n : Node) : Lower Unit := do
  let code ← popBuffer
  let name := (← child n 0).text
  let op := (← operator n).text
  let v ← valueOf (← child n 2)
  if op = "=" then declare name v.cls
  else if !(← topScope).declared name then report n.line (.undefinedVariable name)
  splice code
  emit (if op = "**=" then .assignPower name v else .assign name op v)

/-- An assignment of an empty array. -/
def exitArrayInit (n : Node) : Lower Unit := do
  let name := (← child n 0).text
  if !(← declareName name) then emit (.declare name)
  emit (.construct (.name name) .array)

/-- An assignment to an element. -/
def exitIndexAssign (n : Node) : Lower Unit := do
  let code ← popBuffer
  let target ← valueOf (← child n 0)
  let v ← valueOf (← child n 2)
  splice code
  emit (.store target v)

/-- An assignment to a global. -/
def exitGlobalSet (n : Node) : Lower Unit := do
  let code ← popBuffer
  let v ← valueOf (← child n 2)
  splice code
  emit (.setGlobal (globalName (← child n 0)) v)

/-- An assignment from a global. -/
def exitGlobalGet (n : Node) : Lower Unit := do
  let name := (← child n 0).text
  declare name .integer
  emit (.loadGlobal name (globalName (← child n 2)))

/-- The inclusion of a library. Its name gets an extension, and counts once. -/
def exitRequire (n : Node) : Lower Unit := do
  match literal (← child n 0).token with
  | .error e => throw (.badLiteral e)
  | .ok v =>
    let name := if v.text.endsWith ".pir" then v.text else v.text ++ ".pir"
    modify fun s =>
      if s.requires.contains name then s else { s with requires := s.requires.push name }

/-- A block of target code: its lines that are not blank, without the space around them. -/
def exitInlinePir (n : Node) : Lower Unit := do
  let lines := Text.trimmedLines (← child n 0).token.text
  lines.forM fun line => emit (.raw line)
  splice (← popBuffer)

/-- The parameters of a function, which are variables of its scope. -/
def exitParams (n : Node) : Lower Unit := do
  let _ ← topScope
  n.children.forM fun p => do
    let _ ← declareName p.text
    emit (.param p.text)
  stash n

/-- A return. -/
def exitReturn (n : Node) : Lower Unit := do
  if n.children.isEmpty then emit (.ret none)
  else emit (.ret (some (← valueOf (← child n 0))))

/-- A function. Nothing is written where it is defined. -/
def exitFuncDef (n : Node) : Lower Unit := do
  let name := (← child n 0).text
  let params ← take (← child n 1)
  let body ← take (← child n 2)
  popScope
  let replaced := (← get).functions.defined name
  modify fun s => { s with functions := s.functions.define ⟨name, params ++ body, n.line⟩ }
  note (.functionStored name n.line replaced)

end ScriptPir.Lower
