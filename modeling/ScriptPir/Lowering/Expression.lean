import ScriptPir.Lowering.State

/-!
# Lowering expressions

When a walk leaves an expression it stores the value of it: constants are folded, and what is left
to the run time is computed into a register by instructions written before.
-/

namespace ScriptPir.Lower

/-- The value of a literal. -/
def exitLiteral (n : Node) : Lower Unit := do
  match literal (← child n 0).token with
  | .ok v => setValue n v
  | .error e => throw (.badLiteral e)

/-- The name of a global without its dollar sign. -/
def globalName (n : Node) : String :=
  match n.text.toList with
  | '$' :: name => String.ofList name
  | _ => n.text

/-- Reads a global into a register. -/
def exitGlobalRef (n : Node) : Lower Unit := do
  let r ← freshRegister
  emit (.getGlobal r (globalName (← child n 0)))
  setValue n (.dynamic (.reg r))

/-- Takes an object register and puts a new object in it. -/
def temporary : Lower Reg := do
  let r ← freshRegister
  emit (.construct (.reg r) .integer)
  return r

/-- Negates a value, at compile time if it can be done. -/
def exitNegation (n : Node) (v : Value) : Lower Unit := do
  if v.isStatic then
    match foldNeg v with
    | .ok folded => setValue n folded
    | .error e =>
      report n.line (.folding e)
      atRunTime
  else atRunTime
where
  /-- Negates a value at run time. -/
  atRunTime : Lower Unit := do
    let r ← temporary
    emit (.neg r v)
    setValue n (.dynamic (.reg r))

/-- An operation on one operand. -/
def exitUnary (n : Node) : Lower Unit := do
  let op ← operator n
  let v ← valueOf (← child n 1)
  match op.text with
  | "-" => exitNegation n v
  | "!" | "not" =>
    let r ← freshBool
    emit (.not r v)
    setValue n (.dynamic (.reg r))
  | text => throw (.unknownUnary text)

/-- Arithmetic, at compile time if it can be done. -/
def exitBinary (n : Node) : Lower Unit := do
  let op ← operator n
  let l ← valueOf (← child n 0)
  let r ← valueOf (← child n 2)
  if l.isStatic && r.isStatic then
    match fold op.text l r with
    | .ok folded => setValue n folded
    | .error e =>
      report op.line (.folding e)
      atRunTime op.text l r
  else atRunTime op.text l r
where
  /-- Arithmetic at run time. -/
  atRunTime (op : String) (l r : Value) : Lower Unit := do
    let reg ← temporary
    emit (if op = "**" then .power reg l r else .arith reg op l r)
    setValue n (.dynamic (.reg reg))

/-- A comparison or connective, which is always left to the run time. -/
def exitBoolean (n : Node) : Lower Unit := do
  let op ← operator n
  match BoolOp.ofText? op.text with
  | none => throw (.unknownBoolean op.text)
  | some test =>
    let l ← valueOf (← child n 0)
    let r ← valueOf (← child n 2)
    let reg ← freshBool
    emit (.test reg test l r)
    setValue n (.dynamic (.reg reg))

/-- An element of an array. -/
def exitIndex (n : Node) : Lower Unit := do
  let array := (← child n 0).text
  match ← valueOf (← child n 2) with
  | .int i => setValue n (.dynamic (.elementAt array i))
  | .dynamic place => setValue n (.dynamic (.elementBy array place))
  | v => throw (.badIndex array v.kind)

/-- The arguments of a call. -/
def arguments (args : Node) : Lower (List Argument) :=
  args.children.mapM fun a => do
    let value ← valueOf a
    if a.children.length = 2 then
      let name ← child a 0
      return { value, name := some name.text }
    else return { value }

/-- A call. The result of a call that is a statement goes nowhere. -/
def exitCall (n : Node) : Lower Unit := do
  let callee := (← child n 0).text
  let args ← child n 1
  splice (← take args)
  modify fun s => { s with functions := s.functions.call callee }
  let arguments ← arguments args
  if n.id = (← get).stmtCall then emit (.call none callee arguments)
  else
    let r ← freshRegister
    emit (.call (some r) callee arguments)
    setValue n (.dynamic (.reg r))

end ScriptPir.Lower
