import ScriptPir.Lowering.State

/-!
# Lowering branches and loops

A branch is lowered to

    [condition]
    if c goto T          (unless c goto T)
    goto F
    T:
    [body]
    goto E               (only if there are further arms)
    F:
    [further arms]
    E:

and a loop to

    [assignments before] (only with a header)
    B:
    [condition]
    unless c goto X
    [body]
    [assignments after]  (only with a header)
    goto B
    X:

Labels are taken when the construct is entered, the text is put together when it is left.
-/

namespace ScriptPir.Lower

/-- Enters a branch. It needs a label behind all arms only if it has more than one. -/
def enterBranch (n : Node) : Lower Unit := do
  let onTrue ← freshLabel
  let onFalse ← freshLabel
  let finish ← if n.children.length > 2 then some <$> freshLabel else pure none
  pushFrame { kind := n.kind, onTrue, onFalse, finish }

/-- Writes one arm of a branch. -/
def arm (negated : Bool) (f : Frame Label) (condition body : Node) : Lower Unit := do
  let c ← valueOf condition
  splice (← take condition)
  emit (.branch negated c f.onTrue)
  emit (.jump f.onFalse)
  emitLabel f.onTrue
  splice (← take body)
  if let some finish := f.finish then emit (.jump finish)
  emitLabel f.onFalse

/-- Leaves a branch. -/
def exitBranch (n : Node) : Lower Unit := do
  let f ← popFrame
  arm (n.kind = .unlessStmt) f (← child n 0) (← child n 1)
  (n.children.drop 2).forM fun c => do splice (← take c)
  if let some finish := f.finish then emitLabel finish

/-- Enters a further arm, which shares the last label of its branch. -/
def enterElsif : Lower Unit := do
  match (← topFrame).finish with
  | none => throw .elsifWithoutEnd
  | some finish =>
    let onTrue ← freshLabel
    let onFalse ← freshLabel
    pushFrame { kind := .elsifArm, onTrue, onFalse, finish := some finish }
    pushBuffer

/-- Leaves a further arm. -/
def exitElsif (n : Node) : Lower Unit := do
  let f ← popFrame
  arm false f (← child n 0) (← child n 1)
  stash n

/-- The last arm is its body. -/
def exitElse (n : Node) : Lower Unit := do keep n (← take (← child n 0))

/-- Enters a loop. -/
def enterLoop (n : Node) : Lower Unit := do
  let onTrue ← freshLabel
  let onFalse ← freshLabel
  pushFrame { kind := n.kind, onTrue, onFalse }
  pushLoop onFalse

/-- Writes a loop. -/
def loop (f : Frame Label) (condition body : Node) (step : Fragment) : Lower Unit := do
  let c ← valueOf condition
  emitLabel f.onTrue
  splice (← take condition)
  emit (.branch true c f.onFalse)
  splice (← take body)
  splice step
  emit (.jump f.onTrue)
  emitLabel f.onFalse

/-- Leaves a loop with a condition. -/
def exitWhile (n : Node) : Lower Unit := do
  let f ← popFrame
  popLoop
  loop f (← child n 0) (← child n 1) #[]

/-- Leaves a loop with a header. -/
def exitFor (n : Node) : Lower Unit := do
  let f ← popFrame
  popLoop
  splice (← take (← child n 0))
  let condition ← child n 1
  let body ← child n 3
  let step ← take (← child n 2)
  loop f condition body step

/-- The exit from a loop. -/
def exitBreak : Lower Unit := do emit (.jump (← loopExit))

/-- Leaves a condition, whose value is that of its expression. -/
def exitCond (n : Node) : Lower Unit := do
  stash n
  setValue n (← valueOf (← child n 0))

end ScriptPir.Lower
