import ScriptPir.Tree.Expression

/-!
# Parsing statements and programs

A statement is told by its first token or two. Statements with blocks take the parser for a block as
an argument, so `stmt` is the only recursion; its fuel is that of expressions.
-/

namespace ScriptPir

/-- The constructs around a statement. -/
structure Context where
  /-- Whether the statement is inside a block. -/
  inBlock : Bool := false
  /-- Whether the statement is inside a loop of the same function. -/
  inLoop : Bool := false
deriving DecidableEq, Repr

namespace Parser

/-- Whether a token ends a statement list that one of some keywords may follow. -/
def endsBlock (stops : List String) (t : Token) : Bool :=
  t.kind = .eof || (t.kind = .ident && t.text ∈ stops)

/-- Statements up to the end of input or one of some keywords. -/
def stmts (stmt : Parser Node) (stops : List String) : (fuel : Nat) → Parser (List Node)
  | 0 => do fail (← peek) .tooDeep
  | fuel + 1 => do
    let t ← peek
    if t.kind = .semi then
      skip
      stmts stmt stops fuel
    else if endsBlock stops t then return []
    else
      let s ← stmt
      let t ← peek
      if t.kind = .semi then skip
      else if !endsBlock stops t then fail t .statementEnd
      return s :: (← stmts stmt stops fuel)

/-- A statement list as a node. -/
def stmtList (stmt : Parser Node) (fuel : Nat) (stops : List String) : Parser Node := do
  let first ← peek
  let list ← stmts stmt stops fuel
  node .stmtList first list

/-- The statement list of a construct. -/
def body (stmt : Parser Node) (fuel : Nat) (stops : List String) : Parser Node := do
  let t ← peek
  let list ← stmtList stmt fuel stops
  node .body t [list]

/-- A condition, ended by a line end or a keyword. -/
def condition (expr : Parser Node) (word : String) : Parser Node := do
  let t ← peek
  let e ← expr
  let after ← peek
  if after.isKeyword word then skip
  else if after.kind ≠ .semi then fail after .conditionEnd
  node .cond t [e]

/-- The further arms of a branch. -/
def elsifArms (expr : Parser Node) (block : List String → Parser Node) :
    (fuel : Nat) → Parser (List Node)
  | 0 => do fail (← peek) .tooDeep
  | fuel + 1 => do
    let t ← peek
    if t.isKeyword "elsif" then
      skip
      let c ← condition expr "then"
      let b ← block ["elsif", "else", "end"]
      let arm ← node .elsifArm t [c, b]
      return arm :: (← elsifArms expr block fuel)
    else return []

/-- The last arm of a branch, if there is one. -/
def elseArm (block : List String → Parser Node) : Parser (List Node) := do
  let t ← peek
  if t.isKeyword "else" then
    skip
    let b ← block ["end"]
    return [← node .elseArm t [b]]
  else return []

/-- A branch. -/
def ifStmt (expr : Parser Node) (block : List String → Parser Node) (fuel : Nat) :
    Parser Node := do
  let t ← expectKeyword "if"
  let c ← condition expr "then"
  let b ← block ["elsif", "else", "end"]
  let arms ← elsifArms expr block fuel
  let last ← elseArm block
  let _ ← expectKeyword "end"
  node .ifStmt t (c :: b :: arms ++ last)

/-- A negated branch. -/
def unlessStmt (expr : Parser Node) (block : List String → Parser Node) : Parser Node := do
  let t ← expectKeyword "unless"
  let c ← condition expr "then"
  let b ← block ["else", "end"]
  let last ← elseArm block
  let _ ← expectKeyword "end"
  node .unlessStmt t (c :: b :: last)

/-- A loop with a condition. -/
def whileLoop (expr : Parser Node) (block : List String → Parser Node) : Parser Node := do
  let t ← expectKeyword "while"
  let c ← condition expr "do"
  let b ← block ["end"]
  let _ ← expectKeyword "end"
  node .whileLoop t [c, b]

/-- A statement that starts with a name and an assignment operator or an index. -/
def assignment (expr : Parser Node) : Parser Node := do
  let name ← next
  if (← peek).isOpening "[" then
    let target ← index expr name
    let op ← next
    if !op.isOp "=" then fail op (.elementAssign target.text)
    let opTerm ← term op
    let e ← expr
    node .indexAssign name [target, opTerm, e]
  else
    let op ← next
    if !op.isAssign then fail op .assignExpected
    let t ← if op.text = "=" then peek else pure op
    if t.isOpening "[" then
      skip
      let closing ← next
      if ¬(closing.kind = .closing ∧ closing.text = "]") then fail closing .arrayNotEmpty
      let nameTerm ← term name
      let opTerm ← term op
      node .arrayInit name [nameTerm, opTerm]
    else
      let fromGlobal ← if t.kind = .global then Token.endsStmt <$> peek 1 else pure false
      if fromGlobal then
        skip
        let nameTerm ← term name
        let opTerm ← term op
        let global ← term t
        node .globalGet name [nameTerm, opTerm, global]
      else
        skipNewlines
        let nameTerm ← term name
        let opTerm ← term op
        let e ← expr
        node .assign name [nameTerm, opTerm, e]

/-- Whether an assignment starts with these two tokens. -/
def startsAssignment (name ahead : Token) : Bool :=
  name.isName && (ahead.isAssign || ahead.isOpening "[")

/-- The assignments in the header of a loop, at least one. -/
def forAssignments (expr : Parser Node) : (fuel : Nat) → Parser (List Node)
  | 0 => do fail (← peek) .tooDeep
  | fuel + 1 => do
    let t ← peek
    let starts ← if t.isName then startsAssignment t <$> peek 1 else pure false
    if !starts then fail t .forHeader
    let a ← assignment expr
    if (← peek).kind ≠ .comma then return [a]
    skip
    return a :: (← forAssignments expr fuel)

/-- A part of the header of a loop, up to the given text. -/
def forClause (expr : Parser Node) (fuel : Nat) (kind : Kind) (close : String) : Parser Node := do
  let t ← peek
  let id ← fresh
  if t.text = close then return .mk id kind t []
  return .mk id kind t (← forAssignments expr fuel)

/-- A loop with a header. -/
def forLoop (expr : Parser Node) (block : List String → Parser Node) (fuel : Nat) :
    Parser Node := do
  let t ← expectKeyword "for"
  let _ ← expect .opening "("
  let init ← forClause expr fuel .forInit ";"
  let _ ← expect .semi ";"
  let condToken ← peek
  let e ← expr
  let c ← node .cond condToken [e]
  let _ ← expect .semi ";"
  let step ← forClause expr fuel .forStep ")"
  let _ ← expect .closing ")"
  let b ← block ["end"]
  let _ ← expectKeyword "end"
  node .forLoop t [init, c, step, b]

/-- The parameters of a function, at least one. -/
def paramNames : (fuel : Nat) → Parser (List Node)
  | 0 => do fail (← peek) .tooDeep
  | fuel + 1 => do
    let p ← term (← expectName "parameter name")
    if (← peek).kind ≠ .comma then return [p]
    skip
    skipNewlines
    return p :: (← paramNames fuel)

/-- The parameter list of a function, with or without brackets. -/
def params (fuel : Nat) : Parser Node := do
  let t ← peek
  let id ← fresh
  if t.isOpening "(" then
    skip
    skipNewlines
    let names ← if (← peek).kind ≠ .closing then paramNames fuel else pure []
    skipNewlines
    let _ ← expect .closing ")"
    return .mk id .params t names
  else if t.isName then return .mk id .params t (← paramNames fuel)
  else return .mk id .params t []

/-- A function definition, which must stand outside all blocks. -/
def funcDef (block : List String → Parser Node) (fuel : Nat) (inBlock : Bool) : Parser Node := do
  let t ← expectKeyword "def"
  if inBlock then fail t .nestedFunction
  let name ← expectName "function name"
  let params ← params fuel
  let b ← block ["end"]
  let _ ← expectKeyword "end"
  let nameTerm ← term name
  node .funcDef t [nameTerm, params, b]

/--
Whether a token starts the first argument of a call of `name` without brackets. A minus or an
exclamation mark does only if there is a space before it and none after it.
-/
def startsArgument (name t : Token) : Parser Bool := do
  match t.kind with
  | .int | .float | .string | .global => return true
  | .op =>
    if t.text = "-" ∨ t.text = "!" then
      let after ← peek 2
      return t.line = name.line && t.col > name.col + name.text.utf8ByteSize &&
        after.line = t.line && after.col = t.col + 1
    else return false
  | .ident => return t.isName || t.text = "not" || t.text = "true" || t.text = "false"
  | _ => return false

/-- A statement that starts with a name: an assignment or a call. -/
def nameStmt (expr : Parser Node) (fuel : Nat) (name : Token) : Parser Node := do
  let ahead ← peek 1
  if startsAssignment name ahead then assignment expr
  else if ahead.isOpening "(" then
    skip
    let c ← call expr fuel name
    node .callStmt name [c]
  else if ← startsArgument name ahead then
    skip
    let args ← args expr fuel name false
    let callee ← term name
    let c ← node .call name [callee, args]
    node .callStmt name [c]
  else
    skip
    let callee ← term name
    let args ← node .args name []
    let c ← node .call name [callee, args]
    node .callStmt name [c]

/-- A statement within a context. -/
def stmt : (fuel : Nat) → Context → Parser Node
  | 0, _ => do fail (← peek) .tooDeep
  | fuel + 1, ctx => do
    let expr := expr (fuel + 1)
    let blockOf := fun ctx => body (stmt fuel ctx) (fuel + 1)
    let block := blockOf { ctx with inBlock := true }
    let loopBlock := blockOf { inBlock := true, inLoop := true }
    let t ← peek
    match t.kind with
    | .pir =>
      skip
      node .inlinePir t [← term t]
    | .global =>
      skip
      let op ← next
      if !op.isOp "=" then fail op (.globalAssign t.text)
      let global ← term t
      let opTerm ← term op
      let e ← expr
      node .globalSet t [global, opTerm, e]
    | .ident =>
      match t.text with
      | "def" => funcDef (blockOf { inBlock := true }) (fuel + 1) ctx.inBlock
      | "if" => ifStmt expr block (fuel + 1)
      | "unless" => unlessStmt expr block
      | "while" => whileLoop expr loopBlock
      | "for" => forLoop expr loopBlock (fuel + 1)
      | "break" =>
        skip
        if ctx.inLoop then node .breakStmt t [] else fail t .breakOutsideLoop
      | "return" =>
        skip
        if (← peek).endsStmt then node .returnStmt t []
        else
          let e ← expr
          node .returnStmt t [e]
      | "require" =>
        skip
        let name ← next
        if name.kind ≠ .string then fail name .requireName
        node .require t [← term name]
      | _ => if t.isName then nameStmt expr (fuel + 1) t else fail t .statementStart
    | _ => fail t .statementStart

/-- A whole program. -/
def program (fuel : Nat) : Parser Node := do
  let first ← peek
  let list ← stmtList (stmt fuel {}) fuel []
  node .program first [list]

end Parser

/-- Parses tokens and what follows them. -/
def parseFrom (c : Cursor) : Except SyntaxError Node := do
  let (tree, _) ← Parser.program (c.rest.length + 1) |>.run c
  return tree

/-- Parses a source. -/
def parse (src : Source) : Except SyntaxError Node := parseFrom (.start (lex src))

end ScriptPir
