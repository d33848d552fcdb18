import ScriptPir.Tree.Cursor
import ScriptPir.Tree.Operator

/-!
# Parsing expressions

Binary operators are parsed by precedence climbing: `binary` parses an operand and then, as long as
the next operator is not looser than a limit, that operator with its right operand. The parts of an
operand take the parser for a whole expression as an argument, so `binary` is the only recursion.

Fuel. Every nested expression and every round of a loop takes a token first, so a fuel above the
number of tokens left is never used up.
-/

namespace ScriptPir

mutual

/-- A constant of an index expression that is no integer. Calls and indices are not looked into. -/
def Node.nonIntegral? : Node → Option Node
  | .absent => none
  | .mk id kind token children =>
    match kind with
    | .literal =>
      match children with
      | c :: _ =>
        if c.token.kind = .float ∨ c.token.kind = .string then some (.mk id kind token children)
        else none
      | [] => none
    | .index | .call => none
    | _ => nonIntegralAny? children

/-- The first constant of some index expressions that is no integer. -/
def Node.nonIntegralAny? : List Node → Option Node
  | [] => none
  | n :: ns =>
    match n.nonIntegral? with
    | some bad => some bad
    | none => nonIntegralAny? ns

end

namespace Parser

/-- The arguments of a call, from the first on; there is at least one. -/
def arguments (expr : Parser Node) (bracketed : Bool) : (fuel : Nat) → Parser (List Node)
  | 0 => do fail (← peek) .tooDeep
  | fuel + 1 => do
    let t ← peek
    let named ← if t.isName then (·.isOp ":") <$> peek 1 else pure false
    let arg ←
      if named then
        skip
        skip
        let name ← term t
        let value ← expr
        node .arg t [name, value]
      else
        let value ← expr
        node .arg t [value]
    if (← peek).kind ≠ .comma then return [arg]
    skip
    if bracketed then skipNewlines
    return arg :: (← arguments expr bracketed fuel)

/-- The argument list of a call. -/
def args (expr : Parser Node) (fuel : Nat) (t : Token) (bracketed : Bool) : Parser Node := do
  let id ← fresh
  return .mk id .args t (← arguments expr bracketed fuel)

/-- A call of `name` with arguments in brackets. -/
def call (expr : Parser Node) (fuel : Nat) (name : Token) : Parser Node := do
  let _ ← expect .opening "("
  skipNewlines
  let t ← peek
  let args ← if t.kind = .closing then node .args t [] else args expr fuel t true
  skipNewlines
  let _ ← expect .closing ")"
  let callee ← term name
  node .call name [callee, args]

/-- An element of the array `name`. -/
def index (expr : Parser Node) (name : Token) : Parser Node := do
  let nameTerm ← term name
  let array ← node .ident name [nameTerm]
  let opening ← expect .opening "["
  skipNewlines
  let e ← expr
  if let some bad := e.nonIntegral? then
    fail bad.token (.indexLiteral (if bad.token.kind = .float then "float" else "string"))
  skipNewlines
  let closing ← expect .closing "]"
  let openTerm ← term opening
  let closeTerm ← term closing
  node .index name [array, openTerm, e, closeTerm]

/-- An operand without a sign before it. -/
def primary (expr : Parser Node) (fuel : Nat) : Parser Node := do
  let t ← next
  match t.kind with
  | .int | .float | .string =>
    if let .error e := literal t then fail t (.badLiteral e)
    node .literal t [← term t]
  | .global => node .globalRef t [← term t]
  | .opening =>
    if t.text ≠ "(" then fail t .expression
    skipNewlines
    let e ← expr
    skipNewlines
    let closing ← expect .closing ")"
    let openTerm ← term t
    let closeTerm ← term closing
    node .paren t [openTerm, e, closeTerm]
  | .ident =>
    if t.text = "true" ∨ t.text = "false" then node .literal t [← term t]
    else if !t.isName then fail t .expression
    else
      let ahead ← peek
      if ahead.isOpening "(" then call expr fuel t
      else if ahead.isOpening "[" then index expr t
      else node .ident t [← term t]
  | _ => fail t .expression

/-- Whether a token is an operator that stands before its operand. -/
def isSign (t : Token) : Bool := t.isOp "-" || t.isOp "!" || t.isKeyword "not"

/-- An operand with any number of signs before it. -/
def unary (operand : Parser Node) : (fuel : Nat) → Parser Node
  | 0 => do fail (← peek) .tooDeep
  | fuel + 1 => do
    let t ← peek
    if isSign t then
      skip
      let op ← term t
      let e ← unary operand fuel
      node .unary t [op, e]
    else operand

/-- Goes on behind the left operand as long as operators are not looser than the limit. -/
def climb (right : Nat → Parser Node) (limit : Nat) : (fuel : Nat) → Node → Parser Node
  | 0, _ => do fail (← peek) .tooDeep
  | fuel + 1, left => do
    let t ← peek
    match Operator.ofToken? t with
    | none => return left
    | some op =>
      if limit < op.prec then return left
      skip
      skipNewlines
      let r ← right op.limit
      let opTerm ← term t
      let whole ← node op.kind left.token [left, opTerm, r]
      climb right limit fuel whole

/-- An expression whose operators outside brackets are not looser than the limit. -/
def binary : (fuel : Nat) → (limit : Nat) → Parser Node
  | 0, _ => do fail (← peek) .tooDeep
  | fuel + 1, limit => do
    let expr := binary fuel Operator.loosest
    let left ← unary (primary expr (fuel + 1)) (fuel + 1)
    climb (binary fuel) limit (fuel + 1) left

/-- An expression. -/
def expr (fuel : Nat) : Parser Node := binary fuel Operator.loosest

end Parser

end ScriptPir
