import ScriptPir.Numeral.Word

/-!
# Kinds of tree nodes

The productions of the grammar. A kind is also known by a code, which may be that of no production.
-/

namespace ScriptPir

/-- The grammar production a node was built from. -/
inductive Kind where
  /-- A token. -/
  | terminal
  /-- The whole program: a statement list. -/
  | program
  /-- A sequence of statements. -/
  | stmtList
  /-- A function: its name, its parameters and its body. -/
  | funcDef
  /-- A list of parameter names. -/
  | params
  /-- A return, with at most one expression. -/
  | returnStmt
  /-- A branch: a condition, a body, any number of `elsif` arms and at most one `else` arm. -/
  | ifStmt
  /-- A negated branch: a condition, a body and at most one `else` arm. -/
  | unlessStmt
  /-- A further arm: a condition and a body. -/
  | elsifArm
  /-- The last arm: a body. -/
  | elseArm
  /-- A loop: a condition and a body. -/
  | whileLoop
  /-- A loop with a header: assignments before, a condition, assignments after, a body. -/
  | forLoop
  /-- The assignments before a loop. -/
  | forInit
  /-- The assignments after each round of a loop. -/
  | forStep
  /-- The condition of a branch or loop. -/
  | cond
  /-- The statement list of an arm, a loop or a function. -/
  | body
  /-- The exit from a loop. -/
  | breakStmt
  /-- An assignment: a name, an operator and an expression. -/
  | assign
  /-- An assignment of an empty array: a name and an operator. -/
  | arrayInit
  /-- An assignment to an element: an index, an operator and an expression. -/
  | indexAssign
  /-- An assignment to a global: a global, an operator and an expression. -/
  | globalSet
  /-- An assignment from a global: a name, an operator and a global. -/
  | globalGet
  /-- The inclusion of a library: a string. -/
  | require
  /-- A block of target code. -/
  | inlinePir
  /-- A call whose result is not used. -/
  | callStmt
  /-- A call: a name and arguments. -/
  | call
  /-- A list of arguments. -/
  | args
  /-- An argument: an expression, or a name and an expression. -/
  | arg
  /-- A constant: a token. -/
  | literal
  /-- A variable: a token. -/
  | ident
  /-- A global in an expression: a token. -/
  | globalRef
  /-- A bracketed expression: a bracket, an expression and a bracket. -/
  | paren
  /-- An operation on one operand: an operator and an expression. -/
  | unary
  /-- Arithmetic: an expression, an operator and an expression. -/
  | binary
  /-- A comparison: an expression, an operator and an expression. -/
  | compare
  /-- A connective: an expression, an operator and an expression. -/
  | logic
  /-- An element of an array: a variable, a bracket, an expression and a bracket. -/
  | index
  /-- A code that is no production's. -/
  | unknown (code : Int)
deriving DecidableEq, Repr, Inhabited

namespace Kind

/-- The productions with their names, in the order of their codes. -/
def table : List (Kind × String) :=
  [(terminal, "Terminal"), (program, "Program"), (stmtList, "StmtList"), (funcDef, "FuncDef"),
    (params, "Params"), (returnStmt, "Return"), (ifStmt, "If"), (unlessStmt, "Unless"),
    (elsifArm, "Elsif"), (elseArm, "Else"), (whileLoop, "While"), (forLoop, "For"),
    (forInit, "ForInit"), (forStep, "ForStep"), (cond, "Cond"), (body, "Body"),
    (breakStmt, "Break"), (assign, "Assign"), (arrayInit, "ArrayInit"),
    (indexAssign, "IndexAssign"), (globalSet, "GlobalSet"), (globalGet, "GlobalGet"),
    (require, "Require"), (inlinePir, "InlinePIR"), (callStmt, "CallStmt"), (call, "Call"),
    (args, "Args"), (arg, "Arg"), (literal, "Literal"), (ident, "Ident"),
    (globalRef, "GlobalRef"), (paren, "Paren"), (unary, "Unary"), (binary, "Binary"),
    (compare, "Compare"), (logic, "Logic"), (index, "Index")]

/-- The number of productions. -/
def count : Nat := table.length

/-- The kind with a given code. -/
def ofCode (code : Int) : Kind :=
  if code < 0 then unknown code
  else match table[code.toNat]? with
  | some (kind, _) => kind
  | none => unknown code

/-- The name of a kind. -/
def name : Kind → String
  | unknown code => "Kind(" ++ Numeral.ofWord (Int64.ofInt code) ++ ")"
  | kind => ((table.find? (·.1 = kind)).map (·.2)).getD ""

/-- The kind of a given name. -/
def ofName? (name : String) : Option Kind := (table.find? (·.2 = name)).map (·.1)

end Kind

end ScriptPir
