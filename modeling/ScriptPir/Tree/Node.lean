import ScriptPir.Token
import ScriptPir.Tree.Kind

/-!
# Tree nodes

A program is a tree of nodes. Every node has a number, its *id*, by which what is found out about
it is remembered. A tree made from a request may lack a child, which is an absent node.
-/

namespace ScriptPir

/-- A node of a tree. -/
inductive Node where
  /-- A child that is not there. -/
  | absent
  /-- A node with its children. The token of an inner node is the first of its production. -/
  | mk (id : Int) (kind : Kind) (token : Token) (children : List Node)
deriving Repr, Inhabited

namespace Node

/-- The number of a node. -/
def id : Node → Int
  | mk id _ _ _ => id
  | absent => 0

/-- The production of a node. -/
def kind : Node → Kind
  | mk _ kind _ _ => kind
  | absent => .terminal

/-- The token of a node. -/
def token : Node → Token
  | mk _ _ token _ => token
  | absent => {}

/-- The children of a node. -/
def children : Node → List Node
  | mk _ _ _ children => children
  | absent => []

/-- The line on which a node's production starts. -/
def line (n : Node) : Int := n.token.line

/-- The child with a given index, if it is there. -/
def child? (n : Node) (i : Nat) : Option Node :=
  match n.children[i]? with
  | some (mk id kind token children) => some (mk id kind token children)
  | some absent | none => none

mutual

/-- The texts of the tokens below a node, one after the other. -/
def text : Node → String
  | absent => ""
  | mk _ kind token children => if kind = .terminal then token.text else texts children

/-- The texts of the tokens below some nodes. -/
def texts : List Node → String
  | [] => ""
  | n :: ns => n.text ++ texts ns

end

/-- The index of the operator among the children of a node. -/
def opIndex? (n : Node) : Option Nat :=
  match n.kind with
  | .binary | .compare | .logic | .assign | .arrayInit | .indexAssign | .globalSet | .globalGet =>
    some 1
  | .unary => some 0
  | _ => none

/-- The operator of a node, if its production has one. -/
def op? (n : Node) : Option Node := n.opIndex?.bind n.child?

mutual

/-- The nodes of a tree, a node before its children, put in front of a list. -/
def nodesOnto (acc : List Node) : Node → List Node
  | absent => acc
  | mk id kind token children => mk id kind token children :: nodesOntoAll acc children

/-- The nodes of some trees, put in front of a list. -/
def nodesOntoAll (acc : List Node) : List Node → List Node
  | [] => acc
  | n :: ns => nodesOnto (nodesOntoAll acc ns) n

end

/-- The nodes of a tree in the order of their ids, which is the order they were made in. -/
def arena (n : Node) : List Node := (nodesOnto [] n).mergeSort fun a b => a.id ≤ b.id

end Node

end ScriptPir
