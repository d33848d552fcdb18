import ScriptPir.Tree.Kind
import ScriptPir.Value.Literal

/-!
# Contract violations

A tree made by the parser can always be lowered. A tree made otherwise may break what the lowering
relies on; each way of doing so is a violation.
-/

namespace ScriptPir

/-- What a malformed tree, or a part used out of turn, broke. -/
inductive Violation where
  /-- The walk came to a child that is not there. -/
  | absentNode
  /-- The walk came to a node a second time. -/
  | repeatedNode (id : Int)
  | noDescriptor (id : Int)
  | noFragment (kind : Kind) (id : Int)
  | bufferUnderflow
  | noBuffer
  | scopeUnderflow
  | noScope
  | frameUnderflow
  | noFrame
  | loopUnderflow
  | breakOutsideLoop
  | elsifWithoutEnd
  | openBuffers (count : Nat)
  | openFrames
  | unknownEnter (kind : Kind)
  | unknownExit (kind : Kind)
  | unknownUnary (op : String)
  | unknownBoolean (op : String)
  | badIndex (array : String) (kind : ValueKind)
  | badLiteral (error : LiteralError)
  | invalidValue (kind : ValueKind)
  | reused
  /-- A node lacks a child that its production has. -/
  | missingChild
deriving DecidableEq, Repr

namespace Violation

/-- An id as it is written in messages. -/
def idText (id : Int) : String := Numeral.ofWord (Int64.ofInt id)

/-- What was broken. -/
def reason : Violation → String
  | absentNode => "walk reached a nil node"
  | repeatedNode id => "walk reached node " ++ idText id ++ " twice"
  | noDescriptor id => "no descriptor for node " ++ idText id
  | noFragment kind id => "no fragment for " ++ kind.name ++ " node " ++ idText id
  | bufferUnderflow => "buffer stack underflow"
  | noBuffer => "write with no buffer"
  | scopeUnderflow => "scope stack underflow"
  | noScope => "no current scope"
  | frameUnderflow => "label stack underflow"
  | noFrame => "label stack is empty"
  | loopUnderflow => "loop stack underflow"
  | breakOutsideLoop => "break outside of a loop"
  | elsifWithoutEnd => "elsif without an end label"
  | openBuffers count => "program ended with " ++ Numeral.ofNat count ++ " open buffers"
  | openFrames => "program ended with open label frames"
  | unknownEnter kind => "enter of unknown node kind " ++ kind.name
  | unknownExit kind => "exit of unknown node kind " ++ kind.name
  | unknownUnary op => "unknown unary operator " ++ op
  | unknownBoolean op => "unknown boolean operator " ++ op
  | badIndex array kind => "index of " ++ array ++ " is a " ++ kind.name
  | badLiteral error => error.message
  | invalidValue kind => "render of invalid " ++ kind.name
  | reused => "translator reused"
  | missingChild => "missing child"

/-- The whole message. -/
def message (v : Violation) : String := "contract violation: " ++ v.reason

end Violation

end ScriptPir
