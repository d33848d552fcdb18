/-!
# Lines of bytes

Input comes in lines that end with a line feed, or with a carriage return and a line feed. A line is
held in a buffer of fixed size; one that does not fit comes in pieces.
-/

namespace ScriptPir.Text

/-- How many bytes of a line are held at once. -/
def lineBuffer : Nat := 4096

/-- A line, or a piece of a line that goes on. -/
structure Line where
  bytes : List UInt8
  isPiece : Bool := false
deriving DecidableEq, Repr

/-- A line feed. -/
def lineFeed : UInt8 := 10

/-- A carriage return. -/
def carriageReturn : UInt8 := 13

/-- A list without a carriage return at its end. -/
def dropReturn (bytes : List UInt8) : List UInt8 :=
  if bytes.getLast? = some carriageReturn then bytes.dropLast else bytes

/--
The first line of some bytes, and how many bytes it takes up. A piece never ends with a carriage
return, which could belong to the end of the line.
-/
def firstLine (bytes : List UInt8) : Line × Nat :=
  let held := bytes.take lineBuffer
  let body := held.takeWhile (· ≠ lineFeed)
  if body.length < held.length then (⟨dropReturn body, false⟩, body.length + 1)
  else if held.length < lineBuffer then (⟨held, false⟩, held.length)
  else (⟨dropReturn held, true⟩, (dropReturn held).length)

/-- The lines of some bytes. The last one need not have an end. -/
def lines : List UInt8 → List Line
  | [] => []
  | b :: rest =>
    let (line, width) := firstLine (b :: rest)
    line :: lines (rest.drop (width - 1))
termination_by bytes => bytes.length
decreasing_by simp only [List.length_drop, List.length_cons]; omega

end ScriptPir.Text
