import ScriptPir.Compile
import ScriptPir.Text.Blank

/-!
# Expectations on a compilation

What can be asked of the outcome of a compilation. Output is compared line by line, without the white
space around its lines and without blank lines.
-/

namespace ScriptPir

/-- Whether `want` can be found in `have'` in order, not necessarily side by side. -/
def inOrder (have' want : List String) : Bool :=
  match have', want with
  | _, [] => true
  | [], _ :: _ => false
  | h :: hs, w :: ws => if h = w then inOrder hs ws else inOrder hs (w :: ws)

/-- Whether a list can be found in another, side by side. -/
def occursIn (part whole : List Char) : Bool :=
  match whole with
  | [] => part.isEmpty
  | c :: cs => part.isPrefixOf (c :: cs) || occursIn part cs

/-- What is expected of a compilation. -/
inductive Expectation where
  /-- There are no errors. -/
  | success
  /-- There is an error of any kind. -/
  | failure
  /-- There are no errors, and every one of some lines is in the output. -/
  | contains (lines : List String)
  /-- There are no errors, and none of some texts is part of any line of the output. -/
  | notContains (texts : List String)
  /-- There are no errors, and some lines are in the output in order. -/
  | linesInOrder (lines : List String)
  /-- There are no errors, and the output has exactly some lines. -/
  | exactly (lines : List String)
  /-- There are exactly some semantic errors. -/
  | errors (texts : List String)
deriving DecidableEq, Repr

/-- The lines of the output of a compilation without errors. -/
def outputLines? : Except CompileError Compilation → Option (List String)
  | .ok c => if c.failed then none else some (Text.trimmedLines c.output)
  | .error _ => none

/-- Whether an outcome is as expected. -/
def Expectation.holds (outcome : Except CompileError Compilation) : Expectation → Bool
  | success => (outputLines? outcome).isSome
  | failure => (outputLines? outcome).isNone
  | contains lines => (outputLines? outcome).any fun have' => lines.all have'.contains
  | notContains texts => (outputLines? outcome).any fun have' =>
      have'.all fun l => texts.all fun t => !occursIn t.toList l.toList
  | linesInOrder lines => (outputLines? outcome).any (inOrder · lines)
  | exactly lines => (outputLines? outcome).any (· = lines)
  | errors texts =>
    match outcome with
    | .ok c => c.failed && c.errors.toList.map SemanticError.text = texts
    | .error _ => false

end ScriptPir
