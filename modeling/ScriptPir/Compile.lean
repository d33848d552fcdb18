import ScriptPir.Config
import ScriptPir.Lowering.Tree
import ScriptPir.Stamp.Format
import ScriptPir.Tree.Statement

/-!
# Compiling a source

Bytes are decoded, parsed and lowered. A source that does not parse gives nothing but its error; one
with semantic errors still gives a program, which is only meant to be looked at. Beside its outcome, a
compilation reports the events it passed through.
-/

namespace ScriptPir

/-- When and where a compilation takes place. -/
structure Site where
  moment : Moment
  platform : String
deriving DecidableEq, Repr, Inhabited

/-- The comment at the head of a compiled program; there is none without a format for its time. -/
def header (label : String) (c : Config) (site : Site) : String :=
  if c.stamp = "" then ""
  else
    "# generated by rubypir from " ++ label ++ " on " ++
      String.ofList (Stamp.format site.moment c.stamp.toList) ++ "\n" ++
      if c.host then "# host: " ++ site.platform ++ "\n" else ""

/-- A program that was compiled. -/
structure Compilation where
  label : String
  output : String
  /-- The semantic errors, sorted by line. -/
  errors : ErrorList
deriving DecidableEq, Repr

/-- Whether the program has errors, so that its output must not be used. -/
def Compilation.failed (c : Compilation) : Bool := !c.errors.isEmpty

/-- Why a source gives no program at all. -/
inductive CompileError where
  | encoding (name : String)
  /-- The source of some name does not parse. -/
  | parse (label : String) (error : SyntaxError)
  /-- The tree of the source breaks a rule that trees have to keep. -/
  | violation (v : Violation)
deriving DecidableEq, Repr

/-- The text of an error. -/
def CompileError.message : CompileError → String
  | encoding name => Encoding.unknownMessage name
  | parse label error => error.message label
  | violation v => v.message

/-- The outcome of a compilation, and the events on the way to it. -/
structure Report where
  notices : List Notice
  outcome : Except CompileError Compilation

/-- Lowers the tree of a source. -/
def compileTree (root : Node) (label : String) (c : Config) (site : Site) : Report :=
  match lower root label (if c.stdlib = "" then defaultStdlib else c.stdlib) with
  | .error v => ⟨[.phaseStarted "translate" label], .error (.violation v)⟩
  | .ok s =>
    ⟨s.notices.toList, .ok ⟨label, header label c site ++ s.output, s.errors.sort⟩⟩

/-- Compiles a source of some name. -/
def compile (source : Stream) (label : String) (c : Config) (site : Site) : Report :=
  match Encoding.ofName? c.encoding with
  | none => ⟨[], .error (.encoding c.encoding)⟩
  | some encoding =>
    match parse (encoding.decode source) with
    | .error e => ⟨[.phaseStarted "parse" label], .error (.parse label e)⟩
    | .ok root =>
      let report := compileTree root label c site
      { report with
        notices := .phaseStarted "parse" label :: .phaseCompleted "parse" label :: report.notices }

/-- Whether a text ends in the middle of a construct, so that more lines may complete it. -/
def isIncomplete (source : Source) : Bool :=
  match parse source with
  | .error e => e.incomplete
  | .ok _ => false

end ScriptPir
