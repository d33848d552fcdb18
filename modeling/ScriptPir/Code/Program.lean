import ScriptPir.Code.Functions
import ScriptPir.Code.Instr

/-!
# Assembled programs

A program is its main subroutine, the libraries it includes and the functions it calls.
-/

namespace ScriptPir

/-- The library that every program includes unless told otherwise. -/
def defaultStdlib : String := "stdlib/stdlib.pir"

/-- An assembled program. -/
structure Program where
  main : Fragment
  stdlib : String
  requires : List String
  functions : List (FunctionRecord Fragment)
deriving Repr, Inhabited

/-- The line that includes a library. -/
def renderInclude (path : String) : String := Layout.directive (".include \"" ++ path ++ "\"")

/-- A function as text. -/
def FunctionRecord.render (r : FunctionRecord Fragment) : String := renderSub r.name r.code

/-- A program as text. -/
def Program.render (p : Program) : String :=
  renderSub "main" p.main ++ "\n" ++ renderInclude p.stdlib ++
    String.join (p.requires.map renderInclude) ++ renderFunctions FunctionRecord.render p.functions

end ScriptPir
