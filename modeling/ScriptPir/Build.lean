import ScriptPir.Config.Reader
import ScriptPir.Files.Path
import ScriptPir.Log.Logger

/-!
# Building files

Settings are loaded from a file, and sources are compiled from files into files. A program with errors
is never written; what fails for one source does not keep the others from being built.
-/

namespace ScriptPir

variable {m : Type → Type} [Monad m] [Host m]

/-! ## Settings -/

/-- Why settings cannot be loaded. -/
inductive LoadError where
  | file (message : String)
  | content (error : Config.ReadError)
deriving DecidableEq, Repr

/-- The text of an error. -/
def LoadError.message : LoadError → List Glyph
  | file message => Glyph.ofString ("reading config: " ++ message)
  | content error => error.message

/-- Loads settings. A missing file leaves the standard ones. -/
def loadConfig (path : String) : m (Except LoadError Config) := do
  match ← Host.read path with
  | .error e => return if e.cause = .missing then .ok {} else .error (.file e.message)
  | .ok ⟨_, .failure message⟩ => return .error (.file message)
  | .ok ⟨bytes, .eof⟩ => return (Config.ofBytes bytes).mapError .content

/-! ## Directories -/

/--
Makes a directory and all directories above it. It is no error if a directory is there already; where
a file is in its place, nothing is made.
-/
def makeDirectories (path : String) : m (Except FileError Unit) := do
  match ← Host.isDirectory? path with
  | some true => return .ok ()
  | some false => return .error ⟨.making, path, .notDirectory⟩
  | none =>
    let above ←
      if Path.parent path = "" then pure (.ok ()) else makeDirectories (Path.parent path)
    if let .error e := above then return .error e
    match ← Host.makeDirectory path with
    | .ok () => return .ok ()
    | .error e =>
      if (← Host.isDirectory? path) = some true then return .ok () else return .error e
termination_by path.toList.length
decreasing_by exact Path.length_parent_lt _ (by simp_all)

/-! ## Sources -/

/-- Why a source was not built. -/
inductive BuildError where
  | opening (error : FileError)
  | compile (error : CompileError)
  /-- The program has semantic errors. -/
  | semantic (c : Compilation)
  /-- The directory for the output cannot be made. -/
  | directory (c : Compilation) (error : FileError)
  | writing (c : Compilation) (error : FileError)
deriving DecidableEq, Repr

/-- The text of an error. -/
def BuildError.message : BuildError → String
  | opening error => "opening source: " ++ error.message
  | compile error => error.message
  | semantic c => c.errors.text
  | directory _ error => "creating output directory: " ++ error.message
  | writing _ error => "writing output: " ++ error.message

/-- The program that was compiled although it was not built. -/
def BuildError.compilation? : BuildError → Option Compilation
  | opening _ | compile _ => none
  | semantic c | directory c _ | writing c _ => some c

/-- Where the program of a source is written. -/
def outputPath (dir path : String) : String :=
  Path.join dir (Path.dropEnding (Path.base path) (Path.extension path) ++ ".pir")

/-- A program and the path where it was written. -/
structure Built where
  compilation : Compilation
  path : String
deriving DecidableEq, Repr

/-- Writes a program that has no errors. -/
def writeProgram (log : Option Log.Logger) (dir path : String) (c : Compilation) :
    m (Except BuildError Built) := do
  if let .error e ← makeDirectories dir then return .error (.directory c e)
  let target := outputPath dir path
  let bytes := c.output.toUTF8.toList
  if let .error e ← Host.write target bytes then return .error (.writing c e)
  Log.writeNotices log [.outputWritten target bytes.length]
  return .ok ⟨c, target⟩

/-- Compiles a file and writes the program, if it has no errors. -/
def buildFile (log : Option Log.Logger) (config : Config) (path : String) :
    m (Except BuildError Built) := do
  match ← Host.read path with
  | .error e => return .error (.opening e)
  | .ok source =>
    let report := compile source (Path.base path) config (← Host.site)
    Log.writeNotices log report.notices
    match report.outcome with
    | .error e => return .error (.compile e)
    | .ok c =>
      if c.failed then return .error (.semantic c)
      else writeProgram log config.outputDir path c

/-- What is reported of a source that was not built. -/
def BuildError.report (path : String) : BuildError → List String
  | semantic c => c.errors.toList.map fun e => path ++ ": " ++ e.text
  | e => [e.message]

/-- Builds a file and reports the outcome. Says whether it was built. -/
def buildReporting (log : Option Log.Logger) (config : Config) (path : String) : m Bool := do
  match ← buildFile log config path with
  | .ok built =>
    Host.emit .output (built.path ++ "\n")
    return true
  | .error e =>
    (e.report path).forM fun line => Host.emit .errors (line ++ "\n")
    return false

/-- Builds files one after the other. Gives the number of those that failed. -/
def buildAll (log : Option Log.Logger) (config : Config) : List String → m Nat
  | [] => return 0
  | path :: paths => do
    let built ← buildReporting log config path
    let failed ← buildAll log config paths
    return if built then failed else failed + 1

end ScriptPir
