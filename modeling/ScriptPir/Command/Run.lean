import ScriptPir.Build
import ScriptPir.Command.Invocation
import ScriptPir.Session

/-!
# Running commands

A command first loads the settings and opens the log; then it does its work. A run fails with one
message.
-/

namespace ScriptPir.Command

/-- Why a run fails. -/
inductive Failure where
  | usage (error : UsageError)
  | load (error : LoadError)
  | setting (error : Log.SettingError)
  | log (error : Log.OpenError)
  | config (error : ConfigError)
  /-- So many of all files were not built. -/
  | files (failed all : Nat)
deriving DecidableEq, Repr

/-- The text of a failure. -/
def Failure.message : Failure → List Glyph
  | usage error => Glyph.ofString error.message
  | load error => error.message
  | setting error => Glyph.ofString error.message
  | log error => Glyph.ofString error.message
  | config error => Glyph.ofString error.message
  | files failed all =>
    Glyph.ofString (Numeral.ofNat failed ++ " of " ++ Numeral.ofNat all ++ " files failed to compile")

/-- What is printed for help. -/
def helpText : String := "\n".intercalate
  ["rubypir compiles a small Ruby-like scripting language to PIR, the",
    "intermediate representation of the Parrot virtual machine.", "",
    "Usage:",
    "  rubypir build [-o dir] [-e encoding] file.rb...",
    "  rubypir repl",
    "  rubypir version", "",
    "Flags:",
    "      --config string   configuration file (default \"rubypir.yaml\")",
    "  -h, --help            help for rubypir",
    "  -v, --verbose         log compiler phases", ""]

variable {m : Type → Type} [Monad m] [Host m]

/-- Loads the settings and opens the log. -/
def setup (configPath : String) (verbose : Bool) : m (Except Failure (Config × Log.Logger)) := do
  match ← loadConfig configPath with
  | .error e => return .error (.load e)
  | .ok config =>
    match config.log.settings with
    | .error e => return .error (.setting e)
    | .ok settings =>
      let level := if verbose then .debug else settings.level
      match ← Log.Logger.open { settings with level } with
      | .error e => return .error (.log e)
      | .ok log => return .ok (config, log)

/-- Builds files. It fails if one of them does, after all of them were tried. -/
def buildFiles (log : Log.Logger) (config : Config) (files : List String) :
    m (Except Failure Unit) := do
  match config.validate with
  | .error e => return .error (.config e)
  | .ok () =>
    let failed ← buildAll log config files
    return if failed = 0 then .ok () else .error (.files failed files.length)

/-- Does a job. -/
def Job.run (log : Log.Logger) (config : Config) : Job → m (Except Failure Unit)
  | .build files outputDir encoding =>
    buildFiles log { config with
      outputDir := outputDir.getD config.outputDir
      encoding := encoding.getD config.encoding } files
  | .repl => do
    Session.run log config
    return .ok ()
  | .version => do
    Host.emit .output ("rubypir " ++ (← Host.version) ++ "\n")
    return .ok ()

/-- Does what an invocation asks for. -/
def Invocation.exec : Invocation → m (Except Failure Unit)
  | .help => do
    Host.emit .output helpText
    return .ok ()
  | .run job configPath verbose => do
    match ← setup configPath verbose with
    | .error e => return .error e
    | .ok (config, log) => job.run log config

/-- Runs a command line. -/
def run (args : List String) : m (Except Failure Unit) :=
  match Invocation.ofArgs args with
  | .error e => return .error (.usage e)
  | .ok invocation => invocation.exec

end ScriptPir.Command
