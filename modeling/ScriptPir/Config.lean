import ScriptPir.Encoding
import ScriptPir.Log.Level

/-!
# Settings

The settings of the compiler, their standard values and what makes them usable.
-/

namespace ScriptPir

/-- The settings of the log. -/
structure LogConfig where
  level : String := "info"
  format : String := "text"
  file : String := ""
deriving DecidableEq, Repr, Inhabited

/-- The settings of the compiler. The values given here are the standard ones. -/
structure Config where
  /-- Where compiled files are written. -/
  outputDir : String := "out"
  /-- The library that programs include. -/
  stdlib : String := "stdlib/stdlib.pir"
  /-- The encoding of sources. -/
  encoding : String := "utf-8"
  /-- The format of the time in the header; without one there is no header. -/
  stamp : String := ""
  /-- Whether the header names the host. -/
  host : Bool := false
  log : LogConfig := {}
deriving DecidableEq, Repr, Inhabited

/-- Settings of the log with every value empty. -/
def LogConfig.empty : LogConfig := ⟨"", "", ""⟩

/-- Settings with every value empty. -/
def Config.empty : Config := ⟨"", "", "", "", false, .empty⟩

/-- Settings of a log in the form in which a log is opened. -/
structure Log.Settings where
  level : Log.Level := .info
  format : String := "text"
  file : String := ""
deriving DecidableEq, Repr, Inhabited

/-- The settings of the log in the form in which it is opened. -/
def LogConfig.settings (c : LogConfig) : Except Log.SettingError Log.Settings := do
  let some level := Log.Level.ofName? c.level | throw (.level c.level)
  if (Log.Format.ofName? c.format).isNone then throw (.format c.format)
  return { level, format := if c.format = "" then "text" else c.format, file := c.file }

/-- Why settings cannot be used. -/
inductive ConfigError where
  | noOutputDir
  | encoding (name : String)
  | log (error : Log.SettingError)
deriving DecidableEq, Repr

/-- The text of an error in the settings. -/
def ConfigError.message : ConfigError → String
  | noOutputDir => "config: output_dir must not be empty"
  | encoding name => "config: " ++ Encoding.unknownMessage name
  | log error => "config: " ++ error.message

/-- Checks that settings can be used. -/
def Config.validate (c : Config) : Except ConfigError Unit := do
  if c.outputDir = "" then throw .noOutputDir
  if (Encoding.ofName? c.encoding).isNone then throw (.encoding c.encoding)
  match c.log.settings with
  | .ok _ => return
  | .error e => throw (.log e)

end ScriptPir
