import ScriptPir.Text.Case
import ScriptPir.Text.Quoted

/-!
# Levels and formats of the log

A log keeps the records from some level on, and writes them in one of two formats. Both are chosen by
name; a name that is not known is an error of the settings.
-/

namespace ScriptPir.Log

/-- How important a record is. -/
inductive Level where
  | debug
  | info
  | warn
  | error
deriving DecidableEq, Repr, Inhabited

namespace Level

/-- The rank of a level; a log keeps the records of at least its own rank. -/
def code : Level → Nat
  | debug => 0
  | info => 1
  | warn => 2
  | error => 3

/-- The level of a rank. A rank that is none stands for `info`. -/
def ofCode : Int → Level
  | 0 => debug
  | 2 => warn
  | 3 => error
  | _ => info

/-- A level as it is written in records. -/
def name : Level → String
  | debug => "DEBUG"
  | info => "INFO"
  | warn => "WARN"
  | error => "ERROR"

/-- The level of a name, in any case. No name at all stands for `info`. -/
def ofName? (s : String) : Option Level :=
  match Text.lower s with
  | "debug" => some debug
  | "" | "info" => some info
  | "warn" | "warning" => some warn
  | "error" => some error
  | _ => none

/-- Whether a log of this level keeps records of a given one. -/
def keeps (threshold l : Level) : Bool := threshold.code ≤ l.code

end Level

/-- How records are written. -/
inductive Format where
  | text
  | json
deriving DecidableEq, Repr, Inhabited

/-- The format of a name. No name at all stands for `text`. -/
def Format.ofName? : String → Option Format
  | "" | "text" => some .text
  | "json" => some .json
  | _ => none

/-- What is wrong with the settings of a log. -/
inductive SettingError where
  | level (name : String)
  | format (name : String)
deriving DecidableEq, Repr

/-- The text of an error in the settings. -/
def SettingError.message : SettingError → String
  | level name => "unknown log level " ++ Text.quote name
  | format name => "unknown log format " ++ Text.quote name

end ScriptPir.Log
