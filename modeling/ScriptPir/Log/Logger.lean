import ScriptPir.Host
import ScriptPir.Log.Record

/-!
# Logs

A log is a level, a format and a place for its records: the report of the process, or the end of a
file. Without a log nothing is written.
-/

namespace ScriptPir.Log

/-- Where records go. -/
inductive Sink where
  | report
  | file (path : String)
deriving DecidableEq, Repr

/-- A log that keeps the records from some level on. -/
structure Logger where
  level : Level
  format : Format
  sink : Sink
deriving DecidableEq, Repr

/-- Why a log cannot be opened. -/
inductive OpenError where
  | file (error : FileError)
  | setting (error : SettingError)
deriving DecidableEq, Repr

/-- The text of an error. -/
def OpenError.message : OpenError → String
  | file error => "opening log file: " ++ error.message
  | setting error => error.message

variable {m : Type → Type} [Monad m] [Host m]

/-- Opens a log. Its file, if it has one, is made before its format is looked at. -/
def Logger.open (s : Settings) : m (Except OpenError Logger) := do
  let sink : Sink := if s.file = "" then .report else .file s.file
  if let .file path := sink then
    if let .error e ← Host.append path [] then return .error (.file e)
  match Format.ofName? s.format with
  | some format => return .ok ⟨s.level, format, sink⟩
  | none => return .error (.setting (.format s.format))

/-- Whether a log keeps the records of a level. Without a log there is a silent one for `info`. -/
def enabled (log : Option Logger) (l : Level) : Bool :=
  ((log.map Logger.level).getD .info).keeps l

/-- Writes a record, if the log keeps it. -/
def Logger.write (log : Logger) (r : Record) : m Unit := do
  if log.level.keeps r.level then
    let line := { r with time := ← Host.recordTime log.format }.render log.format ++ "\n"
    match log.sink with
    | .report => Host.emit .report line
    | .file path => let _ ← Host.append path line.toUTF8.toList

/-- Writes a record, if there is a log. -/
def write (log : Option Logger) (r : Record) : m Unit :=
  match log with
  | some log => log.write r
  | none => pure ()

/-- Writes the records of some events. -/
def writeNotices (log : Option Logger) (ns : List Notice) : m Unit :=
  ns.forM fun n => write log (ofNotice n)

end ScriptPir.Log
