import ScriptPir.Compile
import ScriptPir.Files.Error

/-!
# Hosts

What the program asks of the system it runs on: files, lines of input, places to write to, and the
time and name of the system. The program is written once over this interface.
-/

namespace ScriptPir

/-- Where text is written to. -/
inductive Channel where
  /-- What the program was asked for. -/
  | output
  /-- What a command reports of its errors. -/
  | errors
  /-- What the process as a whole reports: the log, and errors of an interactive session. -/
  | report
deriving DecidableEq, Repr

/-- Whether to go on after a line of input. -/
inductive Step (σ : Type) where
  | more (s : σ)
  | stop (s : σ)

/-- How a run through the lines of input ended. -/
inductive Lines (σ : Type) where
  /-- The lines were over. -/
  | over (s : σ)
  /-- A step said to stop. -/
  | stopped (s : σ)

/-- What a system offers. -/
class Host (m : Type → Type) where
  /-- Opens a file and reads all of it. -/
  read : String → m (Except FileError Stream)
  /-- Whether a path leads to a directory; none if it leads nowhere. -/
  isDirectory? : String → m (Option Bool)
  makeDirectory : String → m (Except FileError Unit)
  /-- Writes a file, in the place of what it held. -/
  write : String → List UInt8 → m (Except FileError Unit)
  /-- Writes at the end of a file, which is made if it is not there. -/
  append : String → List UInt8 → m (Except FileError Unit)
  emit : Channel → String → m Unit
  /-- Takes a step for each line of input, without the end of the line. -/
  eachLine : {σ : Type} → (σ → List UInt8 → m (Step σ)) → σ → m (Lines σ)
  /-- When and where a compilation takes place. -/
  site : m Site
  /-- The directory of the user. -/
  home : m String
  /-- The version of the program and of the system. -/
  version : m String
  /-- The time of a log record in a format, if records have one. -/
  recordTime : Log.Format → m (Option String)

end ScriptPir
