import ScriptPir.Command.Run
import Std.Time.DateTime.Timestamp

/-!
# The program on a real system

Files, streams and the clock of the system, in the form in which the program asks for them.
-/

namespace ScriptPir.Main

/-- The cause of an error of the system. -/
def causeOf : IO.Error → FileCause
  | .noFileOrDirectory .. => .missing
  | .alreadyExists .. => .present
  | .inappropriateType _ 20 _ => .notDirectory
  | .inappropriateType _ 21 _ => .isDirectory
  | .permissionDenied .. => .other "permission denied"
  | e => .other (toString e)

/-- Does something to a path, and turns the error of the system into one of the program. -/
def attempt {α : Type} (action : FileAction) (path : String) (act : IO α) :
    IO (Except FileError α) := do
  match ← act.toBaseIO with
  | .ok a => return .ok a
  | .error e => return .error ⟨action, path, causeOf e⟩

/-- All that can be read from a file, and how it ends. -/
partial def readRest (path : String) (h : IO.FS.Handle) (done : ByteArray) : IO Stream := do
  match ← attempt .reading path (h.read 65536) with
  | .error e => return ⟨done.toList, .failure e.message⟩
  | .ok chunk =>
    if chunk.isEmpty then return ⟨done.toList, .eof⟩ else readRest path h (done ++ chunk)

/-- Opens a file and reads all of it. -/
def readFile (path : String) : IO (Except FileError Stream) := do
  match ← attempt .opening path (IO.FS.Handle.mk path .read) with
  | .error e => return .error e
  | .ok h => return .ok (← readRest path h .empty)

/-- Whether a path leads to a directory, which can be opened but not read. -/
def isDirectory? (path : String) : IO (Option Bool) := do
  match ← attempt .opening path (IO.FS.Handle.mk path .read) with
  | .error _ => return none
  | .ok h => return some (!(← attempt .reading path (h.read 1)).isOk)

/-- Opens a file and writes to it. -/
def writeFile (mode : IO.FS.Mode) (path : String) (content : List UInt8) :
    IO (Except FileError Unit) :=
  attempt .opening path do
    let h ← IO.FS.Handle.mk path mode
    h.write content.toByteArray
    h.flush

/-- The bytes of the next line of input, up to its end; none if there are no more. -/
partial def readLine (input : IO.FS.Stream) (done : ByteArray) : IO (Option (List UInt8)) := do
  let chunk ← input.read 1
  if chunk.isEmpty then return if done.isEmpty then none else some done.toList
  if chunk.toList = [Text.lineFeed] then return some (done ++ chunk).toList
  readLine input (done ++ chunk)

/-- Takes a step for each of some lines. -/
def eachOf {σ : Type} (step : σ → List UInt8 → IO (Step σ)) : σ → List Text.Line → IO (Step σ)
  | s, [] => return .more s
  | s, line :: rest => do
    match ← step s line.bytes with
    | .more s => eachOf step s rest
    | .stop s => return .stop s

/-- Takes a step for each line of input. -/
partial def eachLine {σ : Type} (step : σ → List UInt8 → IO (Step σ)) (s : σ) : IO (Lines σ) := do
  match ← readLine (← IO.getStdin) .empty with
  | none => return .over s
  | some bytes =>
    match ← eachOf step s (Text.lines bytes) with
    | .more s => eachLine step s
    | .stop s => return .stopped s

/-- Writes text and does not keep it back. -/
def put (stream : IO.FS.Stream) (text : String) : IO Unit := do
  stream.putStr text
  stream.flush

/-- A short text that the system keeps in a file, without the end of its line. -/
def readFact (path : String) : IO String := do
  match ← readFile path with
  | .ok s => return Text.trim (Glyph.text (Glyph.ofBytes s.bytes))
  | .error _ => return ""

/-- The name, release and machine of the system. -/
def platform : IO String := do
  let facts ← ["ostype", "osrelease", "arch"].mapM fun name => readFact ("/proc/sys/kernel/" ++ name)
  return " ".intercalate (facts.filter (· ≠ ""))

/-- The moment it is. -/
def now : IO Moment := do
  let seconds := (← Std.Time.Timestamp.now).toSecondsSinceUnixEpoch.val
  return Moment.ofSeconds seconds "UTC" 0

instance : Host IO where
  read := readFile
  isDirectory? := isDirectory?
  makeDirectory path := attempt .making path (IO.FS.createDir path)
  write := writeFile .write
  append := writeFile .append
  emit
    | .output, text => do put (← IO.getStdout) text
    | .errors, text | .report, text => do put (← IO.getStderr) text
  eachLine := eachLine
  site := return ⟨← now, ← platform⟩
  home := return (← IO.getEnv "HOME").getD ""
  version := return "(devel) " ++ (← platform)
  recordTime _ := return some (String.ofList (Stamp.format (← now) "%FT%TZ".toList))

end ScriptPir.Main

/-- Runs a command line. A failure is reported and makes the run fail. -/
def main (args : List String) : IO UInt32 := do
  match ← ScriptPir.Command.run args with
  | .ok () => return 0
  | .error e =>
    let stderr ← IO.getStderr
    stderr.write (ScriptPir.Glyph.toBytes e.message ++ [ScriptPir.Text.lineFeed]).toByteArray
    stderr.flush
    return 1
