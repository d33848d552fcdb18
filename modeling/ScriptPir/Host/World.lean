import ScriptPir.Files.Store
import ScriptPir.Host

/-!
# Worlds

A *world* is a value that answers in the place of a system, so that a whole run of the program can be
computed and reasoned about.
-/

namespace ScriptPir

/-- A system as a value. -/
structure World where
  files : FileStore := {}
  /-- The directory in which the program runs. -/
  current : Place := []
  /-- The lines of input that have not been read. -/
  input : List (List UInt8) := []
  /-- What was written, in order. -/
  written : Array (Channel × String) := #[]
  site : Site := default
  version : String := ""
deriving Inhabited

namespace World

/-- What was written to a channel. -/
def textOn (w : World) (c : Channel) : String :=
  String.join ((w.written.toList.filter (·.1 = c)).map (·.2))

/-- Reads a file. A directory can be opened, but not read. -/
def read (path : String) (w : World) : Except FileError Stream :=
  match w.files.find w.current path with
  | .ok (_, .file content) => .ok ⟨content, .eof⟩
  | .ok (_, .directory) => .ok ⟨[], .failure (FileError.message ⟨.reading, path, .isDirectory⟩)⟩
  | .error cause => .error ⟨.opening, path, cause⟩

/-- Changes the files from the directory in which the program runs, or fails and leaves them as they are. -/
def change (action : FileAction) (path : String)
    (f : FileStore → Place → Except FileCause FileStore) (w : World) :
    Except FileError Unit × World :=
  match f w.files w.current with
  | .ok files => (.ok (), { w with files })
  | .error cause => (.error ⟨action, path, cause⟩, w)

/-- Takes a step for each of some lines, which are taken off the input. -/
def eachLine {σ : Type} (step : σ → List UInt8 → StateM World (Step σ)) :
    σ → List (List UInt8) → StateM World (Lines σ)
  | s, [] => return .over s
  | s, line :: rest => do
    modify fun w => { w with input := rest }
    match ← step s line with
    | .more s => eachLine step s rest
    | .stop s => return .stopped s

instance : Host (StateM World) where
  read path := return World.read path (← get)
  isDirectory? path := return (← get).files.isDirectory? (← get).current path
  makeDirectory path := World.change .making path (·.makeDirectory · path)
  write path content := World.change .opening path (·.write · path content)
  append path content := World.change .opening path (·.append · path content)
  emit channel text := modify fun w => { w with written := w.written.push (channel, text) }
  eachLine step s := do World.eachLine step s (← get).input
  site := return (← get).site
  home := return "."
  version := return (← get).version
  recordTime _ := return none

end World

end ScriptPir
