import ScriptPir.Files.Error
import ScriptPir.Files.Path

/-!
# File stores

A file system as a value: directories and files with their content, below a root. A path is used in some
directory, in which it starts unless it starts at the root. What it means is decided part by part, as a
system would: every part but the last has to be a directory, two dots lead to the directory above, and a
slash at the end asks for a directory too.
-/

namespace ScriptPir

/-- What a path can lead to. -/
inductive Entry where
  | directory
  | file (content : List UInt8)
deriving DecidableEq, Repr, Inhabited

/-- Whether an entry is a directory. -/
def Entry.isDirectory : Entry → Bool
  | directory => true
  | file _ => false

/-- A file system. Its root is always there. -/
structure FileStore where
  entries : List (Place × Entry) := []
deriving DecidableEq, Repr, Inhabited

namespace FileStore

/-- The entry at a place. -/
def at? (s : FileStore) : Place → Option Entry
  | [] => some .directory
  | place => s.entries.lookup place

/-- Puts an entry at a place. -/
def put (s : FileStore) (place : Place) (e : Entry) : FileStore :=
  if (s.entries.lookup place).isSome then
    ⟨s.entries.map fun (p, old) => if p = place then (p, e) else (p, old)⟩
  else ⟨s.entries ++ [(place, e)]⟩

/-- Follows the parts of a path from a directory. Above the root there is the root again. -/
def follow (s : FileStore) : Place → List String → Except FileCause Place
  | place, [] => .ok place
  | place, part :: rest =>
    match s.at? place with
    | none => .error .missing
    | some (.file _) => .error .notDirectory
    | some .directory =>
      if part = "." then s.follow place rest
      else if part = ".." then s.follow place.dropLast rest
      else if (s.at? (place ++ [part])).isSome then s.follow (place ++ [part]) rest
      else .error .missing

/-- The place and the entry that a path leads to from a directory. -/
def find (s : FileStore) (here : Place) (path : String) : Except FileCause (Place × Entry) := do
  if path = "" then throw .missing
  let place ← s.follow (Path.start here path) (Path.parts path)
  match s.at? place with
  | none => throw .missing
  | some e =>
    if Path.endsWithSlash path && !e.isDirectory then throw .notDirectory
    return (place, e)

/-- Whether a path leads to a directory; none if it leads nowhere. -/
def isDirectory? (s : FileStore) (here : Place) (path : String) : Option Bool :=
  match s.find here path with
  | .ok (_, e) => some e.isDirectory
  | .error _ => none

/-- Where the last part of a path would be made; none if that part is no name of its own. -/
def slot (s : FileStore) (here : Place) (path : String) : Except FileCause (Option Place) := do
  if path = "" then throw .missing
  let parts := Path.parts path
  let place ← s.follow (Path.start here path) parts.dropLast
  match s.at? place with
  | some .directory =>
    match parts.getLast? with
    | none | some "." | some ".." => return none
    | some name => return some (place ++ [name])
  | some (.file _) => throw .notDirectory
  | none => throw .missing

/-- The place at which a file can be written, and what it holds now. -/
def fileSlot (s : FileStore) (here : Place) (path : String) :
    Except FileCause (Place × List UInt8) := do
  match ← s.slot here path with
  | none => throw .isDirectory
  | some place =>
    if Path.endsWithSlash path then throw .isDirectory
    match s.at? place with
    | some .directory => throw .isDirectory
    | some (.file content) => return (place, content)
    | none => return (place, [])

/-- Writes a file, in the place of what it held. -/
def write (s : FileStore) (here : Place) (path : String) (content : List UInt8) :
    Except FileCause FileStore := do
  let (place, _) ← s.fileSlot here path
  return s.put place (.file content)

/-- Writes at the end of a file, which is made if it is not there. -/
def append (s : FileStore) (here : Place) (path : String) (content : List UInt8) :
    Except FileCause FileStore := do
  let (place, old) ← s.fileSlot here path
  return s.put place (.file (old ++ content))

/-- Makes a directory. -/
def makeDirectory (s : FileStore) (here : Place) (path : String) : Except FileCause FileStore := do
  match ← s.slot here path with
  | none => throw .present
  | some place =>
    if (s.at? place).isSome then throw .present
    return s.put place .directory

/-- Adds a file or, for a name that ends with a slash, a directory, with all directories above it. The
name is read from the root. -/
def install (s : FileStore) (name : String) (content : List UInt8) : FileStore :=
  let parts := Path.parts name
  let last := if Path.endsWithSlash name then Entry.directory else .file content
  let above := (List.range parts.length).map parts.take
  let s := above.foldl (fun s place =>
    if (s.at? place).isSome then s else s.put place .directory) s
  s.put parts last

/-- The files of a store by their paths from the root. -/
def files (s : FileStore) : List (String × List UInt8) :=
  s.entries.filterMap fun
    | (place, .file content) => some ("/".intercalate place, content)
    | (_, .directory) => none

/-- The files of a store that are not the same in an older one. -/
def changed (s old : FileStore) : List (String × List UInt8) :=
  let before := old.files
  s.files.filter fun (path, content) => before.lookup path ≠ some content

end FileStore

end ScriptPir
