/-!
# Errors of the file system

An operation on a path fails for one of a few causes. The message names all three.
-/

namespace ScriptPir

/-- Why an operation on a path fails. -/
inductive FileCause where
  | missing
  | notDirectory
  | isDirectory
  | present
  /-- Any other cause, in the words of the system. -/
  | other (text : String)
deriving DecidableEq, Repr

/-- The text of a cause. -/
def FileCause.text : FileCause → String
  | missing => "no such file or directory"
  | notDirectory => "not a directory"
  | isDirectory => "is a directory"
  | present => "file exists"
  | other text => text

/-- The operations that are named in messages. -/
inductive FileAction where
  | opening
  | reading
  | making
deriving DecidableEq, Repr

/-- The name of an operation. -/
def FileAction.name : FileAction → String
  | opening => "open"
  | reading => "read"
  | making => "mkdir"

/-- An operation that failed. -/
structure FileError where
  action : FileAction
  path : String
  cause : FileCause
deriving DecidableEq, Repr

/-- The text of an error. -/
def FileError.message (e : FileError) : String :=
  e.action.name ++ " " ++ e.path ++ ": " ++ e.cause.text

end ScriptPir
