import ScriptPir.Text.Blank

/-!
# Paths

A path is a text whose parts stand between slashes. It starts at the root of a file system if it starts
with a slash, and else in the directory in which it is used. Nothing here looks at a file system.
-/

namespace ScriptPir

/-- A place in a file system: the names on the way to it from the root. -/
abbrev Place := List String

namespace Path

/-- The parts of a path that are not empty. -/
def parts (path : String) : List String :=
  ((Text.splitOnChar '/' path.toList).filter (· ≠ [])).map String.ofList

/-- Whether a path starts at the root of the file system. -/
def isRooted (path : String) : Bool := path.toList.head? = some '/'

/-- Where a path starts that is used in some directory. -/
def start (here : Place) (path : String) : Place := if isRooted path then [] else here

/-- Whether a path ends with a slash. -/
def endsWithSlash (path : String) : Bool := path.toList.getLast? = some '/'

/-- The last part of a path; a path without any is the current directory or the root. -/
def base (path : String) : String :=
  match (parts path).getLast? with
  | some part => part
  | none => if path = "" then "." else "/"

/-- The end of the last part of a path from its last dot on, or nothing. -/
def extension (path : String) : String :=
  let tail := path.toList.reverse.takeWhile (· ≠ '/')
  if tail.contains '.' then String.ofList ('.' :: (tail.takeWhile (· ≠ '.')).reverse) else ""

/-- Adds a part to a path that is held with its last part first. -/
def push (rooted : Bool) (stack : List String) (part : String) : List String :=
  if part = "." then stack
  else if part = ".." then
    match stack with
    | top :: rest => if top = ".." then part :: stack else rest
    | [] => if rooted then [] else [part]
  else part :: stack

/-- The shortest path to the same place, without parts that lead nowhere. -/
def clean (path : String) : String :=
  let rooted := isRooted path
  let short := "/".intercalate ((parts path).foldl (push rooted) []).reverse
  if rooted then "/" ++ short else if short = "" then "." else short

/-- The path of a name in a directory. An empty text adds nothing. -/
def join (dir name : String) : String :=
  match [dir, name].filter (· ≠ "") with
  | [] => ""
  | named => clean ("/".intercalate named)

/-- A text without an ending, if it has that ending. -/
def dropEnding (s ending : String) : String :=
  let body := s.toList.length - ending.toList.length
  if s.toList.drop body = ending.toList then String.ofList (s.toList.take body) else s

/-- The part of a path before its last part, with the slash between them. -/
def parent (path : String) : String :=
  let rest := (path.toList.reverse.dropWhile (· = '/')).dropWhile (· ≠ '/')
  String.ofList rest.reverse

theorem length_parent_lt (path : String) (h : parent path ≠ "") :
    (parent path).toList.length < path.toList.length := by
  have drop (p : Char → Bool) (l : List Char) : (l.dropWhile p).length ≤ l.length :=
    (List.dropWhile_sublist p).length_le
  -- on the reversed text: a slash or a character of the last element goes, so the rest is shorter
  have two (l : List Char) (hl : l ≠ []) :
      ((l.dropWhile (· = '/')).dropWhile (· ≠ '/')).length < l.length := by
    cases l with
    | nil => exact absurd rfl hl
    | cons c cs =>
      refine Nat.lt_succ_of_le ?_
      by_cases hc : c = '/'
      · simpa [hc] using
          Nat.le_trans (drop (fun x => !decide (x = '/')) _) (drop (fun x => decide (x = '/')) cs)
      · simpa [hc] using drop (fun x => !decide (x = '/')) cs
  have hp : path.toList ≠ [] := by
    intro e
    exact h (by simp [parent, e])
  simpa [parent] using two path.toList.reverse (by simpa using hp)

end Path

end ScriptPir
