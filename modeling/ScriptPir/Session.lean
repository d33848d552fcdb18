import ScriptPir.Files.Path
import ScriptPir.Log.Logger
import ScriptPir.Text.Blank
import ScriptPir.Text.Lines

/-!
# Interactive sessions

A session reads snippets and prints the program that each compiles to. A snippet goes on over lines
as long as a construct is open. Snippets are kept in a history from session to session.
-/

namespace ScriptPir

/-! ## History -/

/-- The snippets of the past, the oldest first. Each is one line. -/
structure History where
  entries : List (List UInt8) := []
deriving DecidableEq, Repr, Inhabited

namespace History

/-- How many snippets are kept. -/
def limit : Nat := 1000

/-- Adds a snippet at the end; the oldest make room for it. -/
def push (h : History) (entry : List UInt8) : History :=
  let entries := h.entries ++ [entry]
  ⟨entries.drop (entries.length - limit)⟩

/-- Adds a snippet unless it is the last one already. -/
def add (h : History) (entry : List UInt8) : History :=
  if h.entries.getLast? = some entry then h else h.push entry

/-- Reads a history. It ends before a line that is too long or not made of characters. -/
def ofBytes (bytes : List UInt8) : History :=
  ((Text.lines bytes).takeWhile fun l =>
    !l.isPiece && (Glyph.text? (Glyph.ofBytes l.bytes)).isSome).foldl
    (fun h l => h.push l.bytes) {}

/-- A history as bytes, one snippet on a line. -/
def toBytes (h : History) : List UInt8 := h.entries.flatMap (· ++ [Text.lineFeed])

/-- The name of the file that keeps the history. -/
def fileName : String := ".rubypir_history"

end History

/-! ## Snippets -/

/-- An interactive session. -/
structure Session where
  /-- The lines of a snippet that is not complete. -/
  pending : List UInt8 := []
  history : History := {}
deriving DecidableEq, Repr, Inhabited

/-- The name of a snippet in messages. -/
def snippetLabel : String := "repl"

/-- What to do with a snippet. -/
inductive Request where
  /-- It is blank. -/
  | ignore
  | quit
  | compile
deriving DecidableEq, Repr

/-- What a snippet asks for. -/
def Request.ofSnippet (snippet : List UInt8) : Request :=
  match Text.trim (Glyph.text (Glyph.ofBytes snippet)) with
  | "" => ignore
  | ":quit" | ":q" => quit
  | _ => compile

/-- Whether more lines are read before a snippet is looked at. A word to the session never waits. -/
def awaitsMore (snippet : List UInt8) : Bool :=
  let glyphs := Glyph.ofBytes snippet
  (Text.trim (Glyph.text glyphs)).toList.head? ≠ some ':' && isIncomplete ⟨glyphs, .eof⟩

namespace Session

/-- What is shown before a line is read. -/
def prompt (s : Session) : String := if s.pending.isEmpty then "rb> " else ".. "

/-- The snippet that a line completes or carries on. -/
def extend (s : Session) (line : List UInt8) : List UInt8 :=
  if s.pending.isEmpty then line else s.pending ++ Text.lineFeed :: line

/-- A snippet as one line of the history. -/
def entry (snippet : List UInt8) : List UInt8 :=
  snippet.map fun b => if b = Text.lineFeed then 32 else b

variable {m : Type → Type} [Monad m] [Host m]

/-- Compiles a snippet and shows the program, or its errors. -/
def answer (log : Option Log.Logger) (config : Config) (snippet : List UInt8) : m Unit := do
  let report := compile ⟨snippet, .eof⟩ snippetLabel config (← Host.site)
  Log.writeNotices log report.notices
  match report.outcome with
  | .error e => Host.emit .report (e.message ++ "\n")
  | .ok c =>
    if c.failed then c.errors.forM fun e => Host.emit .report (e.text ++ "\n")
    else Host.emit .output c.output

/-- Takes a line. -/
def step (log : Option Log.Logger) (config : Config) (s : Session) (line : List UInt8) :
    m (Step Session) := do
  let snippet := s.extend line
  let next : Step Session ←
    if awaitsMore snippet then pure (.more { s with pending := snippet })
    else match Request.ofSnippet snippet with
    | .ignore => pure (.more { s with pending := [] })
    | .quit => pure (.stop { s with pending := [] })
    | .compile =>
      answer log config snippet
      pure (.more { pending := [], history := s.history.add (entry snippet) })
  if let .more s := next then Host.emit .output s.prompt
  return next

/-- Runs a session to the end of input, or until it is told to quit. -/
def run (log : Option Log.Logger) (config : Config) : m Unit := do
  let path := Path.join (← Host.home) History.fileName
  let history := match ← Host.read path with
    | .ok stream => History.ofBytes stream.bytes
    | .error _ => {}
  let start : Session := { history }
  Host.emit .output start.prompt
  let finish ← match ← Host.eachLine (step log config) start with
    | .over s => Host.emit .output "\n"; pure s
    | .stopped s => pure s
  let _ ← Host.write path finish.history.toBytes

end Session

end ScriptPir
