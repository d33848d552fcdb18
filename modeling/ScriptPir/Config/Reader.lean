import ScriptPir.Config
import ScriptPir.Text.Blank
import ScriptPir.Text.Glyph
import ScriptPir.Yaml.Resolve

/-!
# Settings from YAML

A document changes the standard settings field by field. All fields that are unknown, repeated or of
the wrong type are reported together, in the order of the document; settings that were read must also
be usable. A key `<<` merges other mappings into the one that it stands in.
-/

namespace ScriptPir.Config

/-- The types of settings, as messages name them. -/
inductive Target where
  | bool
  | string
  | config
  | logConfig
deriving DecidableEq, Repr

/-- The name of a type in messages. -/
def Target.name : Target → String
  | bool => "bool"
  | string => "string"
  | config => "rubypir.Config"
  | logConfig => "rubypir.LogConfig"

/-- Something in a document that does not fit the settings. -/
inductive Misfit where
  /-- A scalar of the wrong type. -/
  | scalar (line : Nat) (meaning : Yaml.Meaning) (text : String) (target : Target)
  | sequence (line : Nat) (target : Target)
  | mapping (line : Nat) (target : Target)
  | unknown (line : Nat) (field : String) (target : Target)
  | repeated (line : Nat) (field : String) (target : Target)
deriving DecidableEq, Repr

/--
What is shown of a text: all of it, or the first seven bytes if it has more than ten. The cut can go
through a character, which leaves stray bytes.
-/
def excerpt (text : String) : List Glyph :=
  if 10 < text.utf8ByteSize then
    Glyph.ofBytes (text.toUTF8.toList.take 7) ++ Glyph.ofString "..."
  else Glyph.ofString text

/-- The text of a misfit. -/
def Misfit.message (m : Misfit) : List Glyph :=
  let plain := Glyph.ofString
  let at' := fun line => "line " ++ Numeral.ofNat line ++ ": "
  match m with
  | scalar line meaning text target =>
    plain (at' line ++ "cannot unmarshal " ++ meaning.tag ++ " `") ++ excerpt text ++
      plain ("` into " ++ target.name)
  | sequence line target => plain (at' line ++ "cannot unmarshal !!seq into " ++ target.name)
  | mapping line target => plain (at' line ++ "cannot unmarshal !!map into " ++ target.name)
  | unknown line field target =>
    plain (at' line ++ "field " ++ field ++ " not found in type " ++ target.name)
  | repeated line field target =>
    plain (at' line ++ "field " ++ field ++ " already set in type " ++ target.name)

/-- Reading with what did not fit so far. A document that makes no sense at all ends it. -/
abbrev Reading := StateT (List Misfit) (Except Yaml.Fault)

/-- Reports something that does not fit. -/
def report (m : Misfit) : Reading Unit := modify (· ++ [m])

/-- Reports a whole node, which then has no value. -/
def misfit {α : Type} (target : Target) (n : Yaml.Node) : Reading (Option α) := do
  report <| match n with
    | .scalar line plain text => .scalar line (Yaml.meaning plain text) text target
    | .sequence line _ => .sequence line target
    | .mapping line _ => .mapping line target
  return none

/-- Reads a text. Scalars of all types will do, as they are written; nothing is the empty text. -/
def readString : Yaml.Node → Reading (Option String)
  | .scalar _ plain text => return some (if Yaml.meaning plain text = .null then "" else text)
  | n => misfit .string n

/-- Reads a truth value. Nothing is false. -/
def readBool (n : Yaml.Node) : Reading (Option Bool) :=
  match n with
  | .scalar _ plain text =>
    match Yaml.meaning plain text with
    | .bool b => return some b
    | .null => return some false
    | _ => misfit .bool n
  | n => misfit .bool n

/-- A type of settings with fields. -/
structure Fields (α : Type) where
  target : Target
  /-- What nothing stands for. -/
  empty : α
  /-- Reads a value onto the field of a given name, if there is one. -/
  field? : String → Option (Yaml.Node → α → Reading α)

/-- A field that is read by `read`; what does not fit leaves it as it is. -/
def setField {α β : Type} (read : Yaml.Node → Reading (Option β)) (set : β → α → α)
    (n : Yaml.Node) (old : α) : Reading α := do
  return match ← read n with
    | some b => set b old
    | none => old

/-- Whether a key asks for its value to be merged into the mapping that it stands in. -/
def isMerge : Yaml.Node → Bool
  | .scalar _ plain text => plain && text = "<<"
  | _ => false

mutual

/--
Reads the entries of a mapping onto a value, in order. `done` are the names of the fields that were
already read.
-/
def readEntries {α : Type} (f : Fields α) (done : List String) (entries : List (Yaml.Node × Yaml.Node))
    (old : α) : Reading α := do
  match entries with
  | [] => return old
  | (key, value) :: rest =>
    if isMerge key then readEntries f done rest (← mergeNode f value old)
    else match ← readString key with
    | none => readEntries f done rest old
    | some name =>
      match f.field? name with
      | none =>
        report (.unknown key.line name f.target)
        readEntries f done rest old
      | some read =>
        if done.contains name then
          report (.repeated key.line name f.target)
          readEntries f done rest old
        else readEntries f (name :: done) rest (← read value old)
termination_by structural entries

/-- Merges a mapping into a value, or all mappings of a sequence, of which the first counts most. -/
def mergeNode {α : Type} (f : Fields α) (n : Yaml.Node) (old : α) : Reading α :=
  match n with
  | .mapping _ entries => readEntries f [] entries old
  | .sequence _ items => mergeItems f items old
  | .scalar .. => throw ⟨.merge, 0⟩
termination_by structural n

/-- Merges mappings into a value, the last one first. -/
def mergeItems {α : Type} (f : Fields α) (items : List Yaml.Node) (old : α) : Reading α := do
  match items with
  | [] => return old
  | .mapping _ entries :: items => readEntries f [] entries (← mergeItems f items old)
  | _ :: items =>
    let _ ← mergeItems f items old
    throw ⟨.merge, 0⟩
termination_by structural items

end

/-- Reads a mapping onto a value; nothing makes every field empty. -/
def Fields.read {α : Type} (f : Fields α) (n : Yaml.Node) (old : α) : Reading α := do
  match n with
  | .mapping _ entries => readEntries f [] entries old
  | .scalar _ plain text =>
    if Yaml.meaning plain text = .null then return f.empty
    return (← misfit f.target n).getD old
  | n => return (← misfit f.target n).getD old

/-- The fields of the settings of the log. -/
def logFields : Fields LogConfig where
  target := .logConfig
  empty := .empty
  field? := fun
    | "level" => some (setField readString fun level c => { c with level })
    | "format" => some (setField readString fun format c => { c with format })
    | "file" => some (setField readString fun file c => { c with file })
    | _ => none

/-- The fields of the settings. -/
def fields : Fields Config where
  target := .config
  empty := .empty
  field? := fun
    | "output_dir" => some (setField readString fun outputDir c => { c with outputDir })
    | "stdlib" => some (setField readString fun stdlib c => { c with stdlib })
    | "encoding" => some (setField readString fun encoding c => { c with encoding })
    | "stamp" => some (setField readString fun stamp c => { c with stamp })
    | "host" => some (setField readBool fun host c => { c with host })
    | "log" => some fun n c => return { c with log := ← logFields.read n c.log }
    | _ => none

/-- Why settings cannot be read. -/
inductive ReadError where
  /-- The text is no YAML. -/
  | yaml (fault : Yaml.Fault)
  /-- The document does not fit. -/
  | misfits (list : List Misfit)
  /-- The settings cannot be used. -/
  | invalid (error : ConfigError)
deriving DecidableEq, Repr

/-- The text of an error. -/
def ReadError.message : ReadError → List Glyph
  | yaml fault => Glyph.ofString ("parsing config: " ++ fault.message)
  | misfits list =>
    Glyph.ofString "parsing config: yaml: unmarshal errors:" ++
      list.flatMap fun m => Glyph.ofString "\n  " ++ m.message
  | invalid error => Glyph.ofString error.message

/-- Whether a text has nothing but white space in it. -/
def isBlank (glyphs : List Glyph) : Bool :=
  glyphs.all fun
    | .char c => Text.isBlank c
    | .stray _ => false

/-- Reads settings from a text. A blank text leaves the standard settings. -/
def ofBytes (bytes : List UInt8) : Except ReadError Config := do
  if isBlank (Glyph.ofBytes bytes) then return {}
  let (config, bad) ← Except.mapError ReadError.yaml do
    match ← Yaml.Node.ofBytes? bytes with
    | some n => (fields.read n {}).run []
    | none => return ({}, [])
  if !bad.isEmpty then throw (.misfits bad)
  match config.validate with
  | .ok () => return config
  | .error e => throw (.invalid e)

end ScriptPir.Config
