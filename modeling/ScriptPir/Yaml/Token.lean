/-!
# YAML: tokens

Settings are written in a part of YAML: block and flow collections, plain and quoted scalars, comments
and document markers.
-/

namespace ScriptPir.Yaml

/-- The kinds of tokens. -/
inductive TokenKind where
  | blockMapping
  | blockSequence
  /-- The end of a block collection, where its indentation ends. -/
  | blockEnd
  | flowMapping
  | flowMappingEnd
  | flowSequence
  | flowSequenceEnd
  /-- A dash before an item. -/
  | entry
  /-- A comma between items. -/
  | comma
  /-- Stands before a key. -/
  | key
  /-- Stands before a value. -/
  | value
  | scalar (plain : Bool) (text : String)
  | documentStart
  | documentEnd
  | streamEnd
deriving DecidableEq, Repr, Inhabited

/-- A token and the line it starts on, counted from zero. -/
structure Token where
  kind : TokenKind
  line : Nat
deriving DecidableEq, Repr, Inhabited

end ScriptPir.Yaml
