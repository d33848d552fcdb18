import ScriptPir.Yaml.Event

/-!
# YAML: documents

A document is a tree of scalars, sequences and mappings. Only the first document of a text is read, and
of what follows it only the next token.
-/

namespace ScriptPir.Yaml

/-- A part of a document, with the line it starts on, counted from one. -/
inductive Node where
  | scalar (line : Nat) (plain : Bool) (text : String)
  | sequence (line : Nat) (items : List Node)
  | mapping (line : Nat) (entries : List (Node × Node))
deriving Repr, Inhabited

/-- A collection that has not ended. -/
inductive Unfinished where
  /-- A sequence with its items so far, the last one first. -/
  | sequence (line : Nat) (items : List Node)
  /-- A mapping with its keys and values so far, the last one first. -/
  | mapping (line : Nat) (parts : List Node)
deriving Repr

namespace Node

/-- The line on which a node starts. -/
def line : Node → Nat
  | scalar line .. => line
  | sequence line _ => line
  | mapping line _ => line

/-- Adds the pairs of some values and keys, the last one first, to entries that follow them. -/
def pairs (entries : List (Node × Node)) : List Node → List (Node × Node)
  | value :: key :: parts => pairs ((key, value) :: entries) parts
  | _ => entries

/-- The node that a collection is if it ends. -/
def ofUnfinished : Unfinished → Node
  | .sequence line items => .sequence line items.reverse
  | .mapping line parts => .mapping line (pairs [] parts)

/-- Adds a node to the innermost of the open collections. With none open, it is the whole document. -/
def place (n : Node) : List Unfinished → Node ⊕ List Unfinished
  | [] => .inl n
  | .sequence line items :: rest => .inr (.sequence line (n :: items) :: rest)
  | .mapping line parts :: rest => .inr (.mapping line (n :: parts) :: rest)

/-- What an event makes of the open collections, inner ones first. -/
def apply : Event → List Unfinished → Node ⊕ List Unfinished
  | .scalar line plain text, stack => place (.scalar line plain text) stack
  | .sequenceStart line, stack => .inr (.sequence line [] :: stack)
  | .mappingStart line, stack => .inr (.mapping line [] :: stack)
  | .sequenceEnd, top :: stack | .mappingEnd, top :: stack => place (ofUnfinished top) stack
  | .sequenceEnd, [] | .mappingEnd, [] => .inr []

/-- Reads events until the document is complete. -/
def readFrom : (fuel : Nat) → List Place → List Unfinished → Lex Node
  | 0, _, _ | _, [], _ => throw ⟨.content, 0⟩
  | fuel + 1, place :: places, stack => do
    let (event, places) ← Event.nextAt place places
    match apply event stack with
    | .inl root => return root
    | .inr stack => readFrom fuel places stack

/-- Reads the first document, if there is one. What follows it has to start with a token. -/
def readFirst : Lex (Option Node) := do
  let t ← Lex.peek
  if t.kind = .streamEnd then return none
  let start : Place := if t.kind = .documentStart then .document else .bareDocument
  if t.kind = .documentStart then Lex.advance
  -- Not more than a few events belong to a character.
  let root ← readFrom (16 * ((← get).window.limit + 1)) [start] []
  let _ ← Lex.peek
  return some root

/-- Reads the first document of a text, if there is one. -/
def ofBytes? (bytes : List UInt8) : Except Fault (Option Node) :=
  readFirst.run' { window := .ofBytes bytes }

end Node

end ScriptPir.Yaml
