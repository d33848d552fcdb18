import ScriptPir.Tree.Tour

/-!
# Trees from graphs

A tree may be given as a table of nodes that name their children by place. Such a table can share
nodes and even run in circles. It is unfolded depth first from a root; a node whose id was met before
is kept without its children, because no walk goes past it.
-/

namespace ScriptPir

/-- A node of a graph. A child is a place in the table, or nothing. -/
structure Vertex where
  id : Int
  kind : Kind
  token : Token := {}
  children : List (Option Nat) := []
deriving Repr, Inhabited

/-- A node without children. -/
def Vertex.leaf (v : Vertex) : Node := .mk v.id v.kind v.token []

/-- A table of nodes. -/
abbrev Graph := Array Vertex

/--
Unfolds a graph from a place, given the ids that were met. On the way down all ids differ, so a depth
above the size of the table is never used up.
-/
def Graph.unfoldFrom (g : Graph) : (depth : Nat) → Option Nat →
    StateM (Std.TreeSet Int compare) Node
  | 0, _ => pure .absent
  | depth + 1, place => do
    match place.bind (g[·]?) with
    | none => pure .absent
    | some v =>
      let seen ← get
      if seen.contains v.id then pure v.leaf
      else
        set (seen.insert v.id)
        let children ← v.children.mapM (unfoldFrom g depth)
        pure (.mk v.id v.kind v.token children)

/-- The tree that a graph unfolds to from a root. -/
def Graph.unfold (g : Graph) (root : Nat) : Node := ((g.unfoldFrom (g.size + 1) root).run {}).1

end ScriptPir
