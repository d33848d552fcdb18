import Std.Data.TreeSet
import ScriptPir.Tree.Node
import ScriptPir.Violation

/-!
# Walking a tree

A walk enters a node, walks its children in order and exits it. The *tour* of a tree lists these
events. A walk follows the tour until it would enter a node whose id it has met, or comes to a child
that is not there; both break the contract that the nodes form a tree.
-/

namespace ScriptPir

/-- A step of a walk. -/
inductive Event where
  | enter (n : Node)
  | exit (n : Node)
  /-- A child is not there. -/
  | missing
deriving Repr, Inhabited

mutual

/-- The tour of a tree, put in front of a list of events. -/
def Node.tourOnto (acc : List Event) : Node → List Event
  | .absent => .missing :: acc
  | .mk id kind token children =>
    .enter (.mk id kind token children) ::
      tourOntoAll (.exit (.mk id kind token children) :: acc) children

/-- The tours of some trees, put in front of a list of events. -/
def Node.tourOntoAll (acc : List Event) : List Node → List Event
  | [] => acc
  | n :: ns => Node.tourOnto (tourOntoAll acc ns) n

end

/-- The events of a walk that nothing stops. -/
def Node.tour (n : Node) : List Event := Node.tourOnto [] n

/-- A walk as far as it goes, and what stopped it. -/
structure Walk where
  events : List Event
  stop : Option Violation
deriving Repr

/-- Follows a tour, given the ids of the nodes that were met. -/
def followTour (seen : Std.TreeSet Int compare) : List Event → Walk
  | [] => ⟨[], none⟩
  | .missing :: _ => ⟨[], some .absentNode⟩
  | .exit n :: rest =>
    let walk := followTour seen rest
    ⟨.exit n :: walk.events, walk.stop⟩
  | .enter n :: rest =>
    if seen.contains n.id then ⟨[], some (.repeatedNode n.id)⟩
    else
      let walk := followTour (seen.insert n.id) rest
      ⟨.enter n :: walk.events, walk.stop⟩

/-- Walks a tree. -/
def Node.walk (n : Node) : Walk := followTour {} n.tour

end ScriptPir
