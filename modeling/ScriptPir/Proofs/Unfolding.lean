import Mathlib.Data.List.Forall2
import ScriptPir.Proofs.Walk
import ScriptPir.Tree.Graph

/-!
# Walking a graph

A graph may share nodes, run in circles and lack children, so what a walk would come to in it has no end in
general. `Graph.tour` lists it down to a depth: a node is entered, its children are toured in their order,
and it is exited. A walk sees this tour up to the first place where a child is not there or a node has an id
that was met before: `Graph.walk_unfold`.

On the way down all ids differ, so the number of nodes whose id is still unseen (`Graph.unseen`) bounds the
depth that is left. The unfolding of a graph never comes to its own bound (`goes_unfoldFrom`), and how large
that bound is makes no difference (`unfoldFrom_congr`).
-/

namespace ScriptPir

/-- What a tour of a graph comes to. Nodes are told by their places. -/
inductive Visit where
  | enter (place : Nat)
  | exit (place : Nat)
  /-- A child that is not there. -/
  | missing
  /-- The tour would go on below, but it ends at this depth. -/
  | deeper
deriving DecidableEq, Repr

namespace Graph

variable {g : Graph}

/-- The Euler tour of what a graph unfolds to from a place, down to a depth. Nothing is looked up in what was
met before. -/
def tour (g : Graph) : (depth : Nat) → Option Nat → List Visit
  | 0, _ => [.deeper]
  | _ + 1, none => [.missing]
  | depth + 1, some place =>
    match g[place]? with
    | none => [.missing]
    | some v => .enter place :: (v.children.flatMap (tour g depth) ++ [.exit place])

/-- The id of the node that a visit enters. -/
def enteredId? (g : Graph) : Visit → Option Int
  | .enter place => (g[place]?).map Vertex.id
  | _ => none

/-- The ids of the nodes that some visits enter. -/
def ids (g : Graph) (visits : List Visit) : List Int := visits.filterMap g.enteredId?

/-- Nothing is missing among some visits, and the nodes they enter have different ids. -/
structure Clear (g : Graph) (visits : List Visit) : Prop where
  present : .missing ∉ visits
  nodup : (g.ids visits).Nodup

/-- A visit at which a walk stops, after some ids were met, and what it says. -/
inductive Faults (g : Graph) (met : Int → Prop) : Visit → Violation → Prop
  | missing : Faults g met .missing .absentNode
  | repeated {place : Nat} {v : Vertex} (hv : g[place]? = some v) (hmet : met v.id) :
      Faults g met (.enter place) (.repeatedNode v.id)

/-- A node shows a vertex. -/
structure Depicts (n : Node) (v : Vertex) : Prop where
  id_eq : n.id = v.id
  kind_eq : n.kind = v.kind
  token_eq : n.token = v.token
  length_eq : n.children.length = v.children.length

/-- An event shows a visit: the same step, at a node that shows the vertex of the place. -/
inductive Shows (g : Graph) : Event → Visit → Prop
  | enter {n : Node} {place : Nat} {v : Vertex} (hv : g[place]? = some v) (h : Depicts n v) :
      Shows g (.enter n) (.enter place)
  | exit {n : Node} {place : Nat} {v : Vertex} (hv : g[place]? = some v) (h : Depicts n v) :
      Shows g (.exit n) (.exit place)

/-! ## Ids

The ids of a tour, and those of events that show it, are the same list. -/

/-- A node is toured by entering it, touring its children and exiting it. -/
theorem tour_of_getElem {place : Nat} {v : Vertex} (hv : g[place]? = some v) (depth : Nat) :
    g.tour (depth + 1) (some place) =
      .enter place :: (v.children.flatMap (g.tour depth) ++ [.exit place]) := by
  rw [tour, hv]

theorem ids_append (vs ws : List Visit) : g.ids (vs ++ ws) = g.ids vs ++ g.ids ws :=
  List.filterMap_append

/-- To enter a node is to meet its id. -/
theorem ids_enter {place : Nat} {v : Vertex} (hv : g[place]? = some v) (vs : List Visit) :
    g.ids (.enter place :: vs) = v.id :: g.ids vs := by
  have hid : g.enteredId? (.enter place) = some v.id := by rw [enteredId?, hv]; rfl
  exact List.filterMap_cons_some hid

/-- Events enter nodes with the ids of the visits that they show. -/
theorem enteredIds_of_shows {events : List Event} {vs : List Visit}
    (h : List.Forall₂ g.Shows events vs) : enteredIds events = g.ids vs := by
  induction h with
  | nil => rfl
  | cons hhead htail ih =>
    cases hhead with
    | enter hv hdepicts => rw [ids_enter hv, enteredIds, ih, hdepicts.id_eq]
    | exit hv hdepicts => exact ih

/-- Events that show visits are not missing. -/
theorem missing_not_mem_of_shows {events : List Event} {vs : List Visit}
    (h : List.Forall₂ g.Shows events vs) : .missing ∉ events := by
  induction h with
  | nil => exact List.not_mem_nil
  | cons hhead htail ih => cases hhead <;> simpa using ih

/-- Only places of the graph are entered. -/
theorem exists_vertex_of_shows {events : List Event} {vs : List Visit}
    (h : List.Forall₂ g.Shows events vs) {place : Nat} (hmem : .enter place ∈ vs) :
    ∃ v, g[place]? = some v := by
  induction h with
  | nil => cases hmem
  | cons hhead htail ih =>
    cases hmem with
    | head =>
      cases hhead with
      | enter hv => exact ⟨_, hv⟩
    | tail _ hmem => exact ih hmem

/-! ## Sets of ids

A walk remembers the ids it has met in a set. The unseen nodes of a graph become fewer with every new
id, which is what bounds the depth. -/

/-- A set of ids, with more ids put into it. -/
def marked (seen : Std.TreeSet Int compare) (is : List Int) : Std.TreeSet Int compare :=
  is.foldl (·.insert) seen

/-- A set with more ids has those it had and the new ones. -/
theorem contains_marked (seen : Std.TreeSet Int compare) (is : List Int) (i : Int) :
    (marked seen is).contains i = true ↔ seen.contains i = true ∨ i ∈ is := by
  induction is generalizing seen with
  | nil => simp [marked]
  | cons j is ih =>
    show (marked (seen.insert j) is).contains i = true ↔ _
    rw [ih, Std.TreeSet.contains_insert]
    simp only [Bool.or_eq_true, beq_iff_eq, Std.LawfulEqOrd.compare_eq_iff_eq, List.mem_cons, eq_comm (a := j)]
    tauto

/-- The number of nodes whose id is in no set of seen ids. -/
def unseen (g : Graph) (seen : Std.TreeSet Int compare) : Nat :=
  g.toList.countP fun v => !seen.contains v.id

/-- The more ids are seen, the fewer nodes are unseen. -/
theorem unseen_le {seen seen' : Std.TreeSet Int compare}
    (h : ∀ i, seen.contains i = true → seen'.contains i = true) : g.unseen seen' ≤ g.unseen seen := by
  refine List.countP_mono_left fun v _ hv => ?_
  simp only [Bool.not_eq_true', ← Bool.not_eq_true] at hv ⊢
  exact fun hold => hv (h v.id hold)

/-- A new id of a node leaves fewer nodes unseen. -/
theorem unseen_insert_lt {seen : Std.TreeSet Int compare} {place : Nat} {v : Vertex}
    (hv : g[place]? = some v) (hnew : seen.contains v.id = false) :
    g.unseen (seen.insert v.id) < g.unseen seen := by
  have hmem : v ∈ g.toList := Array.mem_toList_iff.mpr (Array.mem_of_getElem? hv)
  -- the vertex itself is seen now, and the others are no less seen than before
  obtain ⟨before, after, hlist⟩ := List.append_of_mem hmem
  have hold : ∀ i, seen.contains i = true → (seen.insert v.id).contains i = true := by
    intro i hi
    rw [Std.TreeSet.contains_insert, hi, Bool.or_true]
  have hbefore : ∀ vs : List Vertex, vs.countP (fun w => !(seen.insert v.id).contains w.id) ≤
      vs.countP (fun w => !seen.contains w.id) :=
    fun vs => unseen_le (g := vs.toArray) hold
  have hfirst := hbefore before
  have hlast := hbefore after
  have hself : (seen.insert v.id).contains v.id = true := Std.TreeSet.contains_insert_self
  unfold unseen
  rw [hlist, List.countP_append, List.countP_append, List.countP_cons, List.countP_cons, hnew, hself]
  simp only [Bool.not_true, Bool.not_false, Bool.false_eq_true, if_false, if_true]
  omega

/-! ## Going through visits

`Goes` relates a list of visits to the events that an unfolding makes of them. It is closed under
putting one list behind another, so what one place comes to gives what a list of children comes to. -/

/-- Visits that go through from some seen ids: none is missing or cut off, and all ids are new. -/
structure ClearFrom (g : Graph) (seen : Std.TreeSet Int compare) (vs : List Visit) : Prop where
  clear : g.Clear vs
  whole : .deeper ∉ vs
  new : ∀ i ∈ g.ids vs, seen.contains i = false

variable {seen seen₁ seen₂ : Std.TreeSet Int compare} {vs ws : List Visit} {f k : List Event → List Event}

theorem ClearFrom.nil (g : Graph) (seen : Std.TreeSet Int compare) : g.ClearFrom seen [] :=
  ⟨⟨List.not_mem_nil, List.nodup_nil⟩, List.not_mem_nil, fun _ hi => absurd hi List.not_mem_nil⟩

/-- Visits go through one list after the other. -/
theorem ClearFrom.append (h : g.ClearFrom seen vs) (h' : g.ClearFrom (marked seen (g.ids vs)) ws) :
    g.ClearFrom seen (vs ++ ws) := by
  have hnew : ∀ i ∈ g.ids ws, seen.contains i = false ∧ i ∉ g.ids vs := by
    intro i hi
    have hout := h'.new i hi
    rw [← Bool.not_eq_true, contains_marked, not_or, Bool.not_eq_true] at hout
    exact hout
  refine ⟨⟨?_, ?_⟩, ?_, fun i hi => ?_⟩
  · exact fun hmem => (List.mem_append.mp hmem).elim h.clear.present h'.clear.present
  · rw [ids_append, List.nodup_append]
    refine ⟨h.clear.nodup, h'.clear.nodup, fun i hi j hj heq => ?_⟩
    exact (hnew j hj).2 (heq ▸ hi)
  · exact fun hmem => (List.mem_append.mp hmem).elim h.whole h'.whole
  · rw [ids_append] at hi
    exact (List.mem_append.mp hi).elim (h.new i) fun hi => (hnew i hi).1

/-- Events that `f` puts in front of others go through visits: they show all of them, or a walk stops among
them, where the visits have their first fault. -/
inductive Goes (g : Graph) (seen : Std.TreeSet Int compare) (vs : List Visit)
    (f : List Event → List Event) (seen' : Std.TreeSet Int compare) : Prop
  | through {shown : List Event} (hshows : List.Forall₂ g.Shows shown vs) (hclear : g.ClearFrom seen vs)
      (hseen : seen' = marked seen (g.ids vs)) (hevents : ∀ acc, f acc = shown ++ acc)
  | stopped {shown : List Event} (good : List Visit) {rest : List Visit} {bad : Visit} {fault : Violation}
      (hvisits : vs = good ++ bad :: rest) (hshows : List.Forall₂ g.Shows shown good)
      (hclear : g.ClearFrom seen good)
      (hfault : g.Faults (fun i => (marked seen (g.ids good)).contains i = true) bad fault)
      (hwalk : ∀ acc, followTour seen (f acc) = ⟨shown, some fault⟩)

/-- A walk follows events that show visits which go through. -/
theorem followTour_of_shows {shown : List Event} (hshows : List.Forall₂ g.Shows shown vs)
    (hclear : g.ClearFrom seen vs) (acc : List Event) :
    followTour seen (shown ++ acc) =
      ⟨shown ++ (followTour (marked seen (g.ids vs)) acc).events,
        (followTour (marked seen (g.ids vs)) acc).stop⟩ := by
  have hids := enteredIds_of_shows hshows
  have hnew : ∀ i ∈ enteredIds shown, seen.contains i = false := by
    rw [hids]
    exact hclear.new
  have h := followTour_append acc (missing_not_mem_of_shows hshows) (by rw [hids]; exact hclear.clear.nodup) hnew
  rwa [hids] at h

/-- What stands behind visits matters only if they go through. -/
theorem Goes.append (h : g.Goes seen vs f seen₁)
    (h' : seen₁ = marked seen (g.ids vs) → g.Goes seen₁ ws k seen₂) :
    g.Goes seen (vs ++ ws) (fun acc => f (k acc)) seen₂ := by
  -- if the first list stops the walk, nothing of the second one is seen
  cases h with
  | through hshows hclear hseen hevents =>
    cases h' hseen with
    | @through shown' hshows' hclear' hseen' hevents' =>
      subst hseen
      refine .through (List.rel_append hshows hshows') (hclear.append hclear') ?_ fun acc => ?_
      · rw [hseen', ids_append, marked, marked, marked, List.foldl_append]
      · rw [hevents, hevents', List.append_assoc]
    | @stopped shown' good rest bad fault hvisits hshows' hclear' hfault hwalk =>
      subst hseen
      have hsplit : vs ++ ws = vs ++ good ++ bad :: rest := by rw [hvisits, List.append_assoc]
      have hmet : g.Faults (fun i => (marked seen (g.ids (vs ++ good))).contains i = true) bad fault := by
        rw [ids_append, marked, List.foldl_append]
        exact hfault
      refine .stopped (vs ++ good) hsplit (List.rel_append hshows hshows') (hclear.append hclear') hmet fun acc => ?_
      rw [hevents, followTour_of_shows hshows hclear, hwalk]
  | @stopped shown good rest bad fault hvisits hshows hclear hfault hwalk =>
    have hsplit : vs ++ ws = good ++ bad :: (rest ++ ws) := by
      rw [hvisits, List.append_assoc, List.cons_append]
    exact .stopped good hsplit hshows hclear hfault fun acc => hwalk (k acc)

/-! ## The unfolding of a graph

An unfolding makes a tree of a graph, with a leaf where an id is met again. The equations below say
so for each case, without the monad. -/

theorem run_unfoldFrom_of_missing {place : Option Nat} (h : place.bind (g[·]?) = none) (depth : Nat) :
    (g.unfoldFrom (depth + 1) place).run seen = (.absent, seen) := by
  rw [unfoldFrom, h]
  rfl

/-- Where an id was seen before, the tree is a leaf. -/
theorem run_unfoldFrom_of_seen {place : Nat} {v : Vertex} (hv : g[place]? = some v)
    (hold : seen.contains v.id = true) (depth : Nat) :
    (g.unfoldFrom (depth + 1) (some place)).run seen = (v.leaf, seen) := by
  have hbind : (some place).bind (g[·]?) = some v := hv
  rw [unfoldFrom, hbind]
  show (if seen.contains v.id = true then pure v.leaf else _ : StateM _ Node).run seen = _
  rw [if_pos hold]
  rfl

/-- Where an id is new, the children are unfolded with that id seen. -/
theorem run_unfoldFrom_of_new {place : Nat} {v : Vertex} (hv : g[place]? = some v)
    (hnew : seen.contains v.id = false) (depth : Nat) :
    (g.unfoldFrom (depth + 1) (some place)).run seen =
      (.mk v.id v.kind v.token ((v.children.mapM (g.unfoldFrom depth)).run (seen.insert v.id)).1,
        ((v.children.mapM (g.unfoldFrom depth)).run (seen.insert v.id)).2) := by
  have hbind : (some place).bind (g[·]?) = some v := hv
  rw [unfoldFrom, hbind]
  show (if seen.contains v.id = true then pure v.leaf else _ : StateM _ Node).run seen = _
  rw [if_neg (by rw [hnew]; decide)]
  rfl

/-- Children are unfolded one after the other, each with the ids that those before it have met. -/
theorem run_mapM_unfoldFrom_cons (depth : Nat) (place : Option Nat) (places : List (Option Nat)) :
    ((place :: places).mapM (g.unfoldFrom depth)).run seen =
      (((g.unfoldFrom depth place).run seen).1 ::
          ((places.mapM (g.unfoldFrom depth)).run ((g.unfoldFrom depth place).run seen).2).1,
        ((places.mapM (g.unfoldFrom depth)).run ((g.unfoldFrom depth place).run seen).2).2) := by
  rw [List.mapM_cons]
  rfl

/-- Every child is unfolded to one tree. -/
theorem length_mapM_unfoldFrom (depth : Nat) (places : List (Option Nat)) :
    ((places.mapM (g.unfoldFrom depth)).run seen).1.length = places.length := by
  induction places generalizing seen with
  | nil => rfl
  | cons place places ih => rw [run_mapM_unfoldFrom_cons, List.length_cons, List.length_cons, ih]

theorem unseen_marked_le (is : List Int) : g.unseen (marked seen is) ≤ g.unseen seen :=
  unseen_le fun i hi => (contains_marked seen is i).mpr (.inl hi)

/-- If the unfolding of every child goes through its tour, that of some children does. -/
theorem goes_mapM {d depth : Nat}
    (h : ∀ place seen, g.unseen seen < d → g.unseen seen < depth →
      g.Goes seen (g.tour depth place) (fun acc => Node.tourOnto acc ((g.unfoldFrom d place).run seen).1)
        ((g.unfoldFrom d place).run seen).2)
    (places : List (Option Nat)) (hd : g.unseen seen < d) (hdepth : g.unseen seen < depth) :
    g.Goes seen (places.flatMap (g.tour depth))
      (fun acc => Node.tourOntoAll acc ((places.mapM (g.unfoldFrom d)).run seen).1)
      ((places.mapM (g.unfoldFrom d)).run seen).2 := by
  induction places generalizing seen with
  | nil => exact .through .nil (.nil g seen) rfl fun acc => rfl
  | cons place places ih =>
    rw [run_mapM_unfoldFrom_cons, List.flatMap_cons]
    refine (h place seen hd hdepth).append fun hseen => ?_
    have hle : g.unseen (marked seen (g.ids (g.tour depth place))) ≤ g.unseen seen := unseen_marked_le _
    rw [← hseen] at hle
    exact ih (by omega) (by omega)

/-! One lemma for each thing that an unfolding can meet at a place. -/

theorem goes_missing : g.Goes seen [.missing] (fun acc => Node.tourOnto acc .absent) seen :=
  .stopped [] rfl .nil (.nil g seen) .missing fun _ => rfl

/-- An id that was seen before stops a walk. -/
theorem goes_seen {place : Nat} {v : Vertex} (hv : g[place]? = some v) (hseen : seen.contains v.id = true)
    (rest : List Visit) : g.Goes seen (.enter place :: rest) (fun acc => Node.tourOnto acc v.leaf) seen := by
  refine .stopped [] rfl .nil (.nil g seen) (.repeated hv hseen) fun acc => ?_
  show followTour seen (.enter v.leaf :: _) = _
  rw [followTour, if_pos (show seen.contains v.leaf.id = true from hseen)]
  rfl

/-- A new id lets a walk enter its node. -/
theorem goes_enter {place : Nat} {v : Vertex} {n : Node} (hv : g[place]? = some v) (hdepicts : Depicts n v)
    (hnew : seen.contains v.id = false) :
    g.Goes seen [.enter place] (fun acc => .enter n :: acc) (seen.insert v.id) := by
  have hids : g.ids [.enter place] = [v.id] := ids_enter hv []
  refine .through (.cons (.enter hv hdepicts) .nil) ⟨⟨by simp, ?_⟩, by simp, ?_⟩ ?_ fun acc => rfl
  · rw [hids]
    simp
  · rw [hids]
    simpa using hnew
  · rw [hids]
    rfl

/-- A node that is exited lets a walk go on. -/
theorem goes_exit {place : Nat} {v : Vertex} {n : Node} (hv : g[place]? = some v) (hdepicts : Depicts n v) :
    g.Goes seen [.exit place] (fun acc => .exit n :: acc) seen :=
  .through (.cons (.exit hv hdepicts) .nil)
    ⟨⟨by simp, List.nodup_nil⟩, by simp, fun _ hi => absurd hi List.not_mem_nil⟩ rfl fun acc => rfl

/-- The unfolding of a graph goes through its tour. Both may be as shallow as the number of nodes not seen
before, because every node on the way down is one of them. -/
theorem goes_unfoldFrom {d depth : Nat} (place : Option Nat) (hd : g.unseen seen < d)
    (hdepth : g.unseen seen < depth) :
    g.Goes seen (g.tour depth place) (fun acc => Node.tourOnto acc ((g.unfoldFrom d place).run seen).1)
      ((g.unfoldFrom d place).run seen).2 := by
  induction d generalizing depth place seen with
  | zero => omega
  | succ d ih =>
    obtain ⟨depth, rfl⟩ : ∃ m, depth = m + 1 := ⟨depth - 1, by omega⟩
    cases place with
    | none => exact goes_missing
    | some place =>
      cases hv : g[place]? with
      | none =>
        rw [run_unfoldFrom_of_missing (show (some place).bind (g[·]?) = none from hv), tour, hv]
        exact goes_missing
      | some v =>
        rw [tour_of_getElem hv]
        cases hseen : seen.contains v.id with
        | true =>
          rw [run_unfoldFrom_of_seen hv hseen]
          exact goes_seen hv hseen _
        | false =>
          rw [run_unfoldFrom_of_new hv hseen]
          have hlt := unseen_insert_lt hv hseen
          have hd' : g.unseen (seen.insert v.id) < d := by omega
          have hdepth' : g.unseen (seen.insert v.id) < depth := by omega
          have hchildren := goes_mapM (fun place seen hd hdepth => ih place hd hdepth) v.children hd' hdepth'
          have hlength : ((v.children.mapM (g.unfoldFrom d)).run (seen.insert v.id)).1.length = v.children.length :=
            length_mapM_unfoldFrom d v.children
          generalize (v.children.mapM (g.unfoldFrom d)).run (seen.insert v.id) = r at hchildren hlength
          have hdepicts : Depicts (.mk v.id v.kind v.token r.1) v := ⟨rfl, rfl, rfl, hlength⟩
          -- the node is entered, its children are walked, and it is exited
          exact (goes_enter hv hdepicts hseen).append fun _ => hchildren.append fun _ => goes_exit hv hdepicts

/-! ## The bound on the depth

The bound is there to make the recursion structural. It is never reached, so a larger one gives the
same tree. -/

/-- Ids that are seen stay seen while children are unfolded. -/
theorem contains_mapM_of_contains {d : Nat}
    (h : ∀ place seen i, seen.contains i = true → ((g.unfoldFrom d place).run seen).2.contains i = true)
    (places : List (Option Nat)) {i : Int} (hi : seen.contains i = true) :
    ((places.mapM (g.unfoldFrom d)).run seen).2.contains i = true := by
  induction places generalizing seen with
  | nil => exact hi
  | cons place places ih =>
    rw [run_mapM_unfoldFrom_cons]
    exact ih (h place seen i hi)

/-- What was seen stays seen. -/
theorem contains_unfoldFrom_of_contains (d : Nat) (place : Option Nat) {i : Int}
    (hi : seen.contains i = true) : ((g.unfoldFrom d place).run seen).2.contains i = true := by
  -- on the bound: ids are only put into the set
  induction d generalizing place seen i with
  | zero => exact hi
  | succ d ih =>
    cases hplace : place.bind (g[·]?) with
    | none =>
      rw [run_unfoldFrom_of_missing hplace]
      exact hi
    | some v =>
      obtain ⟨place, rfl, hv⟩ := Option.bind_eq_some_iff.mp hplace
      cases hseen : seen.contains v.id with
      | true =>
        rw [run_unfoldFrom_of_seen hv hseen]
        exact hi
      | false =>
        rw [run_unfoldFrom_of_new hv hseen]
        refine contains_mapM_of_contains (fun place seen i hi => ih place hi) v.children ?_
        rw [Std.TreeSet.contains_insert, hi, Bool.or_true]

/-- Children unfold alike under two bounds if each of them does. -/
theorem mapM_unfoldFrom_congr {d d' : Nat}
    (h : ∀ place seen, g.unseen seen < d → g.unseen seen < d' →
      (g.unfoldFrom d place).run seen = (g.unfoldFrom d' place).run seen)
    (places : List (Option Nat)) (hd : g.unseen seen < d) (hd' : g.unseen seen < d') :
    (places.mapM (g.unfoldFrom d)).run seen = (places.mapM (g.unfoldFrom d')).run seen := by
  induction places generalizing seen with
  | nil => rfl
  | cons place places ih =>
    have hle : g.unseen ((g.unfoldFrom d' place).run seen).2 ≤ g.unseen seen :=
      unseen_le fun i => contains_unfoldFrom_of_contains d' place
    rw [run_mapM_unfoldFrom_cons, run_mapM_unfoldFrom_cons, h place seen hd hd', ih (by omega) (by omega)]

/-- A graph unfolds to the same tree, whatever the bound on the depth is, if it is above the number of nodes
not seen before. -/
theorem unfoldFrom_congr {d d' : Nat} (place : Option Nat) (hd : g.unseen seen < d)
    (hd' : g.unseen seen < d') : (g.unfoldFrom d place).run seen = (g.unfoldFrom d' place).run seen := by
  induction d generalizing d' place seen with
  | zero => omega
  | succ d ih =>
    obtain ⟨d', rfl⟩ : ∃ m, d' = m + 1 := ⟨d' - 1, by omega⟩
    cases hplace : place.bind (g[·]?) with
    | none => rw [run_unfoldFrom_of_missing hplace, run_unfoldFrom_of_missing hplace]
    | some v =>
      obtain ⟨place, rfl, hv⟩ := Option.bind_eq_some_iff.mp hplace
      cases hseen : seen.contains v.id with
      | true => rw [run_unfoldFrom_of_seen hv hseen, run_unfoldFrom_of_seen hv hseen]
      | false =>
        -- one node less is unseen below, so both bounds are still enough there
        have hlt := unseen_insert_lt hv hseen
        have hless : g.unseen (seen.insert v.id) < d := by omega
        have hless' : g.unseen (seen.insert v.id) < d' := by omega
        have hchildren := mapM_unfoldFrom_congr (fun place seen hd hd' => ih place hd hd') v.children hless hless'
        rw [run_unfoldFrom_of_new hv hseen, run_unfoldFrom_of_new hv hseen, hchildren]

/-- At first no more nodes are unseen than there are. -/
theorem unseen_empty_le : g.unseen {} ≤ g.size := by
  rw [← Array.length_toList]
  exact List.countP_le_length

/-! ## The walk

The main statement puts both together: the walk of the unfolding is compared with the tour, down to a
depth that the number of nodes bounds. -/

/-- A tour exits a place as often as it enters it. -/
theorem count_exit_tour (place : Nat) (depth : Nat) (start : Option Nat) :
    (g.tour depth start).count (.exit place) = (g.tour depth start).count (.enter place) := by
  -- on the depth: what is entered on the way down is exited on the way up
  induction depth generalizing start with
  | zero => simp [tour]
  | succ depth ih =>
    cases start with
    | none => simp [tour]
    | some p =>
      cases hv : g[p]? with
      | none => simp [tour, hv]
      | some v =>
        have hchildren : (v.children.flatMap (g.tour depth)).count (.exit place) =
            (v.children.flatMap (g.tour depth)).count (.enter place) := by
          rw [List.count_flatMap, List.count_flatMap]
          exact congrArg List.sum (List.map_congr_left fun start _ => ih start)
        rw [tour_of_getElem hv, List.count_cons, List.count_cons, List.count_append, List.count_append,
          hchildren]
        by_cases hp : p = place
        · subst hp
          simp
        · simp [hp]

/-- A place is entered once if its id is met once. -/
theorem count_enter_eq_one {visits : List Visit} (hnodup : (g.ids visits).Nodup) {place : Nat} {v : Vertex}
    (hv : g[place]? = some v) (hmem : .enter place ∈ visits) : visits.count (.enter place) = 1 := by
  obtain ⟨before, after, rfl⟩ := List.append_of_mem hmem
  have hout : ∀ vs : List Visit, v.id ∉ g.ids vs → vs.count (.enter place) = 0 := by
    intro vs hid
    refine List.count_eq_zero.mpr fun hmem => hid ?_
    exact List.mem_filterMap.mpr ⟨_, hmem, by rw [enteredId?, hv]; rfl⟩
  rw [ids_append, ids_enter hv, List.nodup_append] at hnodup
  have hafter : v.id ∉ g.ids after := (List.nodup_cons.mp hnodup.2.1).1
  have hbefore : v.id ∉ g.ids before := fun h => hnodup.2.2 _ h _ List.mem_cons_self rfl
  rw [List.count_append, List.count_cons_self, hout before hbefore, hout after hafter]

/-- A walk and the tour of a graph down to some depth. -/
structure Walked (g : Graph) (tour : List Visit) (walk : Walk) : Prop where
  /-- A walk completes if nothing is missing in the tour and all its ids are different. -/
  completes : walk.stop = none ↔ g.Clear tour
  /-- If it does, the tour is whole and the walk sees all of it. -/
  whole : walk.stop = none → .deeper ∉ tour ∧ List.Forall₂ g.Shows walk.events tour
  /-- Then every place that is entered is entered and exited once. -/
  once : walk.stop = none → ∀ place, .enter place ∈ tour →
    tour.count (.enter place) = 1 ∧ tour.count (.exit place) = 1
  /-- Otherwise it sees the tour up to its first fault, and says what it is. -/
  stops : ∀ fault, walk.stop = some fault → ∃ good bad rest, tour = good ++ bad :: rest ∧
    List.Forall₂ g.Shows walk.events good ∧ g.Clear good ∧ .deeper ∉ good ∧
      g.Faults (· ∈ g.ids good) bad fault

/-- Visits with a fault are not clear. -/
theorem Faults.not_clear {good rest : List Visit} {bad : Visit} {fault : Violation}
    (h : g.Faults (· ∈ g.ids good) bad fault) : ¬ g.Clear (good ++ bad :: rest) := by
  intro hclear
  cases h with
  | missing => exact hclear.present (by simp)
  | repeated hv hmet =>
    have hnodup := hclear.nodup
    rw [ids_append, ids_enter hv, List.nodup_append] at hnodup
    exact hnodup.2.2 _ hmet _ List.mem_cons_self rfl

/-- However a graph shares nodes, runs in circles and lacks children, its walk from a place ends. The tour
it sees may be listed down to any depth beyond the number of nodes, and so may the graph be unfolded. -/
theorem walk_unfold (g : Graph) (root : Nat) {depth : Nat} (hdepth : g.size < depth) :
    ((g.unfoldFrom depth (some root)).run {}).1 = g.unfold root ∧
      g.Walked (g.tour depth (some root)) (g.unfold root).walk := by
  have hunseen := unseen_empty_le (g := g)
  have hsize : g.unseen {} < g.size + 1 := by omega
  have hgoes := goes_unfoldFrom (some root) hsize (Nat.lt_of_le_of_lt hunseen hdepth)
  refine ⟨congrArg Prod.fst (unfoldFrom_congr (some root) (by omega) (by omega)), ?_⟩
  have hwalk : (g.unfold root).walk = followTour {} (Node.tourOnto [] (g.unfold root)) := rfl
  rw [show ((g.unfoldFrom (g.size + 1) (some root)).run {}).1 = g.unfold root from rfl] at hgoes
  -- the walk sees the whole tour, or it stops at the first fault
  cases hgoes with
  | @through shown hshows hclear hseen hevents =>
    have heq : (g.unfold root).walk = ⟨shown, none⟩ := by
      rw [hwalk, hevents, followTour_of_shows hshows hclear]
      simp [followTour]
    rw [heq]
    refine ⟨⟨fun _ => hclear.clear, fun _ => rfl⟩, fun _ => ⟨hclear.whole, hshows⟩, fun _ place hmem => ?_,
      fun _ h => ?_⟩
    · rw [count_exit_tour]
      obtain ⟨v, hv⟩ := exists_vertex_of_shows hshows hmem
      have hone := count_enter_eq_one hclear.clear.nodup hv hmem
      exact ⟨hone, hone⟩
    · cases h
  | @stopped shown good rest bad fault hvisits hshows hclear hfault hstop =>
    have heq : (g.unfold root).walk = ⟨shown, some fault⟩ := by rw [hwalk, hstop]
    have hmet : g.Faults (· ∈ g.ids good) bad fault := by
      cases hfault with
      | missing => exact .missing
      | repeated hv hmet =>
        refine .repeated hv (((contains_marked ..).mp hmet).resolve_left fun hempty => ?_)
        rw [Std.TreeSet.contains_emptyc] at hempty
        cases hempty
    have hstopped : some fault ≠ none := Option.some_ne_none fault
    rw [heq, hvisits]
    refine ⟨⟨fun h => absurd h hstopped, fun h => absurd h hmet.not_clear⟩, fun h => absurd h hstopped,
      fun h => absurd h hstopped, fun _ h => ?_⟩
    cases h
    exact ⟨good, bad, rest, rfl, hshows, hclear.clear, hclear.whole, hmet⟩

/-- A program whose list of statements comes again below itself, behind a node that is shared. -/
def circling : Graph := #[
  { id := 0, kind := .program, children := [some 1] },
  { id := 7, kind := .stmtList, children := [some 2, some 1, some 2] },
  { id := 3, kind := .terminal }]

theorem walk_unfold_circling : circling.size < 5 ∧
    (circling.unfold 0).walk.stop = some (.repeatedNode 7) ∧
      ((circling.unfoldFrom 5 (some 0)).run {}).1 = circling.unfold 0 ∧
        circling.Walked (circling.tour 5 (some 0)) (circling.unfold 0).walk :=
  ⟨by decide, by decide +kernel, walk_unfold circling 0 (by decide)⟩

end Graph

end ScriptPir
