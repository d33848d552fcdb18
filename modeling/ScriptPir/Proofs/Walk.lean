import ScriptPir.Lowering.Tree
import ScriptPir.Proofs.Shape

/-!
# The walk of a tree as a recursion

A lowering follows a list of events that was made beforehand. Proofs follow the tree instead:

* `Lower.walk` enters a node, walks its children and exits it;
* `lower_eq_of_walk` — if the ids of a tree are all different and `walk` succeeds, then `lower` does
  the same;
* `Entered ns s m t` — the walk of the trees `ns` from the state `s` enters the node `m` in the state
  `t`. A walk that succeeds enters every node (`exists_entered`), and in a tree with different ids it
  enters no node twice (`Entered.unique`).
-/

namespace ScriptPir

namespace Lower

mutual

/-- Enters a node, walks its children and exits it. -/
def walk : Node → Lower Unit
  | .absent => throw .absentNode
  | .mk id kind token children => do
    enter (.mk id kind token children)
    walkAll children
    exit (.mk id kind token children)

/-- Walks some trees one after the other. -/
def walkAll : List Node → Lower Unit
  | [] => pure ()
  | n :: ns => do
    walk n
    walkAll ns

end

/-- Two steps that succeed one after the other succeed each. -/
theorem run_bind_eq_ok {α β : Type} {p : Lower α} {f : α → Lower β} {b : β} {s s'' : Lowering}
    (h : (p >>= f).run s = .ok (b, s'')) :
    ∃ a s', p.run s = .ok (a, s') ∧ (f a).run s' = .ok (b, s'') := by
  rw [StateT.run_bind] at h
  cases hp : p.run s with
  | error v => rw [hp] at h; cases h
  | ok r =>
    rw [hp] at h
    exact ⟨r.1, r.2, rfl, h⟩

/-! ## Following the tour

The tour is built from the back, onto a list of events that come later. So the theorem for a tree has
such a list as a parameter. -/

theorem forM_step_cons (event : Event) (events : List Event) :
    (event :: events).forM step = (do step event; events.forM step) := rfl

mutual

/-- To follow the tour of a tree in front of some events is to walk it and then to follow them. -/
theorem forM_tourOnto (acc : List Event) (n : Node) :
    (n.tourOnto acc).forM step = (do walk n; acc.forM step) := by
  cases n with
  | absent =>
    rw [Node.tourOnto, forM_step_cons, walk]
    rfl
  | mk id kind token children =>
    rw [Node.tourOnto, forM_step_cons, forM_tourOntoAll, forM_step_cons, walk]
    simp only [bind_assoc]
    rfl

/-- To follow the tours of some trees is to walk them one after the other. -/
theorem forM_tourOntoAll (acc : List Event) (ns : List Node) :
    (Node.tourOntoAll acc ns).forM step = (do walkAll ns; acc.forM step) := by
  cases ns with
  | nil => rw [Node.tourOntoAll, walkAll, pure_bind]
  | cons n ns =>
    rw [Node.tourOntoAll, forM_tourOnto, forM_tourOntoAll, walkAll, bind_assoc]

end

/-- To follow the tour of a tree is to walk it. -/
theorem forM_tour (n : Node) : n.tour.forM step = walk n := by
  rw [Node.tour, forM_tourOnto]
  exact bind_pure _

end Lower

/-- The ids of the nodes that some events enter. -/
def enteredIds : List Event → List Int
  | [] => []
  | .enter n :: events => n.id :: enteredIds events
  | .exit _ :: events => enteredIds events
  | .missing :: events => enteredIds events

mutual

/-- The tour of a tree enters all its nodes. -/
theorem enteredIds_tourOnto (acc : List Event) (n : Node) :
    enteredIds (n.tourOnto acc) = n.ids ++ enteredIds acc := by
  cases n with
  | absent => rfl
  | mk id kind token children =>
    rw [Node.tourOnto, enteredIds, enteredIds_tourOntoAll, enteredIds, Node.ids]
    rfl

/-- The tour of some trees enters all their nodes. -/
theorem enteredIds_tourOntoAll (acc : List Event) (ns : List Node) :
    enteredIds (Node.tourOntoAll acc ns) = Node.idsAll ns ++ enteredIds acc := by
  cases ns with
  | nil => rfl
  | cons n ns =>
    rw [Node.tourOntoAll, enteredIds_tourOnto, enteredIds_tourOntoAll, Node.idsAll,
      List.append_assoc]

end

/-- Nothing stops a walk over nodes that are all there and have ids not met before. It goes on behind them,
with their ids met. -/
theorem followTour_append {seen : Std.TreeSet Int compare} {events : List Event} (rest : List Event)
    (hpresent : .missing ∉ events) (hnodup : (enteredIds events).Nodup)
    (hseen : ∀ i ∈ enteredIds events, seen.contains i = false) :
    followTour seen (events ++ rest) =
      ⟨events ++ (followTour ((enteredIds events).foldl (·.insert) seen) rest).events,
        (followTour ((enteredIds events).foldl (·.insert) seen) rest).stop⟩ := by
  induction events generalizing seen with
  | nil => rfl
  | cons event events ih =>
    have hpresent' : .missing ∉ events := fun h => hpresent (List.mem_cons_of_mem _ h)
    cases event with
    | missing => exact absurd List.mem_cons_self hpresent
    | exit n =>
      rw [List.cons_append, followTour, ih hpresent' hnodup hseen]
      rfl
    | enter n =>
      rw [enteredIds, List.nodup_cons] at hnodup
      have hnew : seen.contains n.id = false := hseen n.id List.mem_cons_self
      -- the ids still to come differ from this one, so they stay unseen
      have hseen' : ∀ i ∈ enteredIds events, (seen.insert n.id).contains i = false := by
        intro i hi
        have hne : n.id ≠ i := by
          rintro rfl
          exact hnodup.1 hi
        rw [Std.TreeSet.contains_insert, hseen i (List.mem_cons_of_mem _ hi)]
        simpa using hne
      rw [List.cons_append, followTour, if_neg (by rw [hnew]; decide), ih hpresent' hnodup.2 hseen']
      rfl

/-- A tour without missing nodes and with different ids is followed as a whole. -/
theorem followTour_eq {seen : Std.TreeSet Int compare} {events : List Event}
    (hpresent : .missing ∉ events) (hnodup : (enteredIds events).Nodup)
    (hseen : ∀ i ∈ enteredIds events, seen.contains i = false) :
    followTour seen events = ⟨events, none⟩ := by
  have h := followTour_append [] hpresent hnodup hseen
  simpa [followTour] using h

/-- If all steps succeed, no event is a missing node. -/
theorem missing_not_mem_of_run {events : List Event} {s s' : Lowering}
    (h : (events.forM Lower.step).run s = .ok ((), s')) : .missing ∉ events := by
  induction events generalizing s with
  | nil => exact List.not_mem_nil
  | cons event events ih =>
    rw [Lower.forM_step_cons] at h
    obtain ⟨_, s₁, hstep, hrest⟩ := Lower.run_bind_eq_ok h
    intro hmem
    rcases List.mem_cons.mp hmem with heq | hmem
    · rw [← heq] at hstep
      cases hstep
    · exact ih hrest hmem

/-- The state in which the walk of a tree starts. -/
def Lowering.started (label stdlib : String) : Lowering :=
  { stdlib, used := true, notices := #[.phaseStarted "translate" label] }

/-- A tree with different ids is walked to the end of its tour. -/
theorem walk_eq_tour {root : Node} {s s' : Lowering} (hids : root.ids.Nodup)
    (h : (Lower.walk root).run s = .ok ((), s')) : root.walk = ⟨root.tour, none⟩ := by
  have hrun : (root.tour.forM Lower.step).run s = .ok ((), s') := by
    rw [Lower.forM_tour, h]
  have hentered : enteredIds root.tour = root.ids := by
    rw [Node.tour, enteredIds_tourOnto]
    exact List.append_nil _
  -- nothing stops the walk, because the recursion met no missing child and no id comes twice
  refine followTour_eq (missing_not_mem_of_run hrun) (by rw [hentered]; exact hids) ?_
  intro i _
  exact Std.TreeSet.contains_emptyc

/-- A tree with different ids is lowered by walking it. -/
theorem lower_eq_of_walk {root : Node} {label stdlib : String} {s : Lowering}
    (hids : root.ids.Nodup) (h : (Lower.walk root).run (.started label stdlib) = .ok ((), s)) :
    lower root label stdlib =
      .ok { s with notices := s.notices.push (.phaseCompleted "translate" label) } := by
  have hrun : (root.tour.forM Lower.step).run (.started label stdlib) = .ok ((), s) := by
    rw [Lower.forM_tour, h]
  have hwalk := walk_eq_tour hids h
  have hfollow : (Lower.follow root.walk).run (.started label stdlib) = .ok ((), s) := by
    rw [hwalk, Lower.follow, StateT.run_bind, hrun]
    rfl
  have htree : (Lower.tree root label).run { stdlib } =
      .ok ((), { s with notices := s.notices.push (.phaseCompleted "translate" label) }) := by
    show (Lower.follow root.walk >>= fun _ =>
      Lower.note (.phaseCompleted "translate" label)).run (.started label stdlib) = _
    rw [StateT.run_bind, hfollow]
    rfl
  rw [lower, Lowering.run, htree]
  rfl

/-! ## Entered nodes

The state in which a node is entered is determined by the walk. `Entered` follows the way from the
start to it: past some trees that were walked, or into one that was entered. -/

/-- The walk of the trees `ns` from the state `s` enters the node `m` in the state `t`. -/
inductive Entered : List Node → Lowering → Node → Lowering → Prop where
  | here {n : Node} {ns : List Node} {s : Lowering} : Entered (n :: ns) s n s
  | inside {id : Int} {kind : Kind} {token : Token} {children ns : List Node} {m : Node}
      {s s' t : Lowering} (henter : (Lower.enter (.mk id kind token children)).run s = .ok ((), s'))
      (h : Entered children s' m t) : Entered (.mk id kind token children :: ns) s m t
  | after {n m : Node} {ns : List Node} {s s' t : Lowering}
      (hwalk : (Lower.walk n).run s = .ok ((), s')) (h : Entered ns s' m t) :
      Entered (n :: ns) s m t

namespace Entered

variable {ns : List Node} {m m' : Node} {s t t' : Lowering}

/-- A node that is entered is one of the trees. -/
theorem id_mem (h : Entered ns s m t) (hm : m ≠ .absent) : m.id ∈ Node.idsAll ns := by
  induction h with
  | @here n ns s => exact List.mem_append_left _ (n.id_mem_ids hm)
  | inside henter h ih => simp [Node.idsAll, Node.ids, ih hm]
  | after hwalk h ih => simp [Node.idsAll, ih hm]

/-- What the walk of an entered node enters is entered. -/
theorem trans {k : Node} {u : Lowering} (h : Entered ns s m t) (h' : Entered [m] t k u) :
    Entered ns s k u := by
  induction h with
  | here =>
    cases h' with
    | here => exact .here
    | inside henter h' => exact .inside henter h'
    | after hwalk h' => cases h'
  | inside henter h ih => exact .inside henter (ih h')
  | after hwalk h ih => exact .after hwalk (ih h')

/-- Trees with different ids enter a node at most once. -/
theorem unique (hnodup : (Node.idsAll ns).Nodup) (h : Entered ns s m t) (h' : Entered ns s m' t')
    (hm : m ≠ .absent) (hm' : m' ≠ .absent) (hid : m.id = m'.id) : m = m' ∧ t = t' := by
  induction h generalizing m' t' with
  | @here n ns s =>
    cases h' with
    | here => exact ⟨rfl, rfl⟩
    | @inside id kind token children _ _ _ _ _ henter h' =>
      -- the node would be below itself
      have hmem := h'.id_mem hm'
      rw [Node.idsAll, Node.ids, List.cons_append, List.nodup_cons] at hnodup
      refine absurd (List.mem_append_left _ ?_) hnodup.1
      rw [← hid] at hmem
      exact hmem
    | after hwalk h' =>
      have hmem := h'.id_mem hm'
      rw [Node.idsAll, List.nodup_append] at hnodup
      exact absurd hid (hnodup.2.2 _ (n.id_mem_ids hm) _ hmem)
  | @inside id kind token children ns m s s' t henter h ih =>
    have hmem := h.id_mem hm
    rw [Node.idsAll, Node.ids, List.cons_append, List.nodup_cons] at hnodup
    cases h' with
    | here =>
      refine absurd (List.mem_append_left _ ?_) hnodup.1
      rw [hid] at hmem
      exact hmem
    | inside henter' h' =>
      rw [henter] at henter'
      cases henter'
      exact ih (List.nodup_append.mp hnodup.2).1 h' hm hm' hid
    | after hwalk h' =>
      exact absurd hid ((List.nodup_append.mp hnodup.2).2.2 _ hmem _ (h'.id_mem hm'))
  | @after n m ns s s' t hwalk h ih =>
    have hmem := h.id_mem hm
    rw [Node.idsAll] at hnodup
    have hdisjoint := (List.nodup_append.mp hnodup).2.2
    cases h' with
    | here =>
      exact absurd hid.symm (hdisjoint _ (n.id_mem_ids hm') _ hmem)
    | inside henter' h' =>
      exact absurd hid.symm (hdisjoint _ (List.mem_cons_of_mem _ (h'.id_mem hm')) _ hmem)
    | after hwalk' h' =>
      rw [hwalk] at hwalk'
      cases hwalk'
      exact ih (List.nodup_append.mp hnodup).2.1 h' hm hm' hid

end Entered

mutual

/-- What stands in front of some nodes when the nodes of a tree are listed is entered if the tree is
walked. -/
theorem entered_or_mem_of_walk {n m : Node} {ns acc : List Node} {s s' : Lowering}
    (hwalk : (Lower.walk n).run s = .ok ((), s')) (hm : m ∈ n.nodesOnto acc) :
    (∃ t, Entered (n :: ns) s m t) ∨ m ∈ acc := by
  cases n with
  | absent => exact .inr hm
  | mk id kind token children =>
    rw [Lower.walk] at hwalk
    obtain ⟨_, s₁, henter, hrest⟩ := Lower.run_bind_eq_ok hwalk
    obtain ⟨_, s₂, hchildren, -⟩ := Lower.run_bind_eq_ok hrest
    rw [Node.nodesOnto] at hm
    rcases List.mem_cons.mp hm with rfl | hm
    · exact .inl ⟨s, .here⟩
    · refine (entered_or_mem_of_walkAll hchildren hm).imp_left ?_
      rintro ⟨t, ht⟩
      exact ⟨t, .inside henter ht⟩

/-- Each node of some trees is entered in their walk, or was in the list before. -/
theorem entered_or_mem_of_walkAll {m : Node} {ns acc : List Node} {s s' : Lowering}
    (hwalk : (Lower.walkAll ns).run s = .ok ((), s')) (hm : m ∈ Node.nodesOntoAll acc ns) :
    (∃ t, Entered ns s m t) ∨ m ∈ acc := by
  cases ns with
  | nil => exact .inr hm
  | cons n ns =>
    rw [Lower.walkAll] at hwalk
    obtain ⟨_, s₁, hfirst, hrest⟩ := Lower.run_bind_eq_ok hwalk
    rw [Node.nodesOntoAll] at hm
    rcases entered_or_mem_of_walk hfirst hm with hm | hm
    · exact .inl hm
    · refine (entered_or_mem_of_walkAll hrest hm).imp_left ?_
      rintro ⟨t, ht⟩
      exact ⟨t, .after hfirst ht⟩

end

/-- A walk that succeeds enters every node of its tree. -/
theorem exists_entered {root m : Node} {s s' : Lowering}
    (hwalk : (Lower.walk root).run s = .ok ((), s')) (hm : m ∈ root.nodesOnto []) :
    ∃ t, Entered [root] s m t :=
  (entered_or_mem_of_walk hwalk hm).resolve_right List.not_mem_nil

end ScriptPir
