import ScriptPir.Proofs.Deferral

/-!
# Entries and exits that succeeded

What is known of a walk that succeeded is read off its steps, whatever the tree looks like: `Staged s ids
kept s'` says that between two states the stacks kept their frame and fragments were kept for the nodes
with the ids `kept`.

* `exists_framed_of_enterBranch` and the like — in which state an entry leaves a lowering;
* `Staged.exitBranch` and the like — what is kept once a construct has placed its parts.

It differs from what is known of the walk of a shape (`Stage`) in that nothing is said about the lines.
That is enough to see that the stacks are as before behind every node, and it needs no more than the
success of the walk.
-/

namespace ScriptPir

open Shape

/-! ## Steps that succeeded

A run has one result, so what a step reaches is true of the state behind it. Steps that only look
something up leave the state as it was. -/

/-- What a step reaches holds in the state that it leads to. -/
theorem Lower.Reaches.of_run {p : Lower Unit} {s s' : Lowering} {Q : Lowering → Prop}
    (h : p.Reaches s Q) (hrun : p.run s = .ok ((), s')) : Q s' := by
  obtain ⟨s'', hrun', hQ⟩ := h
  rw [hrun] at hrun'
  cases hrun'
  exact hQ

/-- A check that succeeds does not change the state. -/
theorem Lower.eq_of_run_check {α : Type} {x : Except Violation α} {a : α} {s s' : Lowering}
    (h : (check x).run s = .ok (a, s')) : x = .ok a ∧ s' = s := by
  cases x with
  | error v => cases h
  | ok b =>
    cases h
    exact ⟨rfl, rfl⟩

/-- The arguments of a call are only looked up. -/
theorem Lower.eq_of_run_arguments {args : Node} {as : List Argument} {s s' : Lowering}
    (h : (arguments args).run s = .ok (as, s')) : s' = s := by
  unfold arguments at h
  generalize args.children = cs at h
  -- on the arguments, each of which is looked up in the table of values
  induction cs generalizing as with
  | nil =>
    cases h
    rfl
  | cons c cs ih =>
    rw [List.mapM_cons] at h
    obtain ⟨a, s₁, hfirst, hrest⟩ := run_bind_eq_ok h
    have hsame : s₁ = s := by
      obtain ⟨v, -, hfirst⟩ := of_bind_valueOf hfirst
      split at hfirst
      · obtain ⟨name, -, hfirst⟩ := of_bind_child hfirst
        cases hfirst
        rfl
      · cases hfirst
        rfl
    obtain ⟨rest, s₂, hrest, hlist⟩ := run_bind_eq_ok hrest
    cases hlist
    rw [hsame] at hrest
    exact ih hrest

/-! ## Stages of a walk that succeeded

`Staged` forgets which lines were written and keeps track of fragments only: which nodes have one, in
the order of the walk. An exit has to take them in another order, which the rules below allow. -/

/-- Between two states of a walk, some lines were written and labels taken, and fragments were kept for
the nodes with the ids `kept`. -/
def Staged (s : Lowering) (ids kept : List Int) (s' : Lowering) : Prop :=
  ∃ lines labels pairs, Stage s ids lines labels pairs s' ∧ pairs.map Prod.fst = kept

namespace Staged

variable {α : Type} {s s₁ u u' : Lowering} {ids ids₁ kept kept₁ before after : List Int}
  {n : Node} {r : α × Lowering}

theorem of_writes {lines : List Line} {labels : Nat} (h : Writes s ids lines labels u) :
    Staged s ids [] u := ⟨lines, labels, [], .of_writes h, rfl⟩

/-- A stretch that keeps no fragments moves none. -/
theorem writes (h : Staged s ids [] u) : ∃ lines labels, Writes s ids lines labels u := by
  obtain ⟨lines, labels, pairs, hstage, hkept⟩ := h
  rw [List.map_eq_nil_iff] at hkept
  subst hkept
  exact ⟨lines, labels, hstage.writes⟩

/-- A stretch may be said to find out values for more nodes than it does. -/
theorem mono (h : Staged s ids kept u) (hsub : ids ⊆ ids₁) : Staged s ids₁ kept u := by
  obtain ⟨lines, labels, pairs, hstage, hkept⟩ := h
  exact ⟨lines, labels, pairs, hstage.mono hsub, hkept⟩

/-- Two stretches keep the fragments of the first and those of the second. -/
theorem trans (h : Staged s ids kept s₁) (h₁ : Staged s₁ ids₁ kept₁ u) :
    Staged s (ids ++ ids₁) (kept ++ kept₁) u := by
  obtain ⟨lines, labels, pairs, hstage, hkept⟩ := h
  obtain ⟨lines₁, labels₁, pairs₁, hstage₁, hkept₁⟩ := h₁
  refine ⟨_, _, _, hstage.trans hstage₁, ?_⟩
  rw [List.map_append, hkept, hkept₁]

theorem then_writes {lines : List Line} (h : Staged s ids kept u) (hw : Writes u [] lines 0 u') :
    Staged s ids kept u' := by
  obtain ⟨before, labels, pairs, hstage, hkept⟩ := h
  exact ⟨_, _, _, hstage.then_writes hw, hkept⟩

section Steps

variable (hb : s.buffers.stack ≠ []) (h : Staged s ids kept u)

include hb h

/-- Behind a stretch there is a fragment to write to. -/
theorem buffers_ne : u.buffers.stack ≠ [] := by
  obtain ⟨lines, labels, pairs, hstage, -⟩ := h
  exact hstage.buffers_ne hb

theorem emit {i : Instr} (hrun : (Lower.emit i).run u = .ok ((), u')) : Staged s ids kept u' :=
  h.then_writes ((reaches_emit (h.buffers_ne hb) i).of_run hrun)

theorem emitLabel {l : Label} (hrun : (Lower.emitLabel l).run u = .ok ((), u')) :
    Staged s ids kept u' :=
  h.then_writes ((reaches_emitLabel (h.buffers_ne hb) l).of_run hrun)

theorem splice {fragment : Fragment} (hrun : (Lower.splice fragment).run u = .ok ((), u')) :
    Staged s ids kept u' :=
  h.then_writes ((reaches_splice (h.buffers_ne hb) fragment.toList).of_run hrun)

end Steps

/-- A value may be recorded for a node of the tree. -/
theorem setValue {v : Value} (h : Staged s ids kept u) (hmem : n.id ∈ ids)
    (hrun : (Lower.setValue n v).run u = .ok ((), u')) : Staged s ids kept u' := by
  obtain ⟨lines, labels, pairs, hstage, hkept⟩ := h
  cases hrun
  exact ⟨lines, labels, pairs, hstage.setValue hmem v, hkept⟩

/-- A fragment that is taken is no longer kept. -/
theorem take {c : Node} {fragment : Fragment} (before : List Int)
    (h : Staged s ids (before ++ c.id :: after) u)
    (hrun : (Lower.take c).run u = .ok (fragment, u')) : Staged s ids (before ++ after) u' := by
  obtain ⟨lines, labels, pairs, hstage, hkept⟩ := h
  obtain ⟨first, rest, rfl, hfirst, hrest⟩ := List.map_eq_append_iff.mp hkept
  obtain ⟨⟨_, part⟩, last, rfl, rfl, hlast⟩ := List.map_eq_cons_iff.mp hrest
  obtain ⟨-, rfl⟩ := exists_of_run_take hrun
  refine ⟨lines, labels, first ++ last, Stage.taken first hstage, ?_⟩
  rw [List.map_append, hfirst, hlast]

/-- What was written to a new fragment is kept for a node. -/
theorem stash (h : Staged { s with buffers := s.buffers.push } ids [] u)
    (hfree : s.fragment n.id = none) (hmem : n.id ∈ ids)
    (hrun : (Lower.stash n).run u = .ok ((), u')) : Staged s ids [n.id] u' := by
  obtain ⟨lines, labels, hwrites⟩ := h.writes
  rw [run_stash hwrites.passage n] at hrun
  cases hrun
  exact ⟨_, _, _, (Stage.of_writes hwrites).stash hfree hmem, rfl⟩

/-- Fragments that are taken and placed one after the other are no longer kept. -/
theorem placeAll {nodes : List Node} (hb : s.buffers.stack ≠ [])
    (h : Staged s ids (nodes.map Node.id) u)
    (hrun : (nodes.forM fun c => do
        let fragment ← Lower.take c
        Lower.splice fragment).run u = .ok ((), u')) : Staged s ids [] u' := by
  obtain ⟨lines, labels, pairs, hstage, hkept⟩ := h
  exact ⟨_, _, _, (hstage.reaches_placeAll hb hkept.symm).of_run hrun, rfl⟩

/-- A condition and a body are placed as an arm. -/
theorem arm {negated : Bool} {f : Frame Label} {c b : Node} (hb : s.buffers.stack ≠ [])
    (h : Staged s ids (c.id :: b.id :: kept) u)
    (hrun : (Lower.arm negated f c b).run u = .ok ((), u')) : Staged s ids kept u' := by
  -- step by step, as the arm is written: condition, jumps, label, body
  obtain ⟨v, -, hrun⟩ := Lower.of_bind_valueOf hrun
  obtain ⟨code, u₁, htake, hrun⟩ := Lower.run_bind_eq_ok hrun
  have h₁ := h.take [] htake
  obtain ⟨_, u₂, hsplice, hrun⟩ := Lower.run_bind_eq_ok hrun
  have h₂ := h₁.splice hb hsplice
  obtain ⟨_, u₃, hbranch, hrun⟩ := Lower.run_bind_eq_ok hrun
  have h₃ := h₂.emit hb hbranch
  obtain ⟨_, u₄, hjump, hrun⟩ := Lower.run_bind_eq_ok hrun
  have h₄ := h₃.emit hb hjump
  obtain ⟨_, u₅, hlabel, hrun⟩ := Lower.run_bind_eq_ok hrun
  have h₅ := h₄.emitLabel hb hlabel
  obtain ⟨body, u₆, htake', hrun⟩ := Lower.run_bind_eq_ok hrun
  have h₆ := h₅.take [] htake'
  obtain ⟨_, u₇, hsplice', hrun⟩ := Lower.run_bind_eq_ok hrun
  have h₇ := h₆.splice hb hsplice'
  cases hfinish : f.finish with
  | none =>
    rw [hfinish] at hrun
    exact h₇.emitLabel hb hrun
  | some finish =>
    rw [hfinish] at hrun
    obtain ⟨_, u₈, hfinal, hrun⟩ := Lower.run_bind_eq_ok hrun
    exact (h₇.emit hb hfinal).emitLabel hb hrun

/-- A condition and a body are placed as a loop. -/
theorem loop {f : Frame Label} {c b : Node} {step : Fragment} (hb : s.buffers.stack ≠ [])
    (h : Staged s ids (c.id :: b.id :: kept) u)
    (hrun : (Lower.loop f c b step).run u = .ok ((), u')) : Staged s ids kept u' := by
  -- step by step, as the loop is written: label, condition, body, step, jump back
  obtain ⟨v, -, hrun⟩ := Lower.of_bind_valueOf hrun
  obtain ⟨_, u₁, hlabel, hrun⟩ := Lower.run_bind_eq_ok hrun
  have h₁ := h.emitLabel hb hlabel
  obtain ⟨code, u₂, htake, hrun⟩ := Lower.run_bind_eq_ok hrun
  have h₂ := h₁.take [] htake
  obtain ⟨_, u₃, hsplice, hrun⟩ := Lower.run_bind_eq_ok hrun
  have h₃ := h₂.splice hb hsplice
  obtain ⟨_, u₄, hbranch, hrun⟩ := Lower.run_bind_eq_ok hrun
  have h₄ := h₃.emit hb hbranch
  obtain ⟨body, u₅, htake', hrun⟩ := Lower.run_bind_eq_ok hrun
  have h₅ := h₄.take [] htake'
  obtain ⟨_, u₆, hsplice', hrun⟩ := Lower.run_bind_eq_ok hrun
  have h₆ := h₅.splice hb hsplice'
  obtain ⟨_, u₇, hstep, hrun⟩ := Lower.run_bind_eq_ok hrun
  have h₇ := h₆.splice hb hstep
  obtain ⟨_, u₈, hjump, hrun⟩ := Lower.run_bind_eq_ok hrun
  exact (h₇.emit hb hjump).emitLabel hb hrun

/-- The frame that a construct has stacked when it was entered is unstacked. -/
theorem popFrame {own : Nat} {f f' : Frame Label} (h : Staged (s.framed own f []) ids kept u)
    (hrun : Lower.popFrame.run u = .ok (f', u')) : Staged s ids kept u' := by
  obtain ⟨lines, labels, pairs, hstage, hkept⟩ := h
  rw [run_popFrame_of_framed hstage.passage] at hrun
  cases hrun
  exact ⟨_, _, _, hstage.unframed rfl hstage.passage.loops rfl, hkept⟩

/-- The frame and the exit of a loop are unstacked. -/
theorem popLoop {f : Frame Label} {exit : Label} {p : Frame Label → Lower α}
    (h : Staged (s.framed 2 f [exit]) ids kept u)
    (hrun : (Lower.popFrame >>= fun f => Lower.popLoop >>= fun _ => p f).run u = .ok r) :
    ∃ f u', Staged s ids kept u' ∧ (p f).run u' = .ok r := by
  obtain ⟨lines, labels, pairs, hstage, hkept⟩ := h
  have hpop : Lower.popLoop.run { u with labels := { u.labels with frames := s.labels.frames } } =
      .ok ((), s.unlooped u) := Lower.run_popLoop hstage.passage.loops
  rw [Lower.run_bind_of_ok (run_popFrame_of_framed hstage.passage)] at hrun
  exact ⟨f, s.unlooped u, ⟨_, _, _, hstage.unframed rfl rfl rfl, hkept⟩,
    (Lower.run_bind_of_ok hpop).symm.trans hrun⟩

end Staged

/-! ## Entering a node

An entry of a construct takes labels and stacks a frame, and nothing else. -/

section Entering

variable {n : Node} {s s₁ : Lowering}

/-- To enter a branch stacks a frame. -/
theorem exists_framed_of_enterBranch (h : (Lower.enterBranch n).run s = .ok ((), s₁)) :
    ∃ own f, s₁ = s.framed own f [] := by
  unfold Lower.enterBranch at h
  by_cases hmore : n.children.length > 2
  · simp only [if_pos hmore] at h
    cases h
    exact ⟨3, _, rfl⟩
  · simp only [if_neg hmore] at h
    cases h
    exact ⟨2, _, rfl⟩

/-- To enter a further arm starts a fragment and stacks a frame. -/
theorem exists_framed_of_enterElsif (h : Lower.enterElsif.run s = .ok ((), s₁)) :
    ∃ own f, s₁ = { s with buffers := s.buffers.push }.framed own f [] := by
  obtain ⟨f, s₂, hframe, hrest⟩ := Lower.run_bind_eq_ok h
  obtain ⟨_, _, hget, hframe⟩ := Lower.run_bind_eq_ok hframe
  cases hget
  rw [(Lower.eq_of_run_check hframe).2] at hrest
  cases hfinish : f.finish with
  | none =>
    simp only [hfinish] at hrest
    cases hrest
  | some finish =>
    simp only [hfinish] at hrest
    cases hrest
    exact ⟨2, _, rfl⟩

/-- To enter a loop stacks a frame and the exit of the loop. -/
theorem exists_framed_of_enterLoop (h : (Lower.enterLoop n).run s = .ok ((), s₁)) :
    ∃ f exit, s₁ = s.framed 2 f [exit] := by
  cases h
  exact ⟨_, _, rfl⟩

end Entering

/-! ## Exiting a node

An exit places all fragments that were kept for the children of its node, so that none is left. A
further arm and the parts of a header are kept as a fragment themselves. -/

theorem Node.child?_eq {n c : Node} {cs : List Node} {i : Nat} (hn : n.children = cs)
    (hc : n.child? i = some c) : cs[i]? = some c := by
  rw [← hn]
  exact (child?_eq_some.mp hc).1

namespace Staged

variable {s u u' : Lowering} {ids : List Int} {n c b : Node}

/-- The exit of a branch places its first arm, then the further ones. -/
theorem exitBranch {own : Nat} {f : Frame Label} {arms : List Node} (hb : s.buffers.stack ≠ [])
    (hn : n.children = c :: b :: arms)
    (h : Staged (s.framed own f []) ids (c.id :: b.id :: arms.map Node.id) u)
    (hrun : (Lower.exitBranch n).run u = .ok ((), u')) : Staged s ids [] u' := by
  obtain ⟨f, u₁, hpop, hrun⟩ := Lower.run_bind_eq_ok hrun
  have h₁ := h.popFrame hpop
  obtain ⟨c', hc, hrun⟩ := Lower.of_bind_child hrun
  obtain ⟨b', hb', hrun⟩ := Lower.of_bind_child hrun
  cases Node.child?_eq hn hc
  cases Node.child?_eq hn hb'
  obtain ⟨_, u₂, harm, hrun⟩ := Lower.run_bind_eq_ok hrun
  have h₂ := h₁.arm hb harm
  obtain ⟨_, u₃, hplace, hrun⟩ := Lower.run_bind_eq_ok hrun
  rw [hn] at hplace
  have h₃ := h₂.placeAll hb hplace
  -- a branch with one arm has no label at its end
  cases hfinish : f.finish with
  | none =>
    rw [hfinish] at hrun
    cases hrun
    exact h₃
  | some finish =>
    rw [hfinish] at hrun
    exact h₃.emitLabel hb hrun

/-- The exit of a further arm keeps it as one fragment. -/
theorem exitElsif {own : Nat} {f : Frame Label} (hn : n.children = [c, b])
    (hfree : s.fragment n.id = none) (hmem : n.id ∈ ids)
    (h : Staged ({ s with buffers := s.buffers.push }.framed own f []) ids [c.id, b.id] u)
    (hrun : (Lower.exitElsif n).run u = .ok ((), u')) : Staged s ids [n.id] u' := by
  obtain ⟨f, u₁, hpop, hrun⟩ := Lower.run_bind_eq_ok hrun
  have h₁ := h.popFrame hpop
  obtain ⟨c', hc, hrun⟩ := Lower.of_bind_child hrun
  obtain ⟨b', hb', hrun⟩ := Lower.of_bind_child hrun
  cases Node.child?_eq hn hc
  cases Node.child?_eq hn hb'
  obtain ⟨_, u₂, harm, hrun⟩ := Lower.run_bind_eq_ok hrun
  exact (h₁.arm (List.cons_ne_nil _ _) harm).stash hfree hmem hrun

/-- The exit of the last arm keeps it as one fragment. -/
theorem exitElse (hn : n.children = [b]) (hfree : s.fragment n.id = none) (hmem : n.id ∈ ids)
    (h : Staged s ids [b.id] u) (hrun : (Lower.exitElse n).run u = .ok ((), u')) :
    Staged s ids [n.id] u' := by
  obtain ⟨b', hb, hrun⟩ := Lower.of_bind_child hrun
  cases Node.child?_eq hn hb
  obtain ⟨body, u₁, htake, hrun⟩ := Lower.run_bind_eq_ok hrun
  obtain ⟨lines, labels, hwrites⟩ := (h.take [] htake).writes
  cases hrun
  exact ⟨lines, labels, [(n.id, body.toList)], (Stage.of_writes hwrites).keep hfree hmem, rfl⟩

/-- The exit of a loop places its condition and its body. -/
theorem exitWhile {f : Frame Label} {exit : Label} (hb : s.buffers.stack ≠ [])
    (hn : n.children = [c, b]) (h : Staged (s.framed 2 f [exit]) ids [c.id, b.id] u)
    (hrun : (Lower.exitWhile n).run u = .ok ((), u')) : Staged s ids [] u' := by
  obtain ⟨f, u₁, h₁, hrun⟩ := h.popLoop hrun
  obtain ⟨c', hc, hrun⟩ := Lower.of_bind_child hrun
  obtain ⟨b', hb', hrun⟩ := Lower.of_bind_child hrun
  cases Node.child?_eq hn hc
  cases Node.child?_eq hn hb'
  exact h₁.loop hb hrun

/-- The exit of a loop with a header places its start, its condition, its body and its step. -/
theorem exitFor {f : Frame Label} {exit : Label} {init step : Node} (hb : s.buffers.stack ≠ [])
    (hn : n.children = [init, c, step, b])
    (h : Staged (s.framed 2 f [exit]) ids [init.id, c.id, step.id, b.id] u)
    (hrun : (Lower.exitFor n).run u = .ok ((), u')) : Staged s ids [] u' := by
  obtain ⟨f, u₁, h₁, hrun⟩ := h.popLoop hrun
  obtain ⟨init', hinit, hrun⟩ := Lower.of_bind_child hrun
  cases Node.child?_eq hn hinit
  obtain ⟨before, u₂, htake, hrun⟩ := Lower.run_bind_eq_ok hrun
  obtain ⟨_, u₃, hsplice, hrun⟩ := Lower.run_bind_eq_ok hrun
  have h₃ := (h₁.take [] htake).splice hb hsplice
  obtain ⟨c', hc, hrun⟩ := Lower.of_bind_child hrun
  obtain ⟨b', hb', hrun⟩ := Lower.of_bind_child hrun
  obtain ⟨step', hstep, hrun⟩ := Lower.of_bind_child hrun
  cases Node.child?_eq hn hc
  cases Node.child?_eq hn hb'
  cases Node.child?_eq hn hstep
  obtain ⟨each, u₄, htake', hrun⟩ := Lower.run_bind_eq_ok hrun
  exact (h₃.take [c.id] htake').loop hb hrun

/-- The exit of a condition keeps its code as one fragment. -/
theorem exitCond (hfree : s.fragment n.id = none) (hmem : n.id ∈ ids)
    (h : Staged { s with buffers := s.buffers.push } ids [] u)
    (hrun : (Lower.exitCond n).run u = .ok ((), u')) : Staged s ids [n.id] u' := by
  obtain ⟨_, u₁, hstash, hrun⟩ := Lower.run_bind_eq_ok hrun
  obtain ⟨e, -, hrun⟩ := Lower.of_bind_child hrun
  obtain ⟨v, -, hrun⟩ := Lower.of_bind_valueOf hrun
  exact (h.stash hfree hmem hstash).setValue hmem hrun

/-- The exit of a return writes one line. -/
theorem exitReturn (hb : s.buffers.stack ≠ []) (h : Staged s ids [] u)
    (hrun : (Lower.exitReturn n).run u = .ok ((), u')) : Staged s ids [] u' := by
  unfold Lower.exitReturn at hrun
  split at hrun
  · exact h.emit hb hrun
  · obtain ⟨e, -, hrun⟩ := Lower.of_bind_child hrun
    obtain ⟨v, -, hrun⟩ := Lower.of_bind_valueOf hrun
    exact h.emit hb hrun

/-- The exit of a break writes one line. -/
theorem exitBreak (hb : s.buffers.stack ≠ []) (h : Staged s ids [] u)
    (hrun : Lower.exitBreak.run u = .ok ((), u')) : Staged s ids [] u' := by
  obtain ⟨l, u₁, hexit, hrun⟩ := Lower.run_bind_eq_ok hrun
  obtain ⟨_, _, hget, hexit⟩ := Lower.run_bind_eq_ok hexit
  cases hget
  rw [(Lower.eq_of_run_check hexit).2] at hrun
  exact h.emit hb hrun

/-- A parameter is declared and emitted. -/
theorem param (hb : s.buffers.stack ≠ []) {name : String} (h : Staged s ids [] u)
    (hrun : (do
      let _ ← Lower.declareName name
      Lower.emit (.param name) : Lower Unit).run u = .ok ((), u')) : Staged s ids [] u' := by
  obtain ⟨known, u₁, hdeclare, hrun⟩ := Lower.run_bind_eq_ok hrun
  obtain ⟨scope, below, hscope, -, rfl⟩ := Lower.exists_of_run_declareName hdeclare
  have hwrites : Writes u [] [] 0 { u with scopes := ⟨scope.declare name :: below⟩ } :=
    ⟨⟨(Passage.refl u).buffers, ⟨fun top => top.declare name, by rw [hscope]; rfl⟩, rfl, rfl, rfl,
      rfl, fun _ _ => rfl⟩, rfl⟩
  exact (h.then_writes hwrites).emit hb hrun

/-- Parameters are declared and emitted one after the other. -/
theorem params (hb : s.buffers.stack ≠ []) {ps : List Node} (h : Staged s ids [] u)
    (hrun : (ps.forM fun p => do
      let _ ← Lower.declareName p.text
      Lower.emit (.param p.text) : Lower Unit).run u = .ok ((), u')) : Staged s ids [] u' := by
  induction ps generalizing u with
  | nil =>
    cases hrun
    exact h
  | cons p ps ih =>
    obtain ⟨_, u₁, hparam, hrun⟩ := Lower.run_bind_eq_ok hrun
    exact ih (h.param hb hparam) hrun

/-- The exit of parameters keeps them as one fragment. -/
theorem exitParams (hfree : s.fragment n.id = none) (hmem : n.id ∈ ids)
    (h : Staged { s with buffers := s.buffers.push } ids [] u)
    (hrun : (Lower.exitParams n).run u = .ok ((), u')) : Staged s ids [n.id] u' := by
  obtain ⟨scope, below, -, hrun⟩ := Lower.of_bind_topScope hrun
  obtain ⟨_, u₁, hparams, hrun⟩ := Lower.run_bind_eq_ok hrun
  exact (h.params (List.cons_ne_nil _ _) hparams).stash hfree hmem hrun

/-- The exit of a function takes its parameters and its body, and writes nothing. -/
theorem exitFuncDef {name params : Node} (hn : n.children = [name, params, b])
    (h : Staged s.scoped ids [params.id, b.id] u)
    (hrun : (Lower.exitFuncDef n).run u = .ok ((), u')) : Staged s ids [] u' := by
  obtain ⟨name', -, hrun⟩ := Lower.of_bind_child hrun
  obtain ⟨params', hparams, hrun⟩ := Lower.of_bind_child hrun
  cases Node.child?_eq hn hparams
  obtain ⟨declared, u₁, htake, hrun⟩ := Lower.run_bind_eq_ok hrun
  obtain ⟨b', hb', hrun⟩ := Lower.of_bind_child hrun
  cases Node.child?_eq hn hb'
  obtain ⟨body, u₂, htake', hrun⟩ := Lower.run_bind_eq_ok hrun
  obtain ⟨lines, labels, hwrites⟩ := ((h.take [] htake).take [] htake').writes
  obtain ⟨_, u₃, hpop, hrun⟩ := Lower.run_bind_eq_ok hrun
  -- what was put on the scopes is taken off, so they are as before the function
  obtain ⟨f, hf⟩ := hwrites.passage.scopes
  rw [Lower.run_popScope hf] at hpop
  cases hpop
  cases hrun
  exact ⟨lines, labels, [], .of_writes ⟨⟨hwrites.passage.buffers, (Passage.refl s).scopes,
    hwrites.passage.frames, hwrites.passage.loops, hwrites.passage.next, hwrites.passage.stmtCall,
    hwrites.passage.value⟩, hwrites.fragment⟩, rfl⟩

/-- A program that stands below another node is not left without a violation. -/
theorem not_run_exitProgram (hb : s.buffers.stack ≠ []) (h : Staged s.opened ids [] u) :
    Lower.exitProgram.run u ≠ .ok ((), u') := by
  intro hrun
  obtain ⟨lines, labels, hwrites⟩ := h.writes
  have hstack : u.buffers.stack = (#[] ++ lines.toArray) :: s.buffers.stack := hwrites.passage.top rfl
  obtain ⟨main, u₁, hmain, hrun⟩ := Lower.run_bind_eq_ok hrun
  rw [Lower.run_popBuffer hstack] at hmain
  cases hmain
  obtain ⟨_, u₂, hpop, hrun⟩ := Lower.run_bind_eq_ok hrun
  obtain ⟨scope, below, -, rfl⟩ := Lower.exists_of_run_popScope hpop
  obtain ⟨_, _, hget, hrun⟩ := Lower.run_bind_eq_ok hrun
  cases hget
  -- the buffers around it are still open
  have hopen : Buffers.depth ⟨s.buffers.stack⟩ ≠ 0 := by
    rw [Buffers.depth, Ne, List.length_eq_zero_iff]
    exact hb
  rw [if_pos hopen] at hrun
  cases hrun

/-- A call whose result is not used places its arguments. -/
theorem exitCall {callee args : Node} (hb : s.buffers.stack ≠ []) (hn : n.children = [callee, args])
    (hcall : s.stmtCall = n.id) (h : Staged s ids [args.id] u)
    (hrun : (Lower.exitCall n).run u = .ok ((), u')) : Staged s ids [] u' := by
  obtain ⟨callee', -, hrun⟩ := Lower.of_bind_child hrun
  obtain ⟨args', hargs, hrun⟩ := Lower.of_bind_child hrun
  cases Node.child?_eq hn hargs
  obtain ⟨code, u₁, htake, hrun⟩ := Lower.run_bind_eq_ok hrun
  obtain ⟨_, u₂, hsplice, hrun⟩ := Lower.run_bind_eq_ok hrun
  have h₂ := (h.take [] htake).splice hb hsplice
  obtain ⟨_, u₃, hnoted, hrun⟩ := Lower.run_bind_eq_ok hrun
  cases hnoted
  obtain ⟨as, u₄, has, hrun⟩ := Lower.run_bind_eq_ok hrun
  obtain rfl := Lower.eq_of_run_arguments has
  have hnoted : Writes u₂ [] [] 0 { u₂ with functions := u₂.functions.call callee'.text } :=
    ⟨⟨(Passage.refl u₂).buffers, (Passage.refl u₂).scopes, rfl, rfl, rfl, rfl, fun _ _ => rfl⟩, rfl⟩
  have h₄ := h₂.then_writes hnoted
  obtain ⟨lines, labels, hwrites⟩ := h₄.writes
  -- the mark has not changed since the statement was entered
  have hmark : n.id = u₂.stmtCall := (hwrites.passage.stmtCall.trans hcall).symm
  obtain ⟨_, _, hget, hrun⟩ := Lower.run_bind_eq_ok hrun
  cases hget
  rw [if_pos hmark] at hrun
  exact h₄.emit hb hrun

end Staged

end ScriptPir
