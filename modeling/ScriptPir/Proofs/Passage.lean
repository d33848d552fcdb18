import Mathlib.Logic.Function.Basic
import ScriptPir.Proofs.Walk

/-!
# What a stretch of a walk leaves alone

The primitive steps of a lowering have one equation each, which gives the state after the step. What a
whole subtree does to a state is said by `Passage s ids lines labels s'`:

* the lines `lines` are written to the fragment on top, and no other fragment is touched;
* the stacks of scopes, label frames and loops are those of before, but for the innermost scope;
* `labels` labels are taken;
* values are found out only for nodes with ids in `ids`.

`Visits n s s'` says that the walk of `n` leads from `s` to `s'`, and that every node entered on the way
fits the state in which it is entered.

`Ready ids s` says that the state `s` can enter a tree with the ids `ids`: there is a fragment to write
to, there is a scope, and nothing is kept yet for any node of the tree.
-/

namespace ScriptPir

/-! ## Tables as functions

The tables of a state are read through functions of ids, so that an insertion is `Function.update`
and says by itself what it leaves alone. -/

/-- The fragment kept for a node. -/
def Lowering.fragment (s : Lowering) (i : Int) : Option Fragment := s.fragments[i]?

/-- The value of a node. -/
def Lowering.value (s : Lowering) (i : Int) : Option Value := s.values[i]?

/-- To keep a fragment changes what is kept for its node, and nothing else. -/
theorem fragment_insert (s : Lowering) (i : Int) (f : Fragment) :
    { s with fragments := s.fragments.insert i f }.fragment =
      Function.update s.fragment i (some f) := by
  funext j
  rw [Lowering.fragment, Std.TreeMap.getElem?_insert]
  by_cases h : i = j
  · rw [if_pos (by simpa using h), h, Function.update_self]
  · rw [if_neg (by simpa using h), Function.update_of_ne (Ne.symm h)]
    rfl

/-- To take a fragment leaves nothing for its node, and all others where they are. -/
theorem fragment_erase (s : Lowering) (i : Int) :
    { s with fragments := s.fragments.erase i }.fragment = Function.update s.fragment i none := by
  funext j
  rw [Lowering.fragment, Std.TreeMap.getElem?_erase]
  by_cases h : i = j
  · rw [if_pos (by simpa using h), h, Function.update_self]
  · rw [if_neg (by simpa using h), Function.update_of_ne (Ne.symm h)]
    rfl

/-- To record a value changes what is known of its node, and nothing else. -/
theorem value_insert (s : Lowering) (i : Int) (v : Value) :
    { s with values := s.values.insert i v }.value = Function.update s.value i (some v) := by
  funext j
  rw [Lowering.value, Std.TreeMap.getElem?_insert]
  by_cases h : i = j
  · rw [if_pos (by simpa using h), h, Function.update_self]
  · rw [if_neg (by simpa using h), Function.update_of_ne (Ne.symm h)]
    rfl

namespace Lower

variable {α β : Type} {s s' : Lowering}

/-! ## Primitive steps

One equation for each step: under the condition that it succeeds, the state behind it is written out
in full. No later proof opens the definition of a step. -/

/-- A step succeeds, and leads to a state with a property. -/
def Reaches (p : Lower Unit) (s : Lowering) (Q : Lowering → Prop) : Prop :=
  ∃ s', p.run s = .ok ((), s') ∧ Q s'

/-- If the first step succeeds, the second one goes on from there. -/
theorem run_bind_of_ok {p : Lower α} {f : α → Lower β} {a : α} (h : p.run s = .ok (a, s')) :
    (p >>= f).run s = (f a).run s' := by
  rw [StateT.run_bind, h]
  rfl

/-- A first part of a step that succeeds leaves the rest to be done. -/
theorem Reaches.bind {p : Lower α} {f : α → Lower Unit} {a : α} {Q : Lowering → Prop}
    (h : p.run s = .ok (a, s')) (hf : (f a).Reaches s' Q) : (p >>= f).Reaches s Q := by
  obtain ⟨s'', hrun, hQ⟩ := hf
  exact ⟨s'', (run_bind_of_ok h).trans hrun, hQ⟩

/-- The rest of a step can be followed from what is known after its first part. -/
theorem Reaches.then {p : Lower Unit} {f : Unit → Lower Unit} {P Q : Lowering → Prop}
    (h : p.Reaches s P) (hf : ∀ s', P s' → (f ()).Reaches s' Q) : (p >>= f).Reaches s Q := by
  obtain ⟨s', hrun, hP⟩ := h
  exact .bind hrun (hf s' hP)

/-- A choice whose condition holds reaches what its first branch reaches. -/
theorem Reaches.of_pos {c : Prop} [Decidable c] {p q : Lower Unit} {Q : Lowering → Prop} (hc : c)
    (h : p.Reaches s Q) : (if c then p else q).Reaches s Q := by
  rw [if_pos hc]
  exact h

/-- A choice whose condition does not hold reaches what its second branch reaches. -/
theorem Reaches.of_neg {c : Prop} [Decidable c] {p q : Lower Unit} {Q : Lowering → Prop} (hc : ¬c)
    (h : q.Reaches s Q) : (if c then p else q).Reaches s Q := by
  rw [if_neg hc]
  exact h

/-- What is reached satisfies all that follows from it. -/
theorem Reaches.mono {p : Lower Unit} {P Q : Lowering → Prop} (h : p.Reaches s P)
    (hle : ∀ s', P s' → Q s') : p.Reaches s Q := by
  obtain ⟨s', hrun, hP⟩ := h
  exact ⟨s', hrun, hle s' hP⟩

theorem run_get (s : Lowering) : (get : Lower Lowering).run s = .ok (s, s) := rfl

/-- A check that succeeds does not change the state. -/
theorem run_check {x : Except Violation α} {a : α} (h : x = .ok a) (s : Lowering) :
    (check x).run s = .ok (a, s) := by
  rw [h]
  rfl

theorem run_report (line : Int) (fault : SemanticFault) (s : Lowering) :
    (report line fault).run s = .ok ((), { s with
      errors := s.errors.add line fault.message
      notices := s.notices.push (.semanticError line fault.message) }) := rfl

/-- A child that is there is found. -/
theorem run_child {n c : Node} {i : Nat} (h : n.children[i]? = some c) (hc : c ≠ .absent)
    (s : Lowering) : (child n i).run s = .ok (c, s) := by
  have hchild : n.child? i = some c := by
    rw [Node.child?, h]
    cases c with
    | absent => exact absurd rfl hc
    | mk => rfl
  rw [child, hchild]
  rfl

/-- The operator of a node is the child at the place for it. -/
theorem run_operator {n c : Node} {i : Nat} (hi : n.opIndex? = some i) (h : n.children[i]? = some c)
    (hc : c ≠ .absent) (s : Lowering) : (operator n).run s = .ok (c, s) := by
  have hop : n.op? = some c := by
    rw [Node.op?, hi, Option.bind_some, Node.child?, h]
    cases c with
    | absent => exact absurd rfl hc
    | mk => rfl
  rw [operator, hop]
  rfl

/-- A value that is known is found. -/
theorem run_valueOf {n : Node} {v : Value} (h : s.value n.id = some v) :
    (valueOf n).run s = .ok (v, s) := by
  rw [Lowering.value] at h
  rw [valueOf, run_bind_of_ok (run_get s), h]
  rfl

/-- The fragment on top is taken off. -/
theorem run_popBuffer {top : Fragment} {below : List Fragment}
    (h : s.buffers.stack = top :: below) :
    popBuffer.run s = .ok (top, { s with buffers := ⟨below⟩ }) := by
  have hpop : s.buffers.pop = .ok (top, ⟨below⟩) := by rw [Buffers.pop, h]
  rw [popBuffer, run_bind_of_ok (run_get s), run_bind_of_ok (run_check hpop s)]
  rfl

/-- A fragment is added to the one on top. -/
theorem run_splice {top : Fragment} {below : List Fragment} (fragment : Fragment)
    (h : s.buffers.stack = top :: below) :
    (splice fragment).run s = .ok ((), { s with buffers := ⟨(top ++ fragment) :: below⟩ }) := by
  have hsplice : s.buffers.splice fragment = .ok ⟨(top ++ fragment) :: below⟩ := by
    rw [Buffers.splice, h]
  rw [splice, run_bind_of_ok (run_get s), run_bind_of_ok (run_check hsplice s)]
  rfl

/-- A line is added to the fragment on top. -/
theorem run_write {top : Fragment} {below : List Fragment} (l : Line)
    (h : s.buffers.stack = top :: below) :
    (write l).run s = .ok ((), { s with buffers := ⟨(top ++ #[l]) :: below⟩ }) := by
  have hwrite : s.buffers.write l = .ok ⟨(top ++ #[l]) :: below⟩ := by
    rw [Buffers.write, h, ← Array.push_eq_append]
  rw [write, run_bind_of_ok (run_get s), run_bind_of_ok (run_check hwrite s)]
  rfl

theorem run_emit {top : Fragment} {below : List Fragment} (i : Instr)
    (h : s.buffers.stack = top :: below) :
    (emit i).run s = .ok ((), { s with buffers := ⟨(top ++ #[.instr i]) :: below⟩ }) :=
  run_write (.instr i) h

theorem run_emitLabel {top : Fragment} {below : List Fragment} (l : Label)
    (h : s.buffers.stack = top :: below) :
    (emitLabel l).run s = .ok ((), { s with buffers := ⟨(top ++ #[.label l]) :: below⟩ }) :=
  run_write (.label l) h

/-- A fragment that is kept is found, and no longer kept. -/
theorem run_take {n : Node} {f : Fragment} (h : s.fragment n.id = some f) :
    (take n).run s = .ok (f, { s with fragments := s.fragments.erase n.id }) := by
  rw [Lowering.fragment] at h
  rw [take, run_bind_of_ok (run_get s), h]
  rfl

theorem run_topScope {scope : Scope} {scopes : List Scope} (h : s.scopes.stack = scope :: scopes) :
    topScope.run s = .ok (scope, s) := by
  have htop : s.scopes.top = .ok scope := by rw [Scopes.top, h]
  rw [topScope, run_bind_of_ok (run_get s), run_check htop]

/-- The frame on top is taken off. -/
theorem run_popFrame {f : Frame Label} {frames : List (Frame Label)}
    (h : s.labels.frames = f :: frames) :
    popFrame.run s = .ok (f, { s with labels := { s.labels with frames } }) := by
  have hpop : s.labels.pop = .ok (f, { s.labels with frames }) := by rw [Labels.pop, h]
  rw [popFrame, run_bind_of_ok (run_get s), run_bind_of_ok (run_check hpop s)]
  rfl

theorem run_topFrame {f : Frame Label} {frames : List (Frame Label)}
    (h : s.labels.frames = f :: frames) : topFrame.run s = .ok (f, s) := by
  have htop : s.labels.top = .ok f := by rw [Labels.top, h]
  rw [topFrame, run_bind_of_ok (run_get s), run_check htop]

/-- The exit of the innermost loop is taken off. -/
theorem run_popLoop {exit : Label} {loops : List Label} (h : s.labels.loops = exit :: loops) :
    popLoop.run s = .ok ((), { s with labels := { s.labels with loops } }) := by
  have hpop : s.labels.popLoop = .ok { s.labels with loops } := by rw [Labels.popLoop, h]
  rw [popLoop, run_bind_of_ok (run_get s), run_bind_of_ok (run_check hpop s)]
  rfl

theorem run_loopExit {exit : Label} {loops : List Label} (h : s.labels.loops = exit :: loops) :
    loopExit.run s = .ok (exit, s) := by
  have hexit : s.labels.loopExit = .ok exit := by rw [Labels.loopExit, h]
  rw [loopExit, run_bind_of_ok (run_get s), run_check hexit]

/-- The innermost scope is left. -/
theorem run_popScope {scope : Scope} {scopes : List Scope} (h : s.scopes.stack = scope :: scopes) :
    popScope.run s = .ok ((), { s with scopes := ⟨scopes⟩ }) := by
  have hpop : s.scopes.pop = .ok (scope, ⟨scopes⟩) := by rw [Scopes.pop, h]
  rw [popScope, run_bind_of_ok (run_get s), run_bind_of_ok (run_check hpop s)]
  rfl

/-- A name is declared in the innermost scope; whether it was known there comes back. -/
theorem run_declareName {scope : Scope} {scopes : List Scope} (name : String)
    (h : s.scopes.stack = scope :: scopes) :
    (declareName name).run s =
      .ok (scope.declared name, { s with scopes := ⟨scope.declare name :: scopes⟩ }) := by
  rw [declareName, run_bind_of_ok (run_topScope h)]
  show Except.ok (_, { s with scopes := s.scopes.setTop (scope.declare name) }) = _
  rw [Scopes.setTop, h]
  rfl

/-- The next truth register of the innermost scope is taken. -/
theorem run_freshBool {scope : Scope} {scopes : List Scope} (h : s.scopes.stack = scope :: scopes) :
    freshBool.run s = .ok (.boolean scope.nextBool,
      { s with scopes := ⟨{ scope with nextBool := scope.nextBool + 1 } :: scopes⟩ }) := by
  rw [freshBool, run_bind_of_ok (run_topScope h)]
  show Except.ok (_, { s with scopes := s.scopes.setTop _ }) = _
  rw [Scopes.setTop, h]
  rfl

end Lower

/-- A walk over some events and others behind them comes to a state in between. -/
theorem run_forM_append {before after : List Event} {s s' : Lowering}
    (h : ((before ++ after).forM Lower.step).run s = .ok ((), s')) :
    ∃ t, (before.forM Lower.step).run s = .ok ((), t) ∧
      (after.forM Lower.step).run t = .ok ((), s') := by
  induction before generalizing s with
  | nil => exact ⟨s, rfl, h⟩
  | cons event before ih =>
    rw [List.cons_append, Lower.forM_step_cons] at h
    obtain ⟨_, s₁, hstep, hrest⟩ := Lower.run_bind_eq_ok h
    obtain ⟨t, hbefore, hafter⟩ := ih hrest
    refine ⟨t, ?_, hafter⟩
    rw [Lower.forM_step_cons, Lower.run_bind_of_ok hstep]
    exact hbefore

/-! ## What a stretch changes

`Passage` holds of primitive steps and composes (`Passage.trans`), so a statement about a subtree is
put together from those about its parts. `Writes` is the case in which no fragments are moved. -/

/-- Between two states of a walk, some lines were written, some labels were taken and the values of
some nodes were found out. -/
structure Passage (s : Lowering) (ids : List Int) (lines : List Line) (labels : Nat)
    (s' : Lowering) : Prop where
  buffers : s'.buffers.stack = s.buffers.stack.modifyHead (· ++ lines.toArray)
  scopes : ∃ f, s'.scopes.stack = s.scopes.stack.modifyHead f
  frames : s'.labels.frames = s.labels.frames
  loops : s'.labels.loops = s.labels.loops
  next : s'.labels.next = s.labels.next + labels
  stmtCall : s'.stmtCall = s.stmtCall
  value : ∀ i, i ∉ ids → s'.value i = s.value i

/-- A state that can enter a tree with some ids. -/
structure Ready (ids : List Int) (s : Lowering) : Prop where
  buffers : s.buffers.stack ≠ []
  scopes : s.scopes.stack ≠ []
  nodup : ids.Nodup
  fragment : ∀ i ∈ ids, s.fragment i = none
  stmtCall : s.stmtCall ∉ ids

/-- A stack that is not empty stays so when its top is changed. -/
theorem modifyHead_ne_nil {α : Type} {f : α → α} {l : List α} (h : l ≠ []) :
    l.modifyHead f ≠ [] := by
  cases l with
  | nil => exact absurd rfl h
  | cons => exact List.cons_ne_nil _ _

namespace Passage

variable {s s₁ s₂ : Lowering} {ids ids₁ ids₂ : List Int} {lines lines₁ lines₂ : List Line}
  {labels labels₁ labels₂ : Nat}

/-- A step that does nothing changes nothing. -/
theorem refl (s : Lowering) : Passage s [] [] 0 s := by
  refine ⟨?_, ⟨id, ?_⟩, rfl, rfl, rfl, rfl, fun _ _ => rfl⟩
  · cases s.buffers.stack <;> simp
  · cases s.scopes.stack <;> simp

/-- Two stretches write their lines and take their labels one after the other. -/
theorem trans (h₁ : Passage s ids₁ lines₁ labels₁ s₁) (h₂ : Passage s₁ ids₂ lines₂ labels₂ s₂) :
    Passage s (ids₁ ++ ids₂) (lines₁ ++ lines₂) (labels₁ + labels₂) s₂ := by
  obtain ⟨f, hf⟩ := h₁.scopes
  obtain ⟨g, hg⟩ := h₂.scopes
  refine ⟨?_, ⟨g ∘ f, ?_⟩, h₂.frames.trans h₁.frames, h₂.loops.trans h₁.loops, ?_,
    h₂.stmtCall.trans h₁.stmtCall, ?_⟩
  · rw [h₂.buffers, h₁.buffers, List.modifyHead_modifyHead]
    congr 1
    funext top
    simp
  · rw [hg, hf, List.modifyHead_modifyHead]
  · rw [h₂.next, h₁.next, Nat.add_assoc]
  · intro i hi
    rw [List.mem_append, not_or] at hi
    rw [h₂.value i hi.2, h₁.value i hi.1]

/-- A stretch may be said to find out values for more nodes than it does. -/
theorem mono (h : Passage s ids₁ lines labels s₁) (hsub : ids₁ ⊆ ids₂) :
    Passage s ids₂ lines labels s₁ :=
  ⟨h.buffers, h.scopes, h.frames, h.loops, h.next, h.stmtCall,
    fun i hi => h.value i fun hmem => hi (hsub hmem)⟩

/-- What was under assembly is still there, with the lines behind it. -/
theorem top (h : Passage s ids lines labels s₁) {top : Fragment} {below : List Fragment}
    (htop : s.buffers.stack = top :: below) :
    s₁.buffers.stack = (top ++ lines.toArray) :: below := by
  rw [h.buffers, htop, List.modifyHead_cons]

end Passage

/-- A passage that leaves all kept fragments where they are. -/
structure Writes (s : Lowering) (ids : List Int) (lines : List Line) (labels : Nat)
    (s' : Lowering) : Prop where
  passage : Passage s ids lines labels s'
  fragment : s'.fragment = s.fragment

namespace Writes

variable {s s₁ s₂ : Lowering} {ids ids₁ ids₂ : List Int} {lines lines₁ lines₂ : List Line}
  {labels labels₁ labels₂ : Nat}

theorem refl (s : Lowering) : Writes s [] [] 0 s := ⟨.refl s, rfl⟩

/-- Two stretches that move no fragments write their lines one after the other. -/
theorem trans (h₁ : Writes s ids₁ lines₁ labels₁ s₁) (h₂ : Writes s₁ ids₂ lines₂ labels₂ s₂) :
    Writes s (ids₁ ++ ids₂) (lines₁ ++ lines₂) (labels₁ + labels₂) s₂ :=
  ⟨h₁.passage.trans h₂.passage, h₂.fragment.trans h₁.fragment⟩

/-- A stretch that moves no fragments may be said to find out values for more nodes than it does. -/
theorem mono (h : Writes s ids₁ lines labels s₁) (hsub : ids₁ ⊆ ids₂) :
    Writes s ids₂ lines labels s₁ :=
  ⟨h.passage.mono hsub, h.fragment⟩

/-- A stretch may begin with registers that start again. -/
theorem of_reset {registers : Registers} (h : Writes { s with registers } ids lines labels s₁) :
    Writes s ids lines labels s₁ :=
  ⟨⟨h.passage.buffers, h.passage.scopes, h.passage.frames, h.passage.loops, h.passage.next,
    h.passage.stmtCall, h.passage.value⟩, h.fragment⟩

/-- Behind a stretch there is a fragment to write to. -/
theorem buffers_ne (h : Writes s ids lines labels s₁) (hb : s.buffers.stack ≠ []) :
    s₁.buffers.stack ≠ [] := by
  rw [h.passage.buffers]
  exact modifyHead_ne_nil hb

/-- Behind a stretch there is a scope. -/
theorem scopes_ne (h : Writes s ids lines labels s₁) (hs : s.scopes.stack ≠ []) :
    s₁.scopes.stack ≠ [] := by
  obtain ⟨f, hf⟩ := h.passage.scopes
  rw [hf]
  exact modifyHead_ne_nil hs

end Writes

section Writing

variable {s : Lowering}

/-- To add a fragment writes its lines. -/
theorem reaches_splice (hb : s.buffers.stack ≠ []) (lines : List Line) :
    (Lower.splice lines.toArray).Reaches s (Writes s [] lines 0) := by
  obtain ⟨top, below, htop⟩ := List.exists_cons_of_ne_nil hb
  refine ⟨_, Lower.run_splice _ htop, ⟨?_, (Passage.refl s).scopes, rfl, rfl, rfl, rfl,
    fun _ _ => rfl⟩, rfl⟩
  rw [htop, List.modifyHead_cons]

/-- To emit an instruction writes one line. -/
theorem reaches_emit (hb : s.buffers.stack ≠ []) (i : Instr) :
    (Lower.emit i).Reaches s (Writes s [] [.instr i] 0) := by
  obtain ⟨top, below, htop⟩ := List.exists_cons_of_ne_nil hb
  refine ⟨_, Lower.run_emit _ htop, ⟨?_, (Passage.refl s).scopes, rfl, rfl, rfl, rfl,
    fun _ _ => rfl⟩, rfl⟩
  rw [htop, List.modifyHead_cons]

/-- To emit a label writes one line. -/
theorem reaches_emitLabel (hb : s.buffers.stack ≠ []) (l : Label) :
    (Lower.emitLabel l).Reaches s (Writes s [] [.label l] 0) := by
  obtain ⟨top, below, htop⟩ := List.exists_cons_of_ne_nil hb
  refine ⟨_, Lower.run_emitLabel _ htop, ⟨?_, (Passage.refl s).scopes, rfl, rfl, rfl, rfl,
    fun _ _ => rfl⟩, rfl⟩
  rw [htop, List.modifyHead_cons]

end Writing

/-- The state in which what was written since a fragment was started is kept for a node. -/
def Lowering.stashed (s s' : Lowering) (n : Node) (lines : List Line) : Lowering :=
  { s' with buffers := s.buffers, fragments := s'.fragments.insert n.id lines.toArray }

section Stash

variable {s s' : Lowering} {ids : List Int} {lines : List Line} {labels : Nat}

/-- What was written since a fragment was started is that fragment. -/
theorem run_popBuffer_of_passage
    (h : Passage { s with buffers := s.buffers.push } ids lines labels s') :
    Lower.popBuffer.run s' = .ok (lines.toArray, { s' with buffers := s.buffers }) := by
  have htop : s'.buffers.stack = lines.toArray :: s.buffers.stack := by
    rw [h.top rfl]
    simp
  exact Lower.run_popBuffer htop

/-- What was written to a new fragment is not written to the one below. -/
theorem Passage.pop (h : Passage { s with buffers := s.buffers.push } ids lines labels s') :
    Passage s ids [] labels { s' with buffers := s.buffers } :=
  ⟨(Passage.refl s).buffers, h.scopes, h.frames, h.loops, h.next, h.stmtCall, h.value⟩

/-- What was written to a new fragment is kept for a node. -/
theorem run_stash (h : Passage { s with buffers := s.buffers.push } ids lines labels s') (n : Node) :
    (Lower.stash n).run s' = .ok ((), s.stashed s' n lines) := by
  rw [Lower.stash, Lower.run_bind_of_ok (run_popBuffer_of_passage h)]
  rfl

/-- To keep a new fragment for a node leaves the one below as it was. -/
theorem Passage.stash (h : Passage { s with buffers := s.buffers.push } ids lines labels s')
    (n : Node) : Passage s ids [] labels (s.stashed s' n lines) :=
  ⟨(Passage.refl s).buffers, h.scopes, h.frames, h.loops, h.next, h.stmtCall, h.value⟩

theorem fragment_stashed (s s' : Lowering) (n : Node) (lines : List Line) :
    (s.stashed s' n lines).fragment = Function.update s'.fragment n.id (some lines.toArray) :=
  fragment_insert s' n.id lines.toArray

end Stash

namespace Ready

variable {s s' : Lowering} {ids ids' : List Int} {lines : List Line} {labels : Nat}

/-- A state that can enter a tree can enter a part of it. -/
theorem sublist (h : Ready ids s) (hsub : ids'.Sublist ids) : Ready ids' s :=
  ⟨h.buffers, h.scopes, h.nodup.sublist hsub, fun i hi => h.fragment i (hsub.subset hi),
    fun hi => h.stmtCall (hsub.subset hi)⟩

theorem children {id : Int} {kind : Kind} {token : Token} {cs : List Node}
    (h : Ready (Node.mk id kind token cs).ids s) : Ready (Node.idsAll cs) s :=
  h.sublist (List.sublist_cons_self ..)

/-- A state that can enter some trees can enter each of them. -/
theorem mem {n : Node} {ns : List Node} (h : Ready (Node.idsAll ns) s) (hn : n ∈ ns) :
    Ready n.ids s :=
  h.sublist (Node.ids_sublist_idsAll hn)

theorem push (h : Ready ids s) : Ready ids { s with buffers := s.buffers.push } :=
  ⟨List.cons_ne_nil _ _, h.scopes, h.nodup, h.fragment, h.stmtCall⟩

/-- To start again from the first register does not hinder entering a tree. -/
theorem reset (h : Ready ids s) (registers : Registers) : Ready ids { s with registers } :=
  ⟨h.buffers, h.scopes, h.nodup, h.fragment, h.stmtCall⟩

/-- A tree that can be entered can still be entered after its neighbours were walked. -/
theorem passage {done : List Int} (h : Ready ids s) (hp : Passage s done lines labels s')
    (hfragment : ∀ i ∈ ids, s'.fragment i = s.fragment i) : Ready ids s' := by
  obtain ⟨f, hf⟩ := hp.scopes
  refine ⟨?_, ?_, h.nodup, fun i hi => (hfragment i hi).trans (h.fragment i hi), ?_⟩
  · rw [hp.buffers]
    exact modifyHead_ne_nil h.buffers
  · rw [hf]
    exact modifyHead_ne_nil h.scopes
  · rw [hp.stmtCall]
    exact h.stmtCall

end Ready

/-! ## Visits

A walk alone does not say what was known at the nodes on its way. `Visits` adds this, for the
statements that are about every moment of the walk and not about its end only. -/

/-- The productions of expressions. -/
def Kind.isExpr : Kind → Bool
  | .call | .literal | .ident | .globalRef | .paren | .unary | .binary | .compare | .logic | .index =>
    true
  | _ => false

/-- The productions of statements without a block. -/
def Kind.isSimple : Kind → Bool
  | .assign | .arrayInit | .indexAssign | .globalSet | .globalGet | .require | .inlinePir
  | .callStmt => true
  | _ => false

open Shape

/-- No simple statement is an expression. -/
theorem Shape.Simple.kind_isExpr (x : Simple) : x.node.kind.isExpr = false := by
  cases x with
  | assignment a => cases a <;> rfl
  | globalSet | require | target | call => rfl

/-- What is known when a walk enters a node: an expression or a simple statement has its shape and can
be entered, but for a call whose result is not used, which only its statement knows about. -/
inductive Fits : Node → Lowering → Prop where
  | expr {e : Expr} {t : Lowering} (hindexed : e.Indexed) (hready : Ready e.node.ids t) :
      Fits e.node t
  | simple {x : Simple} {t : Lowering} (hindexed : x.Indexed) (hready : Ready x.node.ids t)
      (hcall : t.stmtCall = -1) : Fits x.node t
  | unused {parts : CallParts} {args : Args} {t : Lowering} (hcall : t.stmtCall = parts.id) :
      Fits (Expr.call parts args).node t
  | other {n : Node} {t : Lowering} (hexpr : n.kind.isExpr = false)
      (hsimple : n.kind.isSimple = false) : Fits n t

/-- Only of a call may the result be unused. -/
theorem Fits.used {n : Node} {t : Lowering} (h : Fits n t) (hexpr : n.kind.isExpr = true)
    (hcall : n.kind ≠ .call) : t.stmtCall ≠ n.id := by
  cases h with
  | @expr e t hindexed hready =>
    intro heq
    exact hready.stmtCall (heq ▸ e.node.id_mem_ids e.node_ne_absent)
  | @simple x => rw [x.kind_isExpr] at hexpr; cases hexpr
  | unused => exact absurd rfl hcall
  | other hother => rw [hother] at hexpr; cases hexpr

/-- The walk of a tree leads from one state to another, and all it enters fits. -/
structure Visits (n : Node) (s s' : Lowering) : Prop where
  run : (Lower.walk n).run s = .ok ((), s')
  fits : ∀ m t, Entered [n] s m t → Fits m t

/-- The walk of some trees leads from one state to another, and all it enters fits. -/
structure VisitsAll (ns : List Node) (s s' : Lowering) : Prop where
  run : (Lower.walkAll ns).run s = .ok ((), s')
  fits : ∀ m t, Entered ns s m t → Fits m t

/-- The walk of no trees does nothing. -/
theorem VisitsAll.nil (s : Lowering) : VisitsAll [] s s := by
  refine ⟨by rw [Lower.walkAll]; rfl, ?_⟩
  intro m t h
  cases h

/-- Trees are visited one after the other. -/
theorem VisitsAll.cons {n : Node} {ns : List Node} {s s₁ s₂ : Lowering} (h : Visits n s s₁)
    (hs : VisitsAll ns s₁ s₂) : VisitsAll (n :: ns) s s₂ := by
  refine ⟨by rw [Lower.walkAll, Lower.run_bind_of_ok h.run, hs.run], ?_⟩
  intro m t hentered
  -- what is entered is the first tree, inside of it, or behind it
  cases hentered with
  | here => exact h.fits _ _ .here
  | inside henter h' => exact h.fits _ _ (.inside henter h')
  | after hwalk h' =>
    rw [h.run] at hwalk
    cases hwalk
    exact hs.fits m t h'

/-- A node is visited by entering it, visiting its children and exiting it. -/
theorem Visits.mk' {id : Int} {kind : Kind} {token : Token} {children : List Node}
    {s s₁ s₂ s₃ : Lowering} (hfits : Fits (.mk id kind token children) s)
    (henter : (Lower.enter (.mk id kind token children)).run s = .ok ((), s₁))
    (hchildren : VisitsAll children s₁ s₂)
    (hexit : (Lower.exit (.mk id kind token children)).run s₂ = .ok ((), s₃)) :
    Visits (.mk id kind token children) s s₃ := by
  refine ⟨?_, ?_⟩
  · rw [Lower.walk, Lower.run_bind_of_ok henter, Lower.run_bind_of_ok hchildren.run, hexit]
  · intro m t hentered
    cases hentered with
    | here => exact hfits
    | inside henter' h' =>
      rw [henter] at henter'
      cases henter'
      exact hchildren.fits m t h'
    | after hwalk h' => cases h'

theorem Visits.leaf (l : Leaf) (s : Lowering) : Visits l.node s s :=
  .mk' (.other rfl rfl) rfl (.nil s) rfl

end ScriptPir
