import ScriptPir.Proofs.SimpleLowering

/-!
# Fragments kept for later, and a record of what was emitted

The parts of a branch or loop are kept until the construct is left, and then placed in an order that need
not be the order of the walk. `Stage s ids lines labels kept s'` is a passage that also keeps fragments:
one for every entry of `kept`, and none besides those kept before.

`Emission.Agrees` ties an emission to a walk: where the walk of a node writes plain instructions, they are
those of the emission, and where it finds out a value, that is the value of the emission. Every walk of
a tree with different ids has such an emission (`exists_agrees`).
-/

namespace ScriptPir

open Shape

/-! ## Kept fragments

Constructs keep the fragments of their parts until they are left. Which fragments are kept is written
down as a list of ids and lines, so that taking one removes an entry of the list. -/

/-- Beside the fragments `f`, a state has those of `kept` and no others. -/
structure Holds (f : Int → Option Fragment) (kept : List (Int × List Line)) (s : Lowering) :
    Prop where
  nodup : (kept.map Prod.fst).Nodup
  free : ∀ p ∈ kept, f p.1 = none
  lines : ∀ p ∈ kept, s.fragment p.1 = some p.2.toArray
  rest : ∀ i, i ∉ kept.map Prod.fst → s.fragment i = f i

/-- Between two states of a walk, lines were written and fragments were kept. -/
structure Stage (s : Lowering) (ids : List Int) (lines : List Line) (labels : Nat)
    (kept : List (Int × List Line)) (s' : Lowering) : Prop where
  passage : Passage s ids lines labels s'
  holds : Holds s.fragment kept s'
  within : ∀ p ∈ kept, p.1 ∈ ids

/-- The state in which the fragment of a node was taken. -/
def Lowering.taken (s : Lowering) (n : Node) : Lowering :=
  { s with fragments := s.fragments.erase n.id }

section Holding

variable {s s' : Lowering} {f : Int → Option Fragment} {kept before after : List (Int × List Line)}

/-- Taking one of the kept fragments leaves the others. -/
theorem Holds.taken {n : Node} {lines : List Line}
    (h : Holds f (before ++ (n.id, lines) :: after) s) : Holds f (before ++ after) (s.taken n) := by
  have hfragment : (s.taken n).fragment = Function.update s.fragment n.id none := fragment_erase s n.id
  -- the fragment that is taken comes from anywhere in the list
  have hnodup : n.id ∉ (before ++ after).map Prod.fst ∧ ((before ++ after).map Prod.fst).Nodup := by
    have hperm : (before ++ (n.id, lines) :: after).Perm ((n.id, lines) :: (before ++ after)) :=
      List.perm_middle
    exact List.nodup_cons.mp ((hperm.map Prod.fst).nodup_iff.mp h.nodup)
  have hsub : ∀ p ∈ before ++ after, p ∈ before ++ (n.id, lines) :: after := by
    intro p hp
    rcases List.mem_append.mp hp with hp | hp
    · exact List.mem_append_left _ hp
    · exact List.mem_append_right _ (List.mem_cons_of_mem _ hp)
  refine ⟨hnodup.2, fun p hp => h.free p (hsub p hp), fun p hp => ?_, fun i hi => ?_⟩
  · have hne : p.1 ≠ n.id := by
      intro heq
      exact hnodup.1 (heq ▸ List.mem_map_of_mem hp)
    rw [hfragment, Function.update_of_ne hne]
    exact h.lines p (hsub p hp)
  · rw [hfragment]
    by_cases heq : i = n.id
    · -- the place of the fragment was free before it was kept
      rw [heq, Function.update_self]
      exact (h.free (n.id, lines) (by simp)).symm
    · rw [Function.update_of_ne heq]
      refine h.rest i ?_
      simp only [List.map_append, List.map_cons, List.mem_append, List.mem_cons, not_or] at hi ⊢
      exact ⟨hi.1, heq, hi.2⟩

end Holding

namespace Stage

variable {s s₁ s₂ : Lowering} {ids ids₁ ids₂ : List Int} {lines lines₁ lines₂ : List Line}
  {labels labels₁ labels₂ : Nat} {kept kept₁ kept₂ after : List (Int × List Line)}

theorem of_writes (h : Writes s ids lines labels s₁) : Stage s ids lines labels [] s₁ := by
  refine ⟨h.passage, ⟨List.nodup_nil, by simp, by simp, fun i _ => ?_⟩, by simp⟩
  rw [h.fragment]

theorem writes (h : Stage s ids lines labels [] s₁) : Writes s ids lines labels s₁ := by
  refine ⟨h.passage, funext fun i => ?_⟩
  exact h.holds.rest i (by simp)

/-- A stretch may be said to find out values for more nodes than it does. -/
theorem mono (h : Stage s ids₁ lines labels kept s₁) (hsub : ids₁ ⊆ ids₂) :
    Stage s ids₂ lines labels kept s₁ :=
  ⟨h.passage.mono hsub, h.holds, fun p hp => hsub (h.within p hp)⟩

/-- Stages follow one another: what the second keeps is different from what the first has kept,
since the second found it free. -/
theorem trans (h₁ : Stage s ids₁ lines₁ labels₁ kept₁ s₁)
    (h₂ : Stage s₁ ids₂ lines₂ labels₂ kept₂ s₂) :
    Stage s (ids₁ ++ ids₂) (lines₁ ++ lines₂) (labels₁ + labels₂) (kept₁ ++ kept₂) s₂ := by
  have hnew : ∀ p ∈ kept₂, p.1 ∉ kept₁.map Prod.fst := by
    intro p hp hmem
    obtain ⟨q, hq, heq⟩ := List.mem_map.mp hmem
    have hkept := h₁.holds.lines q hq
    have hfree := h₂.holds.free p hp
    rw [← heq, hkept] at hfree
    cases hfree
  refine ⟨h₁.passage.trans h₂.passage, ⟨?_, ?_, ?_, ?_⟩, ?_⟩
  -- what is kept differs, since the second stage keeps only in places that were free behind the first
  · rw [List.map_append, List.nodup_append]
    refine ⟨h₁.holds.nodup, h₂.holds.nodup, ?_⟩
    rintro i hi j hj rfl
    obtain ⟨p, hp, rfl⟩ := List.mem_map.mp hj
    exact hnew p hp hi
  · intro p hp
    rcases List.mem_append.mp hp with hp | hp
    · exact h₁.holds.free p hp
    · rw [← h₁.holds.rest p.1 (hnew p hp)]
      exact h₂.holds.free p hp
  · intro p hp
    rcases List.mem_append.mp hp with hp | hp
    · rw [h₂.holds.rest p.1]
      · exact h₁.holds.lines p hp
      · intro hmem
        obtain ⟨q, hq, heq⟩ := List.mem_map.mp hmem
        exact hnew q hq (heq ▸ List.mem_map_of_mem hp)
    · exact h₂.holds.lines p hp
  · intro i hi
    rw [List.map_append, List.mem_append, not_or] at hi
    rw [h₂.holds.rest i hi.2, h₁.holds.rest i hi.1]
  · intro p hp
    rcases List.mem_append.mp hp with hp | hp
    · exact List.mem_append_left _ (h₁.within p hp)
    · exact List.mem_append_right _ (h₂.within p hp)

/-- More lines may be written. -/
theorem then_writes (h : Stage s ids lines labels kept s₁) (hw : Writes s₁ [] lines₁ 0 s₂) :
    Stage s ids (lines ++ lines₁) labels kept s₂ := by
  have hstage := h.trans (of_writes hw)
  simp only [List.append_nil, Nat.add_zero] at hstage
  exact hstage

/-- Behind a stretch there is a fragment to write to. -/
theorem buffers_ne (h : Stage s ids lines labels kept s₁) (hb : s.buffers.stack ≠ []) :
    s₁.buffers.stack ≠ [] := by
  rw [h.passage.buffers]
  exact modifyHead_ne_nil hb

theorem reaches_emit (h : Stage s ids lines labels kept s₁) (hb : s.buffers.stack ≠ []) (i : Instr) :
    (Lower.emit i).Reaches s₁ (Stage s ids (lines ++ [.instr i]) labels kept) :=
  (ScriptPir.reaches_emit (h.buffers_ne hb) i).mono fun _ hw => h.then_writes hw

theorem reaches_emitLabel (h : Stage s ids lines labels kept s₁) (hb : s.buffers.stack ≠ [])
    (l : Label) : (Lower.emitLabel l).Reaches s₁ (Stage s ids (lines ++ [.label l]) labels kept) :=
  (ScriptPir.reaches_emitLabel (h.buffers_ne hb) l).mono fun _ hw => h.then_writes hw

theorem reaches_splice (h : Stage s ids lines labels kept s₁) (hb : s.buffers.stack ≠ [])
    (part : List Line) :
    (Lower.splice part.toArray).Reaches s₁ (Stage s ids (lines ++ part) labels kept) :=
  (ScriptPir.reaches_splice (h.buffers_ne hb) part).mono fun _ hw => h.then_writes hw

theorem run_take (before : List (Int × List Line)) {n : Node} {part : List Line}
    (h : Stage s ids lines labels (before ++ (n.id, part) :: after) s₁) :
    (Lower.take n).run s₁ = .ok (part.toArray, s₁.taken n) :=
  Lower.run_take (h.holds.lines (n.id, part) (by simp))

/-- A fragment that is taken is no longer kept. -/
theorem taken (before : List (Int × List Line)) {n : Node} {part : List Line}
    (h : Stage s ids lines labels (before ++ (n.id, part) :: after) s₁) :
    Stage s ids lines labels (before ++ after) (s₁.taken n) := by
  refine ⟨⟨h.passage.buffers, h.passage.scopes, h.passage.frames, h.passage.loops, h.passage.next,
    h.passage.stmtCall, h.passage.value⟩, h.holds.taken, fun p hp => h.within p ?_⟩
  rcases List.mem_append.mp hp with hp | hp
  · exact List.mem_append_left _ hp
  · exact List.mem_append_right _ (List.mem_cons_of_mem _ hp)

/-- A fragment that is kept first is taken and placed, and the rest follows. -/
theorem reaches_place {n : Node} {part : List Line} {p : Unit → Lower Unit} {Q : Lowering → Prop}
    (h : Stage s ids lines labels ((n.id, part) :: kept) s₁) (hb : s.buffers.stack ≠ [])
    (hrest : ∀ s₂, Stage s ids (lines ++ part) labels kept s₂ → (p ()).Reaches s₂ Q) :
    (Lower.take n >>= fun fragment => Lower.splice fragment >>= p).Reaches s₁ Q :=
  .bind (run_take [] h) (.then ((taken [] h).reaches_splice hb part) hrest)

/-- All fragments are placed, in the order in which they are kept. -/
theorem reaches_placeAll {nodes : List Node} (hb : s.buffers.stack ≠ [])
    (hnodes : nodes.map Node.id = kept.map Prod.fst) (h : Stage s ids lines labels kept s₁) :
    (nodes.forM fun c => do
        let fragment ← Lower.take c
        Lower.splice fragment).Reaches s₁
      (Stage s ids (lines ++ kept.flatMap Prod.snd) labels []) := by
  -- on the nodes, with the fragments in the same order
  induction nodes generalizing kept lines s₁ with
  | nil =>
    have hnil : kept = [] := List.map_eq_nil_iff.mp hnodes.symm
    subst hnil
    refine ⟨s₁, rfl, ?_⟩
    rw [List.flatMap_nil, List.append_nil]
    exact h
  | cons n nodes ih =>
    cases kept with
    | nil => cases hnodes
    | cons p kept =>
      obtain ⟨id, part⟩ := p
      simp only [List.map_cons, List.cons.injEq] at hnodes
      obtain ⟨rfl, hnodes⟩ := hnodes
      refine .then (P := Stage s ids (lines ++ part) labels kept) ?_ fun s₂ h₂ => ?_
      · exact .bind (run_take [] h) ((taken [] h).reaches_splice hb part)
      · rw [List.flatMap_cons, ← List.append_assoc]
        exact ih hnodes h₂

/-- Labels that were taken and stacked before a stretch are unstacked behind it. -/
theorem relabel {L L' : Labels Label} (h : Stage { s with labels := L } ids lines labels kept s₁)
    (hframes : L'.frames = s.labels.frames) (hloops : L'.loops = s.labels.loops)
    (hnext : L'.next = s.labels.next + labels₁) :
    Stage s ids lines labels₁ kept { s₁ with labels := L' } :=
  ⟨⟨h.passage.buffers, h.passage.scopes, hframes, hloops, hnext, h.passage.stmtCall,
    h.passage.value⟩, ⟨h.holds.nodup, h.holds.free, h.holds.lines, h.holds.rest⟩, h.within⟩

/-- Lines are kept for a node that nothing was kept for. -/
theorem keep {id : Int} {part : List Line} (h : Stage s ids lines labels [] s₁)
    (hfree : s.fragment id = none) (hmem : id ∈ ids) :
    Stage s ids lines labels [(id, part)]
      { s₁ with fragments := s₁.fragments.insert id part.toArray } := by
  have hfragment := fragment_insert s₁ id part.toArray
  rw [h.writes.fragment] at hfragment
  refine ⟨⟨h.passage.buffers, h.passage.scopes, h.passage.frames, h.passage.loops, h.passage.next,
    h.passage.stmtCall, h.passage.value⟩, ⟨by simp, by simpa using hfree, ?_, ?_⟩,
    by simpa using hmem⟩
  · intro p hp
    rw [List.mem_singleton.mp hp]
    exact (congrFun hfragment id).trans (Function.update_self ..)
  · intro i hi
    refine (congrFun hfragment i).trans ?_
    exact Function.update_of_ne (by simpa using hi) ..

/-- What was written to a new fragment is kept for a node. -/
theorem stash {n : Node} (h : Stage { s with buffers := s.buffers.push } ids lines labels [] s₁)
    (hfree : s.fragment n.id = none) (hmem : n.id ∈ ids) :
    Stage s ids [] labels [(n.id, lines)] (s.stashed s₁ n lines) := by
  have hfragment : (s.stashed s₁ n lines).fragment =
      Function.update s.fragment n.id (some lines.toArray) := by
    rw [fragment_stashed, h.writes.fragment]
    rfl
  refine ⟨h.passage.stash n, ⟨by simp, by simpa using hfree, ?_, ?_⟩, by simpa using hmem⟩
  · intro p hp
    rw [List.mem_singleton.mp hp, hfragment, Function.update_self]
  · intro i hi
    rw [hfragment, Function.update_of_ne (by simpa using hi)]

end Stage

/-- What stands behind a node can be entered once the node was walked. -/
theorem Ready.after {n : Node} {ns : List Node} {s s' : Lowering} {lines : List Line} {labels : Nat}
    {kept : List (Int × List Line)} (h : Ready (Node.idsAll (n :: ns)) s)
    (hstage : Stage s n.ids lines labels kept s') : Ready (Node.idsAll ns) s' := by
  have hrest : Ready (Node.idsAll ns) s := h.sublist (List.sublist_append_right ..)
  have hdisjoint := (List.nodup_append.mp h.nodup).2.2
  refine hrest.passage hstage.passage fun i hi => hstage.holds.rest i fun hmem => ?_
  obtain ⟨p, hp, rfl⟩ := List.mem_map.mp hmem
  exact hdisjoint _ (hstage.within p hp) _ hi rfl

/-! ## What was emitted

A node may be lowered in one place only, since ids are different. So there is a function from ids to
code and values that fits the whole walk; it is chosen, and no table of the program is asked for it. -/

/-- Between two states, some instructions were appended to the fragment under assembly. -/
def Appended (t t' : Lowering) (code : List Instr) : Prop :=
  ∃ top below, t.buffers.stack = top :: below ∧
    t'.buffers.stack = (top ++ (instrs code).toArray) :: below

/-- What was appended between two states is one list of instructions. -/
theorem Appended.unique {t t' : Lowering} {code code' : List Instr} (h : Appended t t' code)
    (h' : Appended t t' code') : code = code' := by
  obtain ⟨top, below, htop, hcode⟩ := h
  obtain ⟨top', below', htop', hcode'⟩ := h'
  rw [htop] at htop'
  obtain ⟨rfl, rfl⟩ := List.cons.inj htop'
  rw [hcode] at hcode'
  have hlines : instrs code = instrs code' := by
    have harrays := (Array.append_right_inj top).mp (List.cons.inj hcode').1
    exact congrArg Array.toList harrays
  exact List.map_inj_right (fun _ _ h => Line.instr.inj h) |>.mp hlines

theorem Passage.appended {s s' : Lowering} {ids : List Int} {code : List Instr} {labels : Nat}
    (h : Passage s ids (instrs code) labels s') (hb : s.buffers.stack ≠ []) : Appended s s' code := by
  obtain ⟨top, below, htop⟩ := List.exists_cons_of_ne_nil hb
  exact ⟨top, below, htop, h.top htop⟩

/-- An emission has what is emitted and found out when the trees `ns` are walked from `s`. -/
def Emission.Agrees (E : Emission) (ns : List Node) (s : Lowering) : Prop :=
  ∀ m t t', Entered ns s m t → (Lower.walk m).run t = .ok ((), t') →
    (∀ code, Plain code → Appended t t' code → E.code m.id = code) ∧
      ∀ v, t'.value m.id = some v → E.value m.id = v

namespace Emission.Agrees

variable {E : Emission} {n : Node} {ns : List Node} {s s' : Lowering}

/-- An emission that agrees has the code that the first tree appends. -/
theorem code_eq {code : List Instr} (h : E.Agrees (n :: ns) s) (hvisits : Visits n s s')
    (hplain : Plain code) (happended : Appended s s' code) : E.code n.id = code :=
  (h n s s' .here hvisits.run).1 code hplain happended

/-- An emission that agrees has the value that is found out for the first tree. -/
theorem value_eq {v : Value} (h : E.Agrees (n :: ns) s) (hvisits : Visits n s s')
    (hv : s'.value n.id = some v) : E.value n.id = v :=
  (h n s s' .here hvisits.run).2 v hv

/-- An emission that agrees with a walk agrees with the walk of a node inside of it. -/
theorem entered {m : Node} {t : Lowering} (h : E.Agrees ns s) (hentered : Entered ns s m t) :
    E.Agrees [m] t := by
  intro k u u' hk hrun
  exact h k u u' (hentered.trans hk) hrun

/-- An emission that agrees with a walk agrees with the walk of the children of the first tree. -/
theorem inside {id : Int} {kind : Kind} {token : Token} {children : List Node}
    (h : E.Agrees (.mk id kind token children :: ns) s)
    (henter : (Lower.enter (.mk id kind token children)).run s = .ok ((), s')) :
    E.Agrees children s' := by
  intro m t t' hentered hrun
  exact h m t t' (.inside henter hentered) hrun

/-- An emission that agrees with a walk agrees with the walk of the first tree. -/
theorem first (h : E.Agrees (n :: ns) s) : E.Agrees [n] s := by
  intro m t t' hentered hrun
  cases hentered with
  | here => exact h n s t' .here hrun
  | inside henter hentered => exact h m t t' (.inside henter hentered) hrun
  | after hwalk hentered => cases hentered

/-- An emission that agrees with a walk agrees with the walk behind the first tree. -/
theorem after (h : E.Agrees (n :: ns) s) (hvisits : Visits n s s') : E.Agrees ns s' := by
  intro m t t' hentered hrun
  exact h m t t' (.after hvisits.run hentered) hrun

end Emission.Agrees

/-- The walk of the trees `ns` from `s` appends the instructions `code` for the node with an id. -/
def EmitsAt (ns : List Node) (s : Lowering) (id : Int) (code : List Instr) : Prop :=
  ∃ m t t', Entered ns s m t ∧ (Lower.walk m).run t = .ok ((), t') ∧ m.id = id ∧ Plain code ∧
    Appended t t' code

/-- The walk of the trees `ns` from `s` finds out the value of the node with an id. -/
def FindsAt (ns : List Node) (s : Lowering) (id : Int) (v : Value) : Prop :=
  ∃ m t t', Entered ns s m t ∧ (Lower.walk m).run t = .ok ((), t') ∧ m.id = id ∧
    t'.value m.id = some v

/-- What is walked is there. -/
theorem ne_absent_of_walk {m : Node} {t t' : Lowering} (h : (Lower.walk m).run t = .ok ((), t')) :
    m ≠ .absent := by
  rintro rfl
  rw [Lower.walk] at h
  cases h

/-- For an id, one list of instructions is appended. -/
theorem EmitsAt.unique {ns : List Node} {s : Lowering} {id : Int} {code code' : List Instr}
    (hnodup : (Node.idsAll ns).Nodup) (h : EmitsAt ns s id code) (h' : EmitsAt ns s id code') :
    code = code' := by
  obtain ⟨m, t, t₁, hentered, hrun, rfl, -, happended⟩ := h
  obtain ⟨m', t', t₁', hentered', hrun', hid, -, happended'⟩ := h'
  obtain ⟨rfl, rfl⟩ := hentered.unique hnodup hentered' (ne_absent_of_walk hrun)
    (ne_absent_of_walk hrun') hid.symm
  rw [hrun] at hrun'
  cases hrun'
  exact happended.unique happended'

/-- For an id, one value is found out. -/
theorem FindsAt.unique {ns : List Node} {s : Lowering} {id : Int} {v v' : Value}
    (hnodup : (Node.idsAll ns).Nodup) (h : FindsAt ns s id v) (h' : FindsAt ns s id v') : v = v' := by
  obtain ⟨m, t, t₁, hentered, hrun, rfl, hv⟩ := h
  obtain ⟨m', t', t₁', hentered', hrun', hid, hv'⟩ := h'
  obtain ⟨rfl, rfl⟩ := hentered.unique hnodup hentered' (ne_absent_of_walk hrun)
    (ne_absent_of_walk hrun') hid.symm
  rw [hrun] at hrun'
  cases hrun'
  rw [hv] at hv'
  exact Option.some.inj hv'

open Classical in
/-- A walk that enters every node at most once has an emission that agrees with it. -/
theorem exists_agrees {ns : List Node} (hnodup : (Node.idsAll ns).Nodup) (s : Lowering) :
    ∃ E : Emission, E.Agrees ns s := by
  -- what the walk writes for a node is a function of its id, as no two nodes share one
  let code : Int → List Instr := fun id =>
    if h : ∃ code, EmitsAt ns s id code then h.choose else []
  let value : Int → Value := fun id =>
    if h : ∃ v, FindsAt ns s id v then h.choose else .int 0
  have hplain : ∀ id, Plain (code id) := by
    intro id
    by_cases h : ∃ code, EmitsAt ns s id code
    · obtain ⟨m, t, t', -, -, -, hplain, -⟩ := h.choose_spec
      simp only [code, dif_pos h]
      exact hplain
    · simp only [code, dif_neg h]
      exact plain_nil
  refine ⟨⟨code, value, hplain⟩, fun m t t' hentered hrun => ⟨fun c hc happended => ?_, fun v hv => ?_⟩⟩
  · have h : ∃ c, EmitsAt ns s m.id c := ⟨c, m, t, t', hentered, hrun, rfl, hc, happended⟩
    simp only [code, dif_pos h]
    exact h.choose_spec.unique hnodup ⟨m, t, t', hentered, hrun, rfl, hc, happended⟩
  · have h : ∃ v, FindsAt ns s m.id v := ⟨v, m, t, t', hentered, hrun, rfl, hv⟩
    simp only [value, dif_pos h]
    exact h.choose_spec.unique hnodup ⟨m, t, t', hentered, hrun, rfl, hv⟩

end ScriptPir
