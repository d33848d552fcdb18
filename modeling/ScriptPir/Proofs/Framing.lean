import ScriptPir.Proofs.Stages
import ScriptPir.Proofs.Valuation

/-!
# A subtree is walked within its frame

Buffers, scopes and label frames are pushed where a construct is entered and popped where it is left, and
the text of a part is kept until its parent places it. `Node.Framed` says what comes of this for one node:
when it is left the stacks are those of its entry, but for what was appended to the buffer on top and
for the innermost scope, and at most one fragment is kept more.

* `Visits.staged` — by induction on the tree, from the steps in `Staged`;
* `Entered.exists_tour` — the events of a walk that are about one node are the tour of that node;
* `walk_framed` — so it is for every node of a parsed tree, in the state in which it is entered.
-/

namespace ScriptPir

open Shape

/-- The productions whose text is kept for their parents to place. -/
def Kind.isKept : Kind → Bool
  | .params | .cond | .body | .forInit | .forStep | .args | .elsifArm | .elseArm => true
  | _ => false

/-- The ids for which fragments are kept once a node was walked: its own, or none. -/
def Node.kept (n : Node) : List Int := if n.kind.isKept then [n.id] else []

/-- The ids for which fragments are kept once some nodes were walked. -/
def Node.keptAll (ns : List Node) : List Int := ns.flatMap kept

/-- Productions that keep no text keep none together. -/
theorem Node.keptAll_eq_nil {ns : List Node} (h : ∀ n ∈ ns, n.kind.isKept = false) :
    keptAll ns = [] := by
  rw [keptAll, List.flatMap_eq_nil_iff]
  intro n hn
  rw [kept, h n hn]
  rfl

/-- A production that keeps its text adds its id. -/
theorem Node.keptAll_cons_of_kept {n : Node} {ns : List Node} (h : n.kind.isKept = true) :
    keptAll (n :: ns) = n.id :: keptAll ns := by
  rw [keptAll, List.flatMap_cons, kept, if_pos h]
  rfl

theorem Node.keptAll_cons_of_not_kept {n : Node} {ns : List Node} (h : n.kind.isKept = false) :
    keptAll (n :: ns) = keptAll ns := by
  rw [keptAll, List.flatMap_cons, kept, h]
  rfl

/-! ## The parts of a construct

Which children a construct has is known from its kind (`Node.fits`), and so is which of them keep
their text for it. Each construct has a lemma with its children by name. -/

section Parts

variable {ns : List Node} {n : Node}

/-- If all keep their text, all ids are kept. -/
theorem Node.keptAll_eq_map (h : ns.all (·.kind.isKept) = true) : keptAll ns = ns.map id := by
  induction ns with
  | nil => rfl
  | cons n ns ih =>
    obtain ⟨hn, hns⟩ := Bool.and_eq_true_iff.mp h
    rw [keptAll_cons_of_kept hn, ih hns, List.map_cons]

/-- A token node is a terminal. -/
theorem Node.kind_of_isTerm {p : Token → Bool} (h : n.isTerm p = true) : n.kind = .terminal := by
  unfold isTerm at h
  split at h
  · rfl
  · cases h

theorem Kind.isKept_of_isExpr {kind : Kind} (h : kind.isExpr = true) : kind.isKept = false := by
  revert h
  cases kind <;> simp [Kind.isExpr, Kind.isKept]

theorem Kind.isKept_of_isStmt {kind : Kind} (h : kind.isStmt = true) : kind.isKept = false := by
  revert h
  cases kind <;> simp [Kind.isStmt, Kind.isSimple, Kind.isKept]

/-- Further arms keep their text. -/
theorem Node.isKept_of_areArms (h : areArms ns = true) : ns.all (·.kind.isKept) = true := by
  induction ns with
  | nil => rfl
  | cons n ns ih =>
    cases ns with
    | nil =>
      simp only [areArms, Bool.or_eq_true, decide_eq_true_eq] at h
      obtain h | h := h <;> simp [h, Kind.isKept]
    | cons m ns =>
      simp only [areArms, Bool.and_eq_true, decide_eq_true_eq] at h
      rw [List.all_cons, h.1, ih h.2]
      rfl

/-- A branch has a condition, a body and further arms, all of which are kept. -/
theorem Node.exists_of_fits_branch {kind : Kind} (hkind : kind = .ifStmt ∨ kind = .unlessStmt)
    (h : fits kind ns = true) :
    ∃ c b arms, ns = c :: b :: arms ∧ keptAll ns = c.id :: b.id :: arms.map id := by
  -- `if` has any number of arms, `unless` at most one
  have hparts : ∃ c b arms, ns = c :: b :: arms ∧ c.kind = .cond ∧ b.kind = .body ∧
      arms.all (·.kind.isKept) = true := by
    obtain rfl | rfl := hkind
    · match ns with
      | c :: b :: arms =>
        obtain ⟨hfirst, harms⟩ := Bool.and_eq_true_iff.mp h
        obtain ⟨hc, hb⟩ := Bool.and_eq_true_iff.mp hfirst
        exact ⟨c, b, arms, rfl, of_decide_eq_true hc, of_decide_eq_true hb, isKept_of_areArms harms⟩
      | [] | [_] => cases h
    · match ns with
      | [c, b] =>
        obtain ⟨hc, hb⟩ := Bool.and_eq_true_iff.mp h
        exact ⟨c, b, [], rfl, of_decide_eq_true hc, of_decide_eq_true hb, rfl⟩
      | [c, b, last] =>
        obtain ⟨hfirst, hlast⟩ := Bool.and_eq_true_iff.mp h
        obtain ⟨hc, hb⟩ := Bool.and_eq_true_iff.mp hfirst
        refine ⟨c, b, [last], rfl, of_decide_eq_true hc, of_decide_eq_true hb, ?_⟩
        rw [List.all_cons, of_decide_eq_true hlast]
        rfl
      | [] | [_] | _ :: _ :: _ :: _ :: _ => cases h
  obtain ⟨c, b, arms, rfl, hc, hb, harms⟩ := hparts
  refine ⟨c, b, arms, rfl, keptAll_eq_map ?_⟩
  rw [List.all_cons, List.all_cons, hc, hb, harms]
  rfl

/-- A further arm and a loop have a condition and a body. -/
theorem Node.exists_of_fits_pair {kind : Kind} (hkind : kind = .elsifArm ∨ kind = .whileLoop)
    (h : fits kind ns = true) : ∃ c b, ns = [c, b] ∧ keptAll ns = [c.id, b.id] := by
  match ns with
  | [c, b] =>
    have hparts : (decide (c.kind = .cond) && decide (b.kind = .body)) = true := by
      obtain rfl | rfl := hkind <;> exact h
    obtain ⟨hc, hb⟩ := Bool.and_eq_true_iff.mp hparts
    refine ⟨c, b, rfl, keptAll_eq_map ?_⟩
    simp [of_decide_eq_true hc, of_decide_eq_true hb, Kind.isKept]
  | [] | [_] | _ :: _ :: _ :: _ => obtain rfl | rfl := hkind <;> cases h

/-- A loop with a header has three clauses and a body. -/
theorem Node.exists_of_fits_for (h : fits .forLoop ns = true) :
    ∃ init c step b, ns = [init, c, step, b] ∧ keptAll ns = [init.id, c.id, step.id, b.id] := by
  match ns with
  | [init, c, step, b] =>
    obtain ⟨hfirst, hb⟩ := Bool.and_eq_true_iff.mp h
    obtain ⟨hfirst, hstep⟩ := Bool.and_eq_true_iff.mp hfirst
    obtain ⟨hinit, hc⟩ := Bool.and_eq_true_iff.mp hfirst
    refine ⟨init, c, step, b, rfl, keptAll_eq_map ?_⟩
    simp [of_decide_eq_true hinit, of_decide_eq_true hc, of_decide_eq_true hstep,
      of_decide_eq_true hb, Kind.isKept]
  | [] | [_] | [_, _] | [_, _, _] | _ :: _ :: _ :: _ :: _ :: _ => cases h

/-- A definition has a name, parameters and a body; the name keeps nothing. -/
theorem Node.exists_of_fits_funcDef (h : fits .funcDef ns = true) :
    ∃ name params b, ns = [name, params, b] ∧ keptAll ns = [params.id, b.id] := by
  match ns with
  | [name, params, b] =>
    obtain ⟨hfirst, hb⟩ := Bool.and_eq_true_iff.mp h
    obtain ⟨hname, hparams⟩ := Bool.and_eq_true_iff.mp hfirst
    refine ⟨name, params, b, rfl, ?_⟩
    rw [keptAll_cons_of_not_kept (by rw [kind_of_isTerm hname]; rfl)]
    refine keptAll_eq_map ?_
    simp [of_decide_eq_true hparams, of_decide_eq_true hb, Kind.isKept]
  | [] | [_] | [_, _] | _ :: _ :: _ :: _ :: _ => cases h

/-- A call has a callee and arguments; the callee keeps nothing. -/
theorem Node.exists_of_fits_call (h : fits .call ns = true) :
    ∃ callee args, ns = [callee, args] ∧ keptAll ns = [args.id] := by
  match ns with
  | [callee, args] =>
    obtain ⟨hcallee, hargs⟩ := Bool.and_eq_true_iff.mp h
    refine ⟨callee, args, rfl, ?_⟩
    rw [keptAll_cons_of_not_kept (by rw [kind_of_isTerm hcallee]; rfl)]
    exact keptAll_eq_map (by simp [of_decide_eq_true hargs, Kind.isKept])
  | [] | [_] | _ :: _ :: _ :: _ => cases h

/-- The last arm has a body. -/
theorem Node.exists_of_fits_else (h : fits .elseArm ns = true) :
    ∃ b, ns = [b] ∧ keptAll ns = [b.id] := by
  match ns with
  | [b] => exact ⟨b, rfl, keptAll_eq_map (by simp [of_decide_eq_true h, Kind.isKept])⟩
  | [] | _ :: _ :: _ => cases h

/-- The productions that place no fragment when they are exited. -/
def Kind.isPlain : Kind → Bool
  | .terminal | .program | .stmtList | .params | .returnStmt | .forInit | .forStep | .cond | .body
  | .breakStmt | .args | .arg => true
  | _ => false

/-- Outside the constructs that place them, no part is kept. -/
theorem Node.keptAll_eq_nil_of_fits {kind : Kind} (hkind : kind.isPlain = true)
    (h : fits kind ns = true) : keptAll ns = [] := by
  have hall {p : Node → Bool} (hp : ∀ n : Node, p n = true → n.kind.isKept = false)
      (h : ns.all p = true) : keptAll ns = [] :=
    keptAll_eq_nil fun n hn => hp n (List.all_eq_true.mp h n hn)
  have hnone {e : Node} (he : e.kind.isKept = false) : keptAll [e] = [] :=
    keptAll_cons_of_not_kept he
  -- by the children that each kind allows
  cases kind with
  | terminal | breakStmt =>
    match ns with
    | [] => rfl
    | _ :: _ => cases h
  | program | body =>
    match ns with
    | [list] =>
      have hlist : list.kind = .stmtList := of_decide_eq_true h
      exact hnone (by rw [hlist]; rfl)
    | [] | _ :: _ :: _ => cases h
  | stmtList => exact hall (fun n => Kind.isKept_of_isStmt) h
  | params =>
    refine hall (fun n hn => ?_) h
    rw [kind_of_isTerm hn]
    rfl
  | forInit | forStep =>
    refine hall (fun n hn => ?_) h
    revert hn
    cases n.kind <;> simp [Kind.isAssignment, Kind.isKept]
  | args =>
    refine hall (fun n hn => ?_) h
    rw [of_decide_eq_true hn]
    rfl
  | returnStmt =>
    match ns with
    | [] => rfl
    | [e] => exact hnone (Kind.isKept_of_isExpr h)
    | _ :: _ :: _ => cases h
  | cond =>
    match ns with
    | [e] => exact hnone (Kind.isKept_of_isExpr h)
    | [] | _ :: _ :: _ => cases h
  | arg =>
    match ns with
    | [e] => exact hnone (Kind.isKept_of_isExpr h)
    | [name, e] =>
      obtain ⟨hname, he⟩ := Bool.and_eq_true_iff.mp h
      rw [keptAll_cons_of_not_kept (by rw [kind_of_isTerm hname]; rfl)]
      exact hnone (Kind.isKept_of_isExpr he)
    | [] | _ :: _ :: _ :: _ => cases h
  | _ => cases hkind

end Parts

/-! ## Walking a node

`Staged` (of the module on stages) says what is open in the middle of a construct: how much was
appended to the buffer, and which fragments wait. Here the stage behind the children is joined with
the exit of the node, one case for each construct. -/

/-- A state with a fragment to write to, in which nothing is kept for the nodes of a tree. -/
structure Vacant (ids : List Int) (s : Lowering) : Prop where
  buffers : s.buffers.stack ≠ []
  nodup : ids.Nodup
  fragment : ∀ i ∈ ids, s.fragment i = none

section Walking

variable {id : Int} {kind : Kind} {token : Token} {children ns : List Node} {n : Node}
  {s s₁ s₂ s' : Lowering}

/-- Entering a node takes no buffer away and leaves all kept fragments where they are. -/
theorem frame_of_enter (h : (Lower.enter n).run s = .ok ((), s₁)) :
    s₁.fragment = s.fragment ∧ (s.buffers.stack ≠ [] → s₁.buffers.stack ≠ []) := by
  have hpushed : s.buffers.push.stack ≠ [] := List.cons_ne_nil _ _
  unfold Lower.enter at h
  split at h
  -- a node is entered in one of five ways: nothing, a new buffer, the frame of a branch, that of an
  -- arm, a call
  all_goals
    first
    | cases h
      exact ⟨rfl, id⟩
    | cases h
      exact ⟨rfl, fun _ => hpushed⟩
    | obtain ⟨own, f, rfl⟩ := exists_framed_of_enterBranch h
      exact ⟨rfl, id⟩
    | obtain ⟨own, f, rfl⟩ := exists_framed_of_enterElsif h
      exact ⟨rfl, fun _ => hpushed⟩
    | obtain ⟨_, s₂, hreset, hrest⟩ := Lower.run_bind_eq_ok h
      obtain ⟨call, -, hrest⟩ := Lower.of_bind_child hrest
      cases hreset
      cases hrest
      exact ⟨rfl, id⟩
    | cases h

namespace Vacant

theorem sublist {ids ids' : List Int} (h : Vacant ids s) (hsub : ids'.Sublist ids) : Vacant ids' s :=
  ⟨h.buffers, h.nodup.sublist hsub, fun i hi => h.fragment i (hsub.subset hi)⟩

/-- What is below a node can be walked once the node was entered. -/
theorem inside (h : Vacant (Node.mk id kind token children).ids s)
    (henter : (Lower.enter (.mk id kind token children)).run s = .ok ((), s₁)) :
    Vacant (Node.idsAll children) s₁ := by
  obtain ⟨hfragment, hbuffers⟩ := frame_of_enter henter
  have hbelow : Vacant (Node.idsAll children) s := h.sublist (List.sublist_cons_self ..)
  refine ⟨hbuffers h.buffers, hbelow.nodup, fun i hi => ?_⟩
  rw [hfragment]
  exact hbelow.fragment i hi

/-- What stands behind a node can be walked once the node was walked. -/
theorem after {kept : List Int} (h : Vacant (Node.idsAll (n :: ns)) s)
    (hstaged : Staged s n.ids kept s₁) : Vacant (Node.idsAll ns) s₁ := by
  have hrest : Vacant (Node.idsAll ns) s := h.sublist (List.sublist_append_right ..)
  have hdisjoint := (List.nodup_append.mp h.nodup).2.2
  refine ⟨hstaged.buffers_ne h.buffers, hrest.nodup, fun i hi => ?_⟩
  obtain ⟨lines, labels, pairs, hstage, -⟩ := hstaged
  rw [hstage.holds.rest i, hrest.fragment i hi]
  intro hmem
  obtain ⟨p, hp, rfl⟩ := List.mem_map.mp hmem
  exact hdisjoint _ (hstage.within p hp) _ hi rfl

end Vacant

/-- What a node does besides walking what is below it, when the text of its parts is kept as it should
be. An expression is treated as a whole, unless it is a call whose result is not used. -/
theorem staged_of_exit (hvacant : Vacant (Node.mk id kind token children).ids s)
    (hfits : Node.fits kind children = true) (hsimple : kind.isSimple = false)
    (hexpr : kind.isExpr = true → kind = .call ∧ s.stmtCall = id)
    (henter : (Lower.enter (.mk id kind token children)).run s = .ok ((), s₁))
    (hbelow : Staged s₁ (Node.idsAll children) (Node.keptAll children) s₂)
    (hexit : (Lower.exit (.mk id kind token children)).run s₂ = .ok ((), s')) :
    Staged s (Node.mk id kind token children).ids (Node.mk id kind token children).kept s' := by
  have hb := hvacant.buffers
  have hmem : id ∈ (Node.mk id kind token children).ids := List.mem_cons_self
  have hfree : s.fragment id = none := hvacant.fragment id hmem
  replace hbelow := hbelow.mono (List.subset_cons_self id _)
  -- a case for each kind: its parts by name, the way it is entered, and the stage that its exit comes
  -- to
  cases kind with
  | terminal | stmtList =>
    rw [Node.keptAll_eq_nil_of_fits rfl hfits] at hbelow
    cases henter
    cases hexit
    exact hbelow
  | returnStmt =>
    rw [Node.keptAll_eq_nil_of_fits rfl hfits] at hbelow
    cases henter
    exact hbelow.exitReturn hb hexit
  | breakStmt =>
    rw [Node.keptAll_eq_nil_of_fits rfl hfits] at hbelow
    cases henter
    exact hbelow.exitBreak hb hexit
  | arg =>
    rw [Node.keptAll_eq_nil_of_fits rfl hfits] at hbelow
    cases henter
    obtain ⟨e, -, hexit⟩ := Lower.of_bind_child hexit
    obtain ⟨v, -, hexit⟩ := Lower.of_bind_valueOf hexit
    exact hbelow.setValue (n := .mk id .arg token children) hmem hexit
  | forInit | forStep | body | args =>
    rw [Node.keptAll_eq_nil_of_fits rfl hfits] at hbelow
    cases henter
    exact hbelow.stash hfree hmem hexit
  | cond =>
    rw [Node.keptAll_eq_nil_of_fits rfl hfits] at hbelow
    cases henter
    exact hbelow.exitCond hfree hmem hexit
  | params =>
    rw [Node.keptAll_eq_nil_of_fits rfl hfits] at hbelow
    cases henter
    exact hbelow.exitParams hfree hmem hexit
  | ifStmt | unlessStmt =>
    obtain ⟨c, b, arms, rfl, hkept⟩ := Node.exists_of_fits_branch (by simp) hfits
    rw [hkept] at hbelow
    obtain ⟨own, f, rfl⟩ := exists_framed_of_enterBranch henter
    exact hbelow.exitBranch hb rfl hexit
  | elsifArm =>
    obtain ⟨c, b, rfl, hkept⟩ := Node.exists_of_fits_pair (by simp) hfits
    rw [hkept] at hbelow
    obtain ⟨own, f, rfl⟩ := exists_framed_of_enterElsif henter
    exact hbelow.exitElsif rfl hfree hmem hexit
  | elseArm =>
    obtain ⟨b, rfl, hkept⟩ := Node.exists_of_fits_else hfits
    rw [hkept] at hbelow
    cases henter
    exact hbelow.exitElse rfl hfree hmem hexit
  | whileLoop =>
    obtain ⟨c, b, rfl, hkept⟩ := Node.exists_of_fits_pair (by simp) hfits
    rw [hkept] at hbelow
    obtain ⟨f, exit, rfl⟩ := exists_framed_of_enterLoop henter
    exact hbelow.exitWhile hb rfl hexit
  | forLoop =>
    obtain ⟨init, c, step, b, rfl, hkept⟩ := Node.exists_of_fits_for hfits
    rw [hkept] at hbelow
    obtain ⟨f, exit, rfl⟩ := exists_framed_of_enterLoop henter
    exact hbelow.exitFor hb rfl hexit
  | funcDef =>
    obtain ⟨name, params, b, rfl, hkept⟩ := Node.exists_of_fits_funcDef hfits
    rw [hkept] at hbelow
    cases henter
    exact hbelow.exitFuncDef rfl hexit
  | call =>
    obtain ⟨callee, args, rfl, hkept⟩ := Node.exists_of_fits_call hfits
    rw [hkept] at hbelow
    cases henter
    exact hbelow.exitCall (n := .mk id .call token [callee, args]) hb rfl (hexpr rfl).2 hexit
  | program =>
    rw [Node.keptAll_eq_nil_of_fits rfl hfits] at hbelow
    cases henter
    exact absurd hexit (hbelow.not_run_exitProgram hb)
  | unknown => cases henter
  | assign | arrayInit | indexAssign | globalSet | globalGet | require | inlinePir | callStmt =>
    cases hsimple
  | literal | ident | globalRef | paren | unary | binary | compare | logic | index =>
    cases (hexpr rfl).1

/-- Expressions and simple statements were walked as a whole before. What is left are the constructs that
arrange them, and calls whose result is not used. -/
theorem staged_or_of_fits (h : Fits n s) (hrun : (Lower.walk n).run s = .ok ((), s')) :
    Staged s n.ids n.kept s' ∨
      n.kind.isSimple = false ∧ (n.kind.isExpr = true → n.kind = .call ∧ s.stmtCall = n.id) := by
  have hnone {m : Node} (hm : m.kind.isKept = false) : m.kept = [] := by
    rw [Node.kept, hm]
    rfl
  -- expressions and simple statements are known as a whole from their lowering
  cases h with
  | @expr e _ hindexed hready =>
    obtain ⟨s₁, hvisits, hcomputes⟩ := visits_expr e hindexed hready
    rw [hvisits.run] at hrun
    cases hrun
    rw [hnone (Kind.isKept_of_isExpr e.kind_isExpr)]
    exact .inl (.of_writes ⟨hcomputes.passage, hcomputes.fragment⟩)
  | @simple x _ hindexed hready hcall =>
    obtain ⟨s₁, hvisits, hperforms, -⟩ := visits_simple x hindexed hready hcall
    rw [hvisits.run] at hrun
    cases hrun
    have hkind : x.node.kind.isKept = false := Kind.isKept_of_isStmt (Stmt.simple x).kind_isStmt
    rw [hnone hkind]
    exact .inl (.of_writes hperforms.writes)
  | unused hcall => exact .inr ⟨rfl, fun _ => ⟨rfl, hcall⟩⟩
  | other hexpr hsimple =>
    refine .inr ⟨hsimple, fun h => ?_⟩
    rw [hexpr] at h
    cases h

mutual

/-- Walking a node that fits leaves the frame around it alone. -/
theorem Visits.staged {n : Node} {s s' : Lowering} (h : Visits n s s')
    (hproper : ∀ m ∈ n.nodesOnto [], Node.fits m.kind m.children = true) (hvacant : Vacant n.ids s) :
    Staged s n.ids n.kept s' := by
  cases n with
  | absent => exact absurd rfl (ne_absent_of_walk h.run)
  | mk id kind token children =>
    obtain ⟨s₁, s₂, henter, hchildren, hexit⟩ := Lower.exists_of_walk h.run
    have hbelow : VisitsAll children s₁ s₂ :=
      ⟨hchildren, fun m t hm => h.fits m t (.inside henter hm)⟩
    have hstaged : Staged s₁ (Node.idsAll children) (Node.keptAll children) s₂ :=
      hbelow.staged (fun m hm => hproper m (List.mem_cons_of_mem _ hm)) (hvacant.inside henter)
    rcases staged_or_of_fits (h.fits _ _ .here) h.run with hwhole | ⟨hsimple, hexpr⟩
    · exact hwhole
    · exact staged_of_exit hvacant (hproper _ List.mem_cons_self) hsimple hexpr henter hstaged hexit

/-- Some trees that are visited one after the other keep the texts of all of them. -/
theorem VisitsAll.staged {ns : List Node} {s s' : Lowering} (h : VisitsAll ns s s')
    (hproper : ∀ m ∈ Node.nodesOntoAll [] ns, Node.fits m.kind m.children = true)
    (hvacant : Vacant (Node.idsAll ns) s) : Staged s (Node.idsAll ns) (Node.keptAll ns) s' := by
  cases ns with
  | nil =>
    have hrun := h.run
    rw [Lower.walkAll] at hrun
    cases hrun
    exact .of_writes (.refl s)
  | cons n ns =>
    rw [Node.nodesOntoAll, Node.nodesOnto_eq_append] at hproper
    obtain ⟨s₁, hfirst, hrest⟩ := Lower.exists_of_walkAll h.run
    -- the walk of the list is that of its first tree and that of the others
    have hn : Visits n s s₁ := ⟨hfirst, fun m t hm => h.fits m t (Entered.trans .here hm)⟩
    have hns : VisitsAll ns s₁ s' := ⟨hrest, fun m t hm => h.fits m t (.after hfirst hm)⟩
    have hstaged := hn.staged (fun m hm => hproper m (List.mem_append_left _ hm))
      (hvacant.sublist (List.sublist_append_left ..))
    exact hstaged.trans <|
      hns.staged (fun m hm => hproper m (List.mem_append_right _ hm)) (hvacant.after hstaged)

end

/-- A node that is entered finds a fragment to write to and nothing kept for its tree. -/
theorem Entered.vacant {ns : List Node} {m : Node} {s t : Lowering} (h : Entered ns s m t)
    (hfits : ∀ k u, Entered ns s k u → Fits k u)
    (hproper : ∀ k ∈ Node.nodesOntoAll [] ns, Node.fits k.kind k.children = true)
    (hvacant : Vacant (Node.idsAll ns) s) : Vacant m.ids t := by
  -- on the way to the node: down into a tree, or past one whose fragments are its own
  induction h with
  | here => exact hvacant.sublist (List.sublist_append_left ..)
  | inside henter h ih =>
    rw [Node.nodesOntoAll, Node.nodesOnto_eq_append] at hproper
    have hown := hvacant.sublist (List.sublist_append_left ..)
    exact ih (fun k u hk => hfits k u (.inside henter hk))
      (fun k hk => hproper k (List.mem_append_left _ (List.mem_cons_of_mem _ hk)))
      (hown.inside henter)
  | after hwalk h ih =>
    rw [Node.nodesOntoAll, Node.nodesOnto_eq_append] at hproper
    have hfirst : Visits _ _ _ := ⟨hwalk, fun k u hk => hfits k u (Entered.trans .here hk)⟩
    have hstaged := hfirst.staged (fun k hk => hproper k (List.mem_append_left _ hk))
      (hvacant.sublist (List.sublist_append_left ..))
    exact ih (fun k u hk => hfits k u (.after hwalk hk))
      (fun k hk => hproper k (List.mem_append_right _ hk)) (hvacant.after hstaged)

end Walking

/-! ## The part of a tour that is about one node

A tour is the list of events of a walk. Each node has one stretch of it, between its entry and its
exit; since ids are unique, wherever these two events stand, the stretch between them is the tour of
its children. -/

namespace Node

mutual

/-- The tour of a tree is put in front of what follows. -/
theorem tourOnto_eq_append (acc : List Event) (n : Node) : n.tourOnto acc = n.tour ++ acc := by
  cases n with
  | absent => rfl
  | mk id kind token children =>
    rw [tour, tourOnto, tourOnto, tourOntoAll_eq_append, tourOntoAll_eq_append [_]]
    simp

/-- The tour of some trees is put in front of what follows. -/
theorem tourOntoAll_eq_append (acc : List Event) (ns : List Node) :
    tourOntoAll acc ns = tourOntoAll [] ns ++ acc := by
  cases ns with
  | nil => rfl
  | cons n ns =>
    rw [tourOntoAll, tourOntoAll, tourOnto_eq_append, tourOnto_eq_append (tourOntoAll [] ns),
      tourOntoAll_eq_append, List.append_assoc]

end

/-- The tour of one tree is that of the list of it. -/
theorem tourOntoAll_singleton (n : Node) : tourOntoAll [] [n] = n.tour := by
  rw [tourOntoAll, tourOntoAll, tour]

/-- A tour enters its node, goes through what is below it and exits the node. -/
theorem tour_mk (id : Int) (kind : Kind) (token : Token) (children : List Node) :
    (mk id kind token children).tour = .enter (mk id kind token children) ::
      (tourOntoAll [] children ++ [.exit (mk id kind token children)]) := by
  rw [tour, tourOnto, tourOntoAll_eq_append]

end Node

/-- The state in which a node is entered is that behind the events before its own tour. -/
theorem Entered.exists_tour {ns : List Node} {m : Node} {s t : Lowering} (h : Entered ns s m t) :
    ∃ before after, Node.tourOntoAll [] ns = before ++ (m.tour ++ after) ∧
      (before.forM Lower.step).run s = .ok ((), t) := by
  -- by induction on how the node was reached: at the front, below the first tree, or behind it
  induction h with
  | @here n ns s =>
    refine ⟨[], Node.tourOntoAll [] ns, ?_, rfl⟩
    rw [Node.tourOntoAll, Node.tourOnto_eq_append, List.nil_append]
  | @inside id kind token children ns m s s' t henter h ih =>
    obtain ⟨before, after, htour, hrun⟩ := ih
    refine ⟨.enter (.mk id kind token children) :: before,
      after ++ .exit (.mk id kind token children) :: Node.tourOntoAll [] ns, ?_,
      (Lower.run_bind_of_ok henter).trans hrun⟩
    rw [Node.tourOntoAll, Node.tourOnto_eq_append, Node.tour_mk, htour]
    simp
  | @after n m ns s s' t hwalk h ih =>
    obtain ⟨before, after, htour, hrun⟩ := ih
    rw [← Lower.forM_tour] at hwalk
    refine ⟨n.tour ++ before, after, ?_, ?_⟩
    · rw [Node.tourOntoAll, Node.tourOnto_eq_append, htour, List.append_assoc]
    · rw [List.forM_eq_forM, List.forM_append]
      exact (Lower.run_bind_of_ok hwalk).trans hrun

section Moments

variable {root n : Node} {events before inside after : List Event} {s s' : Lowering}

/-- A node that is entered has its id among those that are. -/
theorem id_mem_enteredIds (h : .enter n ∈ events) : n.id ∈ enteredIds events := by
  induction events with
  | nil => cases h
  | cons e events ih =>
    cases e with
    | enter m =>
      rcases List.mem_cons.mp h with heq | h
      · cases heq
        exact List.mem_cons_self
      · exact List.mem_cons_of_mem _ (ih h)
    | exit | missing => exact ih ((List.mem_cons.mp h).resolve_left nofun)

/-- A node that is exited has its id among those that are. -/
theorem id_mem_exited (h : .exit n ∈ events) :
    n.id ∈ (events.filterMap Event.exited?).map Node.id :=
  List.mem_map_of_mem (List.mem_filterMap.mpr ⟨_, h, rfl⟩)

/-- Ids are entered in the order of the events. -/
theorem enteredIds_append (before after : List Event) :
    enteredIds (before ++ after) = enteredIds before ++ enteredIds after := by
  induction before with
  | nil => rfl
  | cons e before ih => cases e <;> simp [enteredIds, ih]

/-- An event that enters or exits a node comes once in a tour. -/
theorem not_mem_of_tour (hnodup : root.ids.Nodup)
    (htour : root.tour = before ++ .enter n :: (inside ++ .exit n :: after)) :
    (.enter n ∉ before ∧ .enter n ∉ inside ++ .exit n :: after) ∧
      .exit n ∉ inside ∧ .exit n ∉ after := by
  have hentered : (enteredIds root.tour).Nodup := by
    rw [Node.tour, enteredIds_tourOnto]
    exact (List.append_nil _).symm ▸ hnodup
  have hexited := Node.nodup_exited hnodup
  rw [htour, enteredIds_append, enteredIds, List.nodup_append] at hentered
  rw [htour, List.filterMap_append, List.map_append, List.nodup_append] at hexited
  have hinside : (((inside ++ .exit n :: after).filterMap Event.exited?).map Node.id).Nodup :=
    hexited.2.1
  rw [List.filterMap_append, List.map_append, List.nodup_append] at hinside
  refine ⟨⟨fun h => ?_, fun h => ?_⟩, fun h => ?_, fun h => ?_⟩
  · exact hentered.2.2 _ (id_mem_enteredIds h) _ List.mem_cons_self rfl
  · exact (List.nodup_cons.mp hentered.2.1).1 (id_mem_enteredIds h)
  · exact hinside.2.2 _ (id_mem_exited h) _ List.mem_cons_self rfl
  · exact (List.nodup_cons.mp hinside.2.1).1 (id_mem_exited h)

/-- A node that a walk enters and exits is entered in the state behind the events before, and what the
walk does in between is the tour of the node. -/
theorem exists_entered_of_moment (hnodup : root.ids.Nodup)
    (hwalk : (Lower.walk root).run s = .ok ((), s'))
    (htour : root.tour = before ++ .enter n :: (inside ++ .exit n :: after)) :
    ∃ t, Entered [root] s n t ∧ (before.forM Lower.step).run s = .ok ((), t) ∧
      n.tour = .enter n :: (inside ++ [.exit n]) := by
  have hn : n ∈ root.nodesOnto [] := by
    have hmem : n ∈ root.tour.filterMap Event.exited? :=
      List.mem_filterMap.mpr ⟨.exit n, by rw [htour]; simp, rfl⟩
    rw [Node.tour, Node.exited_tourOnto root.id, List.filterMap_nil, List.append_nil] at hmem
    exact (Node.perm_exitsFrom _ _).mem_iff.mp hmem
  obtain ⟨t, hentered⟩ := exists_entered hwalk hn
  obtain ⟨first, last, hsplit, hrun⟩ := hentered.exists_tour
  refine ⟨t, hentered, ?_⟩
  cases n with
  | absent => exact absurd rfl (Node.mem_nodes_iff.mp hn).1
  | mk id kind token children =>
    -- the walk has one place at which it enters the node, and one at which it exits it
    obtain ⟨⟨hbefore, hrest⟩, hinside, hafter⟩ := not_mem_of_tour hnodup htour
    have hplaces : before ++ .enter (.mk id kind token children) ::
          (inside ++ .exit (.mk id kind token children) :: after) =
        first ++ .enter (.mk id kind token children) ::
          (Node.tourOntoAll [] children ++ .exit (.mk id kind token children) :: last) := by
      rw [← htour, ← Node.tourOntoAll_singleton, hsplit, Node.tour_mk]
      simp
    obtain ⟨rfl, -, hbelow⟩ := (List.append_cons_inj_of_notMem hbefore hrest).mp hplaces
    obtain ⟨rfl, -, -⟩ := (List.append_cons_inj_of_notMem hinside hafter).mp hbelow
    exact ⟨hrun, Node.tour_mk id kind token children⟩

end Moments

/-! ## The frame of a subtree

The result in terms of the state alone. A node whose text is for its parent leaves exactly one
fragment, its own; all others leave none. -/

/-- What the walk of a node does to the stacks of a lowering and to the fragments kept: it appends to the
buffer on top, changes nothing but the innermost scope, and leaves a fragment for the node if its text is
for the parent to place. -/
structure Node.Framed (n : Node) (t t' : Lowering) : Prop where
  buffers : ∃ added, t'.buffers.stack = t.buffers.stack.modifyHead (· ++ added)
  scopes : ∃ f, t'.scopes.stack = t.scopes.stack.modifyHead f
  frames : t'.labels.frames = t.labels.frames
  loops : t'.labels.loops = t.labels.loops
  kept : n.kind.isKept = true → t.fragment n.id = none ∧
    ∃ f, t'.fragment = Function.update t.fragment n.id (some f)
  others : n.kind.isKept = false → t'.fragment = t.fragment

/-- A stage at the end of a node is its frame. -/
theorem Staged.framed {n : Node} {t t' : Lowering} (h : Staged t n.ids n.kept t') : n.Framed t t' := by
  obtain ⟨lines, labels, pairs, hstage, hkept⟩ := h
  refine ⟨⟨_, hstage.passage.buffers⟩, hstage.passage.scopes, hstage.passage.frames,
    hstage.passage.loops, fun hkind => ?_, fun hkind => ?_⟩
  -- a kind that keeps a fragment keeps one, with the id of the node
  · rw [Node.kept, if_pos hkind] at hkept
    obtain ⟨⟨i, part⟩, last, rfl, rfl, hlast⟩ := List.map_eq_cons_iff.mp hkept
    obtain rfl := List.map_eq_nil_iff.mp hlast
    refine ⟨hstage.holds.free _ List.mem_cons_self, part.toArray, funext fun j => ?_⟩
    by_cases hj : j = n.id
    · rw [hj, Function.update_self]
      exact hstage.holds.lines _ List.mem_cons_self
    · rw [Function.update_of_ne hj]
      exact hstage.holds.rest j (by simpa using hj)
  · rw [Node.kept, hkind] at hkept
    obtain rfl := List.map_eq_nil_iff.mp hkept
    exact hstage.writes.fragment

/-- Between two states in which nothing is open and nothing is kept, nothing happened to the frame. -/
theorem Settled.framed {n : Node} {label stdlib : String} {s : Lowering} (h : Settled s)
    (hkind : n.kind = .program) : n.Framed (.started label stdlib) s := by
  refine ⟨⟨#[], h.buffers⟩, ⟨id, h.scopes⟩, h.frames, h.loops, fun hkept => ?_, fun _ => ?_⟩
  · rw [hkind] at hkept
    cases hkept
  · funext i
    have hnone := Std.TreeMap.isEmpty_iff_forall_not_mem.mp h.fragments i
    exact Std.TreeMap.getElem?_eq_none hnone

/-- Every node of a program is walked within its frame, the program as a whole and all below it. -/
theorem Entered.framed {script : Script} {label stdlib : String} {n : Node} {s t t' : Lowering}
    (h : Entered [script.node] (.started label stdlib) n t)
    (hvisits : Visits script.node (.started label stdlib) s) (hsettled : Settled s)
    (hnodup : script.node.ids.Nodup)
    (hproper : ∀ k ∈ script.node.nodesOnto [], Node.fits k.kind k.children = true)
    (hrun : (Lower.walk n).run t = .ok ((), t')) :
    n.Framed t t' ∧ (n.kind ≠ .program → t.buffers.stack ≠ []) := by
  have hbelow : ∀ k ∈ n.nodesOnto [], Node.fits k.kind k.children = true := by
    intro k hk
    obtain ⟨u, hentered⟩ := exists_entered hrun hk
    obtain ⟨r, hr, hmem⟩ := Node.mem_nodesOntoAll.mp
      ((h.trans hentered).mem (Node.mem_nodes_iff.mp hk).1)
    rw [List.mem_singleton.mp hr] at hmem
    exact hproper k hmem
  have hown : Visits n t t' := ⟨hrun, fun k u hk => hvisits.fits k u (h.trans hk)⟩
  cases h with
  | here =>
    rw [hvisits.run] at hrun
    cases hrun
    exact ⟨hsettled.framed rfl, fun hkind => absurd rfl hkind⟩
  | after hwalk h => cases h
  | inside henter h =>
    -- the program has opened a buffer, and nothing is kept yet
    have hopened : Vacant _ (Lowering.started label stdlib).opened :=
      ⟨List.cons_ne_nil _ _, (List.nodup_cons.mp hnodup).2, fun _ _ => rfl⟩
    cases henter
    have hvacant := h.vacant (fun k u hk => hvisits.fits k u (.inside rfl hk))
      (fun k hk => hproper k (List.mem_cons_of_mem _ hk)) hopened
    exact ⟨(hown.staged hbelow hvacant).framed, fun _ => hvacant.buffers⟩

/-- The walk of a parsed tree enters and exits every node of it, and for each of them the two states
differ within its frame. Below the top all nodes find a buffer to write to. -/
theorem walk_framed {src : Source} {root : Node} (hparse : parse src = .ok root)
    (label stdlib : String) :
    (∀ n ∈ root.nodesOnto [], ∃ before inside after,
      root.walk.events = before ++ .enter n :: (inside ++ .exit n :: after)) ∧
    ∀ n before inside after, root.walk.events = before ++ .enter n :: (inside ++ .exit n :: after) →
      ∃ t t', (before.forM Lower.step).run (.started label stdlib) = .ok ((), t) ∧
        ((.enter n :: (inside ++ [.exit n])).forM Lower.step).run t = .ok ((), t') ∧
        n.Framed t t' ∧ (n.kind ≠ .program → t.buffers.stack ≠ []) := by
  obtain ⟨script, E, s, rfl, hvalid, hnodup, -, hlowers⟩ := exists_lowers hparse label stdlib
  have hvisits := hlowers.visits
  have hproper : ∀ n ∈ script.node.nodesOnto [], Node.fits n.kind n.children = true := by
    intro n hn
    obtain ⟨hpresent, path, hpath⟩ := Node.mem_nodes_iff.mp hn
    exact (script.sound hvalid hpresent hpath).1.fits
  -- the events of the walk are the tour of the tree
  rw [walk_eq_tour hnodup hvisits.run]
  refine ⟨fun n hn => ?_, fun n before inside after htour => ?_⟩
  · obtain ⟨t, hentered⟩ := exists_entered hvisits.run hn
    obtain ⟨before, after, hsplit, -⟩ := hentered.exists_tour
    cases n with
    | absent => exact absurd rfl (Node.mem_nodes_iff.mp hn).1
    | mk id kind token children =>
      refine ⟨before, Node.tourOntoAll [] children, after, ?_⟩
      rw [← Node.tourOntoAll_singleton, hsplit, Node.tour_mk]
      simp
  · obtain ⟨t, hentered, hbefore, hown⟩ := exists_entered_of_moment hnodup hvisits.run htour
    have hids : (Node.idsAll [script.node]).Nodup := by rwa [idsAll_singleton]
    obtain ⟨t', hrun, -⟩ := hentered.exists_walk hids (walkAll_singleton hvisits.run)
    refine ⟨t, t', hbefore, ?_, ?_⟩
    · rw [← hown, Lower.forM_tour, hrun]
    exact hentered.framed hvisits hlowers.settled hnodup hproper hrun

/-- A program in which every part that is kept stands below another one. -/
def arranged : Source := .ofString "def f(a)
g(a, k: 1)
end
for (i = 0; i < 3; i += 1)
if i == 1
f(i)
elsif i > 1
break
else
while false
end
end
end
"

/-- Applied to the program above, in which every construct occurs that keeps texts. -/
theorem walk_framed_arranged :
    ∃ root, parse arranged = .ok root ∧
      (∀ n ∈ root.nodesOnto [], ∃ before inside after,
        root.walk.events = before ++ .enter n :: (inside ++ .exit n :: after)) ∧
      ∀ n before inside after,
        root.walk.events = before ++ .enter n :: (inside ++ .exit n :: after) →
        ∃ t t', (before.forM Lower.step).run (.started "arranged" defaultStdlib) = .ok ((), t) ∧
          ((.enter n :: (inside ++ [.exit n])).forM Lower.step).run t = .ok ((), t') ∧
          n.Framed t t' ∧ (n.kind ≠ .program → t.buffers.stack ≠ []) := by
  have hok : (parse arranged).isOk = true := by decide +kernel
  cases hparse : parse arranged with
  | error e => rw [hparse] at hok; cases hok
  | ok root => exact ⟨root, rfl, walk_framed hparse "arranged" defaultStdlib⟩

end ScriptPir
