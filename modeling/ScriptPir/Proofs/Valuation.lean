import ScriptPir.Proofs.Exits
import ScriptPir.Proofs.ScriptLowering

/-!
# Which nodes have a value

A lowering remembers values in one table, which the exits of a walk fill. One field of the state says
which call is a statement of its own, so that its exit leaves the table alone.

* `Node.Valued` — the nodes of a tree that have a value, told by their kinds and by what stands above
  them;
* `Marked` — along the walk the field is no id at all or that of a call statement's call;
* `value_of_events` — a value that is known at some moment of the walk is the value ever after;
* `valuation_exact` — exactly the valued nodes of a parsed tree have a value in the end, and a
  condition, an argument and a bracket have that of their expression.
-/

namespace ScriptPir

open Shape

/-- The productions whose nodes have a value wherever they stand. -/
def Kind.isValued : Kind → Bool
  | .cond | .arg | .literal | .ident | .globalRef | .paren | .unary | .binary | .compare | .logic
  | .index => true
  | _ => false

/-- The result of a call is not used: it is what a call statement consists of. -/
def Node.Discards (root n : Node) : Prop :=
  ∃ p ∈ root.nodesOnto [], p.kind = .callStmt ∧ n ∈ p.children

/-- A node of a tree that has a value. -/
def Node.Valued (root n : Node) : Prop :=
  n ∈ root.nodesOnto [] ∧ (n.kind.isValued = true ∨ n.kind = .call ∧ ¬root.Discards n)

/-- The child whose value a node hands on. -/
def Node.inner? (n : Node) : Option Node :=
  match n.kind with
  | .cond => n.child? 0
  | .arg => n.child? (n.children.length - 1)
  | .paren => n.child? 1
  | _ => none

/-! ## What one exit does to the table

An exit records a value for its own node or leaves the table alone, and which of these depends on the
kind. Only for calls does it depend on the state too. -/

section Exits

variable {n c : Node} {u u' : Lowering}

/-- The exit of a node without a value leaves the table alone. -/
theorem keeps_value_exit_of_unvalued {i : Int} (hvalued : n.kind.isValued = false)
    (hcall : n.kind ≠ .call) : Lower.Keeps (Same (Tables.value i)) (Lower.exit n) := by
  unfold Lower.exit
  split
  all_goals
    rename_i hkind
    rw [hkind] at hvalued
    first
    | infer_instance
    | exact absurd hkind hcall
    | cases hvalued

/-- The call that is a statement of its own is the same in two states. -/
def SameCall (s s' : Lowering) : Prop := s'.stmtCall = s.stmtCall

instance : Wide SameCall where
  refl _ := rfl
  trans h h' := h'.trans h
  buffers _ _ := rfl
  fragments _ _ := rfl
  labels _ _ _ := rfl
  registers _ := rfl
  notices _ _ := rfl
  scopes _ _ := rfl
  errors _ _ _ := rfl
  program _ _ := rfl

instance : Lax SameCall where
  values _ _ := rfl

namespace Lower

instance : Keeps SameCall resetRegisters := ⟨fun h => by cases h; rfl⟩

instance (callee : String) : Keeps SameCall (noteCall callee) := ⟨fun h => by cases h; rfl⟩

instance (r : FunctionRecord Fragment) : Keeps SameCall (storeFunction r) :=
  ⟨fun h => by cases h; rfl⟩

instance (name : String) : Keeps SameCall (noteLibrary name) := by
  refine ⟨@fun s a s' h => ?_⟩
  cases h
  show (if s.requires.contains name then s else _).stmtCall = s.stmtCall
  split <;> rfl

/-- Only call statements change which call is one. -/
theorem keeps_call (h : n.kind ≠ .callStmt) : Keeps SameCall (enter n) ∧ Keeps SameCall (exit n) :=
  ⟨keeps_enter_firm (fun _ => inferInstance) (fun _ => inferInstance) fun hk => absurd hk h,
    keeps_exit_firm (fun _ => inferInstance) (fun _ _ => inferInstance) (fun _ _ => inferInstance)
      fun hk => absurd hk h⟩

end Lower

/-- The exit of a call that is a statement of its own leaves the table alone. -/
theorem value_of_exit_discarded (hkind : n.kind = .call) (hcall : u.stmtCall = n.id)
    (h : (Lower.exit n).run u = .ok ((), u')) (i : Int) : u'.value i = u.value i := by
  have hrun : (Lower.exitCall n).run u = .ok ((), u') := by
    simpa only [Lower.exit, hkind] using h
  obtain ⟨callee, -, hrun⟩ := Lower.of_bind_child hrun
  obtain ⟨args, -, hrun⟩ := Lower.of_bind_child hrun
  obtain ⟨fragment, u₁, htake, hrun⟩ := Lower.run_bind_eq_ok hrun
  obtain ⟨_, u₂, hsplice, hrun⟩ := Lower.run_bind_eq_ok hrun
  obtain ⟨_, u₃, hnote, hrun⟩ := Lower.run_bind_eq_ok hrun
  obtain ⟨as, u₄, hargs, hrun⟩ := Lower.run_bind_eq_ok hrun
  obtain ⟨_, _, hget, hrun⟩ := Lower.run_bind_eq_ok hrun
  cases hget
  have hkept {R : Lowering → Lowering → Prop} [Wide R]
      [Lower.Keeps R (Lower.noteCall callee.text)] : R u u₄ :=
    Rough.trans (Lower.Keeps.rel htake) (Rough.trans (Lower.Keeps.rel hsplice)
      (Rough.trans (Lower.Keeps.rel (p := Lower.noteCall callee.text) hnote)
        (Lower.Keeps.rel hargs)))
  -- the steps up to here keep the mark, so the call is still known to be a statement
  have hmark : n.id = u₄.stmtCall := by
    rw [(hkept : SameCall u u₄), hcall]
  rw [if_pos hmark] at hrun
  have htable : Same (Tables.value i) u u₄ := hkept
  exact (Lower.Keeps.rel (R := Same (Tables.value i)) hrun).trans htable

/-- To hand on the value of a child is to have it too. -/
theorem value_of_handOn {i : Nat} (hc : n.child? i = some c)
    (h : (do Lower.setValue n (← Lower.valueOf (← Lower.child n i))).run u = .ok ((), u')) :
    ∃ v, u'.value n.id = some v ∧ u'.value c.id = some v := by
  obtain ⟨c', hc', hrun⟩ := Lower.of_bind_child h
  obtain rfl := Option.some.inj (hc.symm.trans hc')
  obtain ⟨v, hv, hrun⟩ := Lower.of_bind_valueOf hrun
  cases hrun
  refine ⟨v, ?_, ?_⟩
  · show { u with values := u.values.insert n.id v }.value n.id = some v
    rw [value_insert, Function.update_self]
  · show { u with values := u.values.insert n.id v }.value c.id = some v
    rw [value_insert]
    by_cases hid : c.id = n.id
    · rw [hid, Function.update_self]
    · rw [Function.update_of_ne hid, hv]

/-- A value is handed on as it is. -/
theorem value_of_exit_handing (hc : n.inner? = some c) (h : (Lower.exit n).run u = .ok ((), u')) :
    ∃ v, u'.value n.id = some v ∧ u'.value c.id = some v := by
  unfold Node.inner? at hc
  unfold Lower.exit at h
  split at hc
  · rename_i hkind
    rw [hkind] at h
    obtain ⟨_, u₁, -, hrest⟩ := Lower.run_bind_eq_ok h
    exact value_of_handOn hc hrest
  · rename_i hkind
    rw [hkind] at h
    exact value_of_handOn hc h
  · rename_i hkind
    rw [hkind] at h
    exact value_of_handOn hc h
  · cases hc

/-- A token is no expression. -/
theorem isExpr_of_isTerm {p : Token → Bool} (h : n.isTerm p = true) : n.kind.isExpr = false := by
  unfold Node.isTerm at h
  split at h
  · rfl
  · cases h

/-- What hands a value on has one expression among its children. -/
theorem filter_isExpr_of_fits (hfits : Node.fits n.kind n.children = true)
    (hkind : n.kind = .cond ∨ n.kind = .arg ∨ n.kind = .paren) :
    ∃ c, n.inner? = some c ∧ n.children.filter (·.kind.isExpr) = [c] := by
  have hpresent {e : Node} (he : e.kind.isExpr = true) : e ≠ .absent := by
    rintro rfl
    cases he
  cases n with
  | absent => rcases hkind with hkind | hkind | hkind <;> cases hkind
  | mk id kind token children =>
    -- each of the three has one child that is an expression, next to tokens
    obtain hkind | hkind | hkind := hkind
    · obtain rfl : kind = .cond := hkind
      match children with
      | [e] =>
        have he : e.kind.isExpr = true := hfits
        exact ⟨e, Node.child?_eq_some.mpr ⟨rfl, hpresent he⟩, by simp [Node.children, he]⟩
      | [] | _ :: _ :: _ => cases hfits
    · obtain rfl : kind = .arg := hkind
      match children with
      | [e] =>
        have he : e.kind.isExpr = true := hfits
        exact ⟨e, Node.child?_eq_some.mpr ⟨rfl, hpresent he⟩, by simp [Node.children, he]⟩
      | [name, e] =>
        obtain ⟨hname, he⟩ := Bool.and_eq_true_iff.mp hfits
        exact ⟨e, Node.child?_eq_some.mpr ⟨rfl, hpresent he⟩,
          by simp [Node.children, he, isExpr_of_isTerm hname]⟩
      | [] | _ :: _ :: _ :: _ => cases hfits
    · obtain rfl : kind = .paren := hkind
      match children with
      | [opening, e, closing] =>
        obtain ⟨hrest, hclosing⟩ := Bool.and_eq_true_iff.mp hfits
        obtain ⟨hopening, he⟩ := Bool.and_eq_true_iff.mp hrest
        exact ⟨e, Node.child?_eq_some.mpr ⟨rfl, hpresent he⟩,
          by simp [Node.children, he, isExpr_of_isTerm hopening, isExpr_of_isTerm hclosing]⟩
      | [] | [_] | [_, _] | _ :: _ :: _ :: _ :: _ => cases hfits

end Exits

/-! ## The call that is a statement

The field is set as a call statement is entered, and compared with ids as calls are exited. That it
names the right call needs ids to be different, and none of them to be negative, as -1 stands for no
call. -/

section Calls

variable {root n : Node} {s t : Lowering}

/-- No call is known to be a statement, or one is that stands below a call statement. -/
def Marked (root : Node) (s : Lowering) : Prop :=
  s.stmtCall = -1 ∨ ∃ c, root.Discards c ∧ c ≠ .absent ∧ c.id = s.stmtCall

/-- A step keeps the mark one for the calls of a tree. -/
def KeepsMark (root : Node) (s s' : Lowering) : Prop := Marked root s → Marked root s'

instance : Rough (KeepsMark root) where
  refl _ := id
  trans h h' := h' ∘ h
  buffers _ _ := id
  fragments _ _ := id
  labels _ _ _ := id

/-- A step that leaves the field alone keeps the mark. -/
theorem SameCall.keepsMark {s s' : Lowering} (h : SameCall s s') : KeepsMark root s s' := by
  intro hmarked
  rw [Marked, h]
  exact hmarked

/-- Every step at a node of the tree keeps the mark. -/
theorem keepsMark_step (hn : n ∈ root.nodesOnto []) :
    Lower.Keeps (KeepsMark root) (Lower.enter n) ∧ Lower.Keeps (KeepsMark root) (Lower.exit n) := by
  -- only call statements touch the mark: they set it on entry, and take it back on exit
  by_cases hkind : n.kind = .callStmt
  · refine ⟨⟨@fun s a s' h _ => .inr ?_⟩, ⟨@fun s a s' h _ => .inl ?_⟩⟩
    · unfold Lower.enter at h
      rw [hkind] at h
      obtain ⟨_, s₁, -, h⟩ := Lower.run_bind_eq_ok h
      obtain ⟨call, hcall, h⟩ := Lower.of_bind_child h
      cases h
      obtain ⟨hchild, hpresent⟩ := Node.child?_eq_some.mp hcall
      exact ⟨call, ⟨n, hn, hkind, List.mem_of_getElem? hchild⟩, hpresent, rfl⟩
    · unfold Lower.exit at h
      rw [hkind] at h
      cases h
      rfl
  · obtain ⟨henter, hexit⟩ := Lower.keeps_call hkind
    exact ⟨⟨fun h => (henter.rel h).keepsMark⟩, ⟨fun h => (hexit.rel h).keepsMark⟩⟩

/-- Nodes of one tree with the same id are the same. -/
theorem eq_of_id_eq {m : Node} (hnodup : root.ids.Nodup) (hn : n ∈ root.nodesOnto [])
    (hm : m ∈ root.nodesOnto []) (hid : n.id = m.id) : n = m := by
  rw [← Node.map_id_nodesOnto] at hnodup
  exact List.inj_on_of_nodup_map hnodup hn hm hid

/-- A call is known to be a statement just where it is one. -/
theorem stmtCall_of_entered (hnodup : root.ids.Nodup) (hnonneg : ∀ i ∈ root.ids, 0 ≤ i)
    (hs : s.stmtCall = -1) (hentered : Entered [root] s n t) (hn : n ∈ root.nodesOnto [])
    (hcall : t.stmtCall = n.id) : root.Discards n := by
  have hmarked : Marked root t := by
    refine Lower.rel_of_entered (R := KeepsMark root) hentered (fun k hk => keepsMark_step ?_) (.inl hs)
    obtain ⟨r, hr, hmem⟩ := Node.mem_nodesOntoAll.mp hk
    rw [← List.mem_singleton.mp hr]
    exact hmem
  obtain hnone | ⟨c, hdiscards, hpresent, hid⟩ := hmarked
  · -- ids are counted from zero
    have := hnonneg n.id (by rw [← Node.map_id_nodesOnto]; exact List.mem_map_of_mem hn)
    omega
  · obtain ⟨p, hp, hkind, hc⟩ := hdiscards
    have hmem := Node.mem_nodes_child hp hc hpresent
    rw [eq_of_id_eq hnodup hn hmem (by rw [hid, hcall])]
    exact ⟨p, hp, hkind, hc⟩

/-- A call statement is entered with its call as the one whose result is not used. -/
theorem fits_callStmt (h : Fits n t) (hkind : n.kind = .callStmt) :
    ∃ id parts args, n = (Simple.call id parts args).node ∧ args.Indexed ∧
      Ready (Simple.call id parts args).node.ids t := by
  cases h with
  | @expr e =>
    have hexpr := e.kind_isExpr
    rw [hkind] at hexpr
    cases hexpr
  | @simple x t hindexed hready =>
    cases x with
    | call id parts args => exact ⟨id, parts, args, rfl, hindexed, hready⟩
    | assignment a => cases a <;> cases hkind
    | globalSet | require | target => cases hkind
  | unused => cases hkind
  | other hexpr hsimple =>
    rw [hkind] at hsimple
    cases hsimple

/-- The arguments of a call statement leave it known that its call is a statement. -/
theorem stmtCall_of_exited {s' u u' : Lowering} (hvisits : Visits root s s') (hnodup : root.ids.Nodup)
    (h : Exited [root] s n u u') (hdiscards : root.Discards n) : u.stmtCall = n.id := by
  obtain ⟨p, hp, hkind, hn⟩ := hdiscards
  obtain ⟨w, hw⟩ := exists_entered hvisits.run hp
  obtain ⟨id, parts, args, rfl, hindexed, hready⟩ := fits_callStmt (hvisits.fits p w hw) hkind
  obtain rfl := List.mem_singleton.mp hn
  have hcall : Ready (Expr.call parts args).node.ids w := hready.children.mem List.mem_cons_self
  obtain ⟨t, t₁, hentered, henter, hchildren, -⟩ := h
  have hinside : Entered [root] s (Expr.call parts args).node (w.calling parts.id) := by
    have hhere : Entered [(Expr.call parts args).node] (w.calling parts.id) (Expr.call parts args).node
        (w.calling parts.id) := .here
    exact hw.trans (.inside rfl hhere)
  rw [← idsAll_singleton] at hnodup
  obtain ⟨-, rfl⟩ := hentered.unique hnodup hinside nofun nofun rfl
  cases henter
  -- the walk of the arguments is the one that keeps the mark
  obtain ⟨w₁, hargs, hkept⟩ := visits_argsNode parts.args args hindexed hcall.calling
  have hwalk := (VisitsAll.cons (.leaf parts.callee.toLeaf _) (.cons hargs (.nil w₁))).run
  rw [show (Expr.call parts args).node.children = [parts.callee.node, _] from rfl, hwalk] at hchildren
  cases hchildren
  exact hkept.passage.stmtCall

end Calls

/-! ## The whole walk

Each node is exited once, so what its exit does to the table is what the table has for it in the end. -/

section Walks

variable {root n : Node} {s s' : Lowering}

/-- An expression whose result is used has a value in the end. -/
theorem exists_value_of_expr {t : Lowering} {e : Expr} (hnodup : root.ids.Nodup)
    (hwalk : (Lower.walk root).run s = .ok ((), s')) (hentered : Entered [root] s e.node t)
    (hindexed : e.Indexed) (hready : Ready e.node.ids t) :
    ∃ v, s'.value e.node.id = some v := by
  obtain ⟨t', hvisits, hcomputes⟩ := visits_expr e hindexed hready
  rw [← idsAll_singleton] at hnodup
  obtain ⟨t'', hrun, hvalue⟩ := hentered.exists_walk hnodup (walkAll_singleton hwalk)
  rw [hvisits.run] at hrun
  cases hrun
  rw [hvalue _ (e.node.id_mem_ids e.node_ne_absent), Expr.node_id]
  exact ⟨_, hcomputes.value⟩

/-- What a node hands on is known of it in the end. -/
theorem exists_value_of_handing {c : Node} (hnodup : root.ids.Nodup)
    (hwalk : (Lower.walk root).run s = .ok ((), s')) (hn : n ∈ root.nodesOnto [])
    (hc : n.inner? = some c) (hchild : c ∈ n.children) (hpresent : c ≠ .absent) :
    ∃ v, s'.value n.id = some v ∧ s'.value c.id = some v := by
  obtain ⟨u, u', hexited⟩ := exists_exited hnodup hwalk hn
  have ⟨_, _, _, _, _, hexit⟩ := hexited
  obtain ⟨v, hv, hcv⟩ := value_of_exit_handing hc hexit
  have hids : n.id ∈ n.ids ∧ c.id ∈ n.ids := by
    cases n with
    | absent => cases hchild
    | mk id kind token children =>
      exact ⟨List.mem_cons_self,
        List.mem_cons_of_mem _ ((Node.ids_sublist_idsAll hchild).subset (c.id_mem_ids hpresent))⟩
  refine ⟨v, ?_, ?_⟩
  · rw [hexited.value_eq hnodup hwalk _ hids.1, hv]
  · rw [hexited.value_eq hnodup hwalk _ hids.2, hcv]

/-- A node that is not valued has no value in the end. -/
theorem value_eq_none_of_not_valued (hvisits : Visits root s s') (hnodup : root.ids.Nodup)
    (hempty : ∀ i, s.value i = none) (hn : n ∈ root.nodesOnto []) (hunvalued : ¬root.Valued n) :
    s'.value n.id = none := by
  have hkind : n.kind.isValued = false := by
    rw [← Bool.not_eq_true]
    exact fun h => hunvalued ⟨hn, .inl h⟩
  have hpresent : n ≠ .absent := (Node.mem_nodes_iff.mp hn).1
  obtain ⟨u, u', hexited⟩ := exists_exited hnodup hvisits.run hn
  have ⟨_, _, _, _, _, hexit⟩ := hexited
  -- the exit leaves the table alone, for its kind or because the call is a statement
  have hkept : u'.value n.id = u.value n.id := by
    by_cases hcall : n.kind = .call
    · have hdiscards : root.Discards n := by
        by_contra hused
        exact hunvalued ⟨hn, .inr ⟨hcall, hused⟩⟩
      exact value_of_exit_discarded hcall (stmtCall_of_exited hvisits hnodup hexited hdiscards) hexit _
    · exact (keeps_value_exit_of_unvalued hkind hcall).rel hexit
  rw [hexited.value_eq hnodup hvisits.run _ (n.id_mem_ids hpresent), hkept,
    hexited.value_id_eq hnodup hpresent, hempty]

/-- The valued nodes of a tree are those that have a value in the end. -/
theorem isSome_value_iff (hvisits : Visits root s s') (hnodup : root.ids.Nodup)
    (hnonneg : ∀ i ∈ root.ids, 0 ≤ i) (hcall : s.stmtCall = -1)
    (hfits : ∀ n ∈ root.nodesOnto [], Node.fits n.kind n.children = true)
    (hempty : ∀ i, s.value i = none) (i : Int) :
    (s'.value i).isSome = true ↔ ∃ n, root.Valued n ∧ n.id = i := by
  -- a value comes from the exit of a node; conversely each valued node finds one as it is exited
  constructor
  · intro hsome
    by_cases hi : i ∈ root.ids
    · rw [← Node.map_id_nodesOnto] at hi
      obtain ⟨n, hn, rfl⟩ := List.mem_map.mp hi
      refine ⟨n, ?_, rfl⟩
      by_contra hunvalued
      rw [value_eq_none_of_not_valued hvisits hnodup hempty hn hunvalued] at hsome
      cases hsome
    · rw [value_of_walk hvisits.run hi, hempty] at hsome
      cases hsome
  · rintro ⟨n, ⟨hn, hvalued⟩, rfl⟩
    rw [Option.isSome_iff_exists]
    by_cases hhands : n.kind = .cond ∨ n.kind = .arg
    · obtain ⟨c, hc, hfilter⟩ := filter_isExpr_of_fits (hfits n hn) (hhands.imp_right .inl)
      have hchild : c ∈ n.children.filter (·.kind.isExpr) := by rw [hfilter]; exact List.mem_cons_self
      obtain ⟨v, hv, -⟩ := exists_value_of_handing hnodup hvisits.run hn hc
        (List.mem_filter.mp hchild).1 (by rintro rfl; cases (List.mem_filter.mp hchild).2)
      exact ⟨v, hv⟩
    · obtain ⟨t, hentered⟩ := exists_entered hvisits.run hn
      have hexpr : n.kind.isExpr = true := by
        obtain hvalued | ⟨hkind, -⟩ := hvalued
        · revert hvalued hhands
          cases n.kind <;> simp [Kind.isValued, Kind.isExpr]
        · rw [hkind]
          rfl
      cases hvisits.fits n t hentered with
      | expr hindexed hready => exact exists_value_of_expr hnodup hvisits.run hentered hindexed hready
      | @simple x =>
        rw [x.kind_isExpr] at hexpr
        cases hexpr
      | other hother =>
        rw [hother] at hexpr
        cases hexpr
      | unused hmark =>
        obtain hvalued | ⟨-, hused⟩ := hvalued
        · cases hvalued
        · exact absurd (stmtCall_of_entered hnodup hnonneg hcall hentered hn hmark) hused

end Walks

/-! ## Moments of a walk

A moment is a place in the list of events. Since exits have different nodes, the entry of a node
changes at its own exit only. -/

/-- The node that an event exits. -/
def Event.exited? : Event → Option Node
  | .exit n => some n
  | .enter _ | .missing => none

namespace Node

mutual

/-- The tour of a tree exits its nodes in the order of its exits. -/
theorem exited_tourOnto (k : Int) (acc : List Event) (n : Node) :
    (n.tourOnto acc).filterMap Event.exited? =
      (n.exitsFrom k).map (·.node) ++ acc.filterMap Event.exited? := by
  cases n with
  | absent => rfl
  | mk id kind token children =>
    rw [tourOnto, List.filterMap_cons_none rfl,
      exited_tourOntoAll (if kind.opensScope then id else k), exitsFrom, List.map_append,
      List.append_assoc]
    rfl

/-- The tour of some trees exits their nodes in the order of their exits. -/
theorem exited_tourOntoAll (k : Int) (acc : List Event) (ns : List Node) :
    (tourOntoAll acc ns).filterMap Event.exited? =
      (exitsFromAll k ns).map (·.node) ++ acc.filterMap Event.exited? := by
  cases ns with
  | nil => rfl
  | cons n ns =>
    rw [tourOntoAll, exited_tourOnto k, exited_tourOntoAll, exitsFromAll, List.map_append,
      List.append_assoc]

end

/-- A tour exits no two nodes with the same id. -/
theorem nodup_exited {root : Node} (hnodup : root.ids.Nodup) :
    ((root.tour.filterMap Event.exited?).map Node.id).Nodup := by
  rw [tour, exited_tourOnto root.id, List.filterMap_nil, List.append_nil,
    ((perm_exitsFrom root.id root).map Node.id).nodup_iff, map_id_nodesOnto]
  exact hnodup

end Node

section Moments

variable {root : Node} {s u s' : Lowering} {events rest : List Event} {i : Int}

/-- A step finds out the value of the node that it exits only. -/
theorem keeps_value_step {event : Event} (h : ∀ n, event.exited? = some n → n.id ≠ i) :
    Lower.Keeps (Same (Tables.value i)) (Lower.step event) := by
  cases event with
  | enter n => exact keeps_tables_enter n
  | exit n => exact keeps_value_exit (h n rfl)
  | missing => exact inferInstanceAs (Lower.Keeps _ (throw _ : Lower Unit))

/-- Steps that exit no node with an id leave its value alone. -/
theorem value_of_steps (hrun : (events.forM Lower.step).run s = .ok ((), u))
    (hi : i ∉ (events.filterMap Event.exited?).map Node.id) : u.value i = s.value i := by
  have : Lower.Keeps (Same (Tables.value i)) (events.forM Lower.step) := by
    refine Lower.keeps_events_of fun event hevent => keeps_value_step fun n hn hid => hi ?_
    rw [← hid]
    exact List.mem_map_of_mem (List.mem_filterMap.mpr ⟨event, hevent, hn⟩)
  exact this.rel hrun

/-- A value that is known behind some events of a tour is the value ever after. -/
theorem value_of_moment (hnodup : root.ids.Nodup) (htour : root.tour = events ++ rest)
    (hempty : ∀ i, s.value i = none) (hevents : (events.forM Lower.step).run s = .ok ((), u))
    (hrest : (rest.forM Lower.step).run u = .ok ((), s')) {v : Value} (hv : u.value i = some v) :
    s'.value i = some v := by
  have hexited := Node.nodup_exited hnodup
  rw [htour, List.filterMap_append, List.map_append, List.nodup_append] at hexited
  -- a value comes from an exit, so the node with that id is not exited again
  have hbefore : i ∈ (events.filterMap Event.exited?).map Node.id := by
    by_contra hnot
    rw [value_of_steps hevents hnot, hempty] at hv
    cases hv
  rw [value_of_steps hrest fun hafter => hexited.2.2 i hbefore i hafter rfl, hv]

end Moments

/-- The lowering of a parsed tree finds out a value for exactly its valued nodes: conditions, arguments
and all expressions but the calls that are statements. What hands a value on has that of the one
expression below it, and no value that is known at some moment of the walk is ever replaced. -/
theorem valuation_exact {src : Source} {root : Node} (hparse : parse src = .ok root)
    (label stdlib : String) :
    ∃ final, lower root label stdlib = .ok final ∧
      (∀ i, (final.value i).isSome = true ↔ ∃ n, root.Valued n ∧ n.id = i) ∧
      (∀ n ∈ root.nodesOnto [], n.kind = .cond ∨ n.kind = .arg ∨ n.kind = .paren →
        ∃ e, n.children.filter (·.kind.isExpr) = [e] ∧ final.value n.id = final.value e.id) ∧
      ∀ events rest, root.walk.events = events ++ rest →
        ∃ u, (events.forM Lower.step).run (.started label stdlib) = .ok ((), u) ∧
          ∀ i v, u.value i = some v → final.value i = some v := by
  obtain ⟨script, E, s, rfl, hvalid, hnodup, -, hlowers⟩ := exists_lowers hparse label stdlib
  obtain ⟨_, hscript, -, -, hnonneg⟩ := exists_script_of_parse hparse
  rw [← hscript] at hnonneg
  have hvisits := hlowers.visits
  -- every node of the tree has the children of its kind
  have hfits : ∀ n ∈ script.node.nodesOnto [], Node.fits n.kind n.children = true := by
    intro n hn
    obtain ⟨hpresent, path, hpath⟩ := Node.mem_nodes_iff.mp hn
    exact (script.sound hvalid hpresent hpath).1.fits
  have hempty : ∀ i, (Lowering.started label stdlib).value i = none := fun i => rfl
  have hdomain := isSome_value_iff hvisits hnodup hnonneg rfl hfits hempty
  refine ⟨_, lower_eq_of_walk hnodup hvisits.run, hdomain, fun n hn hkind => ?_,
    fun events rest hmoment => ?_⟩
  · obtain ⟨e, he, hfilter⟩ := filter_isExpr_of_fits (hfits n hn) hkind
    have hmem : e ∈ n.children.filter (·.kind.isExpr) := by rw [hfilter]; exact List.mem_cons_self
    obtain ⟨v, hv, hev⟩ := exists_value_of_handing hnodup hvisits.run hn he
      (List.mem_filter.mp hmem).1 (by rintro rfl; cases (List.mem_filter.mp hmem).2)
    exact ⟨e, hfilter, hv.trans hev.symm⟩
  · have htour : script.node.tour = events ++ rest := by
      rw [walk_eq_tour hnodup hvisits.run] at hmoment
      exact hmoment
    have hrun := hvisits.run
    rw [← Lower.forM_tour, htour] at hrun
    obtain ⟨u, hevents, hrest⟩ := run_forM_append hrun
    exact ⟨u, hevents, fun i v hv => value_of_moment hnodup htour hempty hevents hrest hv⟩

/-- A program with calls in the arguments of call statements, in a condition and in a function. -/
def calling : Source := .ofString "def f(a)
g(h(a), k: (1))
end
while f(2)
f a[f(-2)]
end
"

theorem valuation_exact_calling :
    ∃ root, parse calling = .ok root ∧ ∃ final, lower root "calling" defaultStdlib = .ok final ∧
      (∀ i, (final.value i).isSome = true ↔ ∃ n, root.Valued n ∧ n.id = i) ∧
      (∀ n ∈ root.nodesOnto [], n.kind = .cond ∨ n.kind = .arg ∨ n.kind = .paren →
        ∃ e, n.children.filter (·.kind.isExpr) = [e] ∧ final.value n.id = final.value e.id) ∧
      ∀ events rest, root.walk.events = events ++ rest →
        ∃ u, (events.forM Lower.step).run (.started "calling" defaultStdlib) = .ok ((), u) ∧
          ∀ i v, u.value i = some v → final.value i = some v := by
  have hok : (parse calling).isOk = true := by decide +kernel
  cases hparse : parse calling with
  | error e => rw [hparse] at hok; cases hok
  | ok root => exact ⟨root, rfl, valuation_exact hparse "calling" defaultStdlib⟩

end ScriptPir
