import ScriptPir.Proofs.Keeping
import ScriptPir.Proofs.Passage

/-!
# The exits of a walk

What a lowering finds out about a program it finds out where the walk exits a node. `Node.exits` lists
the nodes in that order, each with the subroutine that it is part of.

* `tables_of_walkAll` — what is read off the tables of a lowering is changed by the exits, one after the
  other;
* `value_of_walk` — a walk leaves the values of all nodes outside its tree alone;
* `Entered.exists_walk` — so what is known of a node when its walk ends is known of it ever after.
* `Tables` — what of a lowering is looked at: values, functions, libraries and errors;
* `Exited` — the walk exits a node between two states;
* `exists_exited` — a walk that succeeds exits every node of its tree, and once only if ids are
  different.
-/

namespace ScriptPir

/-! ## Exits

The list of exits is a recursion on the tree alone. It is a permutation of the nodes
(`perm_exitsFrom`), so each node is exited once; its order is that of the walk, children before
parents. -/

/-- The exit of a walk from a node, in the subroutine of the node with a given id. -/
structure Exit where
  sub : Int
  node : Node

mutual

/-- The exits of the walk of a tree that stands in a given subroutine. -/
def Node.exitsFrom (sub : Int) : Node → List Exit
  | .absent => []
  | .mk id kind token children =>
    Node.exitsFromAll (if kind.opensScope then id else sub) children ++
      [⟨if kind.opensScope then id else sub, .mk id kind token children⟩]

/-- The exits of the walks of some trees. -/
def Node.exitsFromAll (sub : Int) : List Node → List Exit
  | [] => []
  | n :: ns => n.exitsFrom sub ++ exitsFromAll sub ns

end

/-- The exits of the walk of a whole tree. -/
def Node.exits (root : Node) : List Exit := root.exitsFrom root.id

/-- The nodes of one subroutine, in the order of their exits. -/
def Node.exitedIn (root : Node) (sub : Int) : List Node :=
  (root.exits.filter (·.sub = sub)).map (·.node)

/-- The variable that a node defines: the target of a plain assignment, of an empty array or of a global
that is read. -/
def Node.defines? (n : Node) : Option String :=
  match n.kind with
  | .assign => if n.op?.any (·.text = "=") then (n.child? 0).map Node.text else none
  | .arrayInit | .globalGet => (n.child? 0).map Node.text
  | _ => none

/-- The names that are variables of a scope once a node of it was exited. -/
def Node.declares (n : Node) : List String :=
  if n.kind = .params then n.children.map Node.text else n.defines?.toList

namespace Node

mutual

/-- An exit belongs to the subroutine around the tree, or to one that starts in it. -/
theorem sub_of_mem_exitsFrom {k : Int} {n : Node} {e : Exit} (h : e ∈ n.exitsFrom k) :
    e.sub = k ∨ e.sub ∈ n.ids := by
  cases n with
  | absent => cases h
  | mk id kind token children =>
    rw [exitsFrom, List.mem_append, List.mem_singleton] at h
    have hown : (if kind.opensScope then id else k) = k ∨
        (if kind.opensScope then id else k) = id := by
      split
      · exact .inr rfl
      · exact .inl rfl
    -- the exits of the children come first, that of the node itself last
    rcases h with h | rfl
    · rcases sub_of_mem_exitsFromAll h with h | h
      · rcases hown with hk | hid
        · exact .inl (h.trans hk)
        · exact .inr (List.mem_cons.mpr (.inl (h.trans hid)))
      · exact .inr (List.mem_cons_of_mem _ h)
    · exact hown.imp_right fun hid => List.mem_cons.mpr (.inl hid)

/-- An exit of several trees belongs to the subroutine around them, or to one that starts in them. -/
theorem sub_of_mem_exitsFromAll {k : Int} {ns : List Node} {e : Exit} (h : e ∈ exitsFromAll k ns) :
    e.sub = k ∨ e.sub ∈ idsAll ns := by
  cases ns with
  | nil => cases h
  | cons n ns =>
    rw [exitsFromAll, List.mem_append] at h
    rcases h with h | h
    · exact (sub_of_mem_exitsFrom h).imp_right fun h => List.mem_append_left _ h
    · exact (sub_of_mem_exitsFromAll h).imp_right fun h => List.mem_append_right _ h

end

mutual

/-- Every node is exited once. -/
theorem perm_exitsFrom (k : Int) (n : Node) :
    ((n.exitsFrom k).map (·.node)).Perm (n.nodesOnto []) := by
  cases n with
  | absent => exact .refl _
  | mk id kind token children =>
    rw [exitsFrom, List.map_append, nodesOnto]
    exact (List.perm_append_singleton _ _).trans ((perm_exitsFromAll _ children).cons _)

/-- The exits of several trees are their nodes, in another order. -/
theorem perm_exitsFromAll (k : Int) (ns : List Node) :
    ((exitsFromAll k ns).map (·.node)).Perm (nodesOntoAll [] ns) := by
  cases ns with
  | nil => exact .refl _
  | cons n ns =>
    rw [exitsFromAll, List.map_append, nodesOntoAll, nodesOnto_eq_append]
    exact (perm_exitsFrom k n).append (perm_exitsFromAll k ns)

end

/-- The nodes of a tree are those that are exited. -/
theorem mem_exits {root m : Node} :
    m ∈ root.nodesOnto [] ↔ ∃ e ∈ root.exits, e.node = m := by
  rw [← (perm_exitsFrom root.id root).mem_iff, List.mem_map]
  rfl

end Node

/-- The walk of the trees `ns` from the state `s` exits the node `m` in the state `u`, and is in the
state `u'` then. -/
def Exited (ns : List Node) (s : Lowering) (m : Node) (u u' : Lowering) : Prop :=
  ∃ t t₁, Entered ns s m t ∧ (Lower.enter m).run t = .ok ((), t₁) ∧
    (Lower.walkAll m.children).run t₁ = .ok ((), u) ∧ (Lower.exit m).run u = .ok ((), u')

/-- A node that is entered is one of the tree. -/
theorem Entered.mem {ns : List Node} {s t : Lowering} {m : Node} (h : Entered ns s m t)
    (hm : m ≠ .absent) : m ∈ Node.nodesOntoAll [] ns := by
  rw [Node.mem_nodesOntoAll]
  induction h with
  | @here n ns s => exact ⟨n, List.mem_cons_self, Node.mem_nodes_iff.mpr ⟨hm, [], rfl⟩⟩
  | inside _ _ ih => exact ⟨_, List.mem_cons_self, Node.mem_nodes_mk.mpr (.inr (ih hm))⟩
  | after _ _ ih =>
    obtain ⟨c, hc, hmem⟩ := ih hm
    exact ⟨c, List.mem_cons_of_mem _ hc, hmem⟩

/-- A walk enters its node, walks the children and exits. -/
theorem Lower.exists_of_walk {id : Int} {kind : Kind} {token : Token} {children : List Node}
    {s s' : Lowering} (h : (Lower.walk (.mk id kind token children)).run s = .ok ((), s')) :
    ∃ s₁ s₂, (Lower.enter (.mk id kind token children)).run s = .ok ((), s₁) ∧
      (Lower.walkAll children).run s₁ = .ok ((), s₂) ∧
      (Lower.exit (.mk id kind token children)).run s₂ = .ok ((), s') := by
  rw [Lower.walk] at h
  obtain ⟨_, s₁, henter, hrest⟩ := Lower.run_bind_eq_ok h
  obtain ⟨_, s₂, hchildren, hexit⟩ := Lower.run_bind_eq_ok hrest
  exact ⟨s₁, s₂, henter, hchildren, hexit⟩

/-- Trees are walked one after the other. -/
theorem Lower.exists_of_walkAll {n : Node} {ns : List Node} {s s' : Lowering}
    (h : (Lower.walkAll (n :: ns)).run s = .ok ((), s')) :
    ∃ s₁, (Lower.walk n).run s = .ok ((), s₁) ∧ (Lower.walkAll ns).run s₁ = .ok ((), s') := by
  rw [Lower.walkAll] at h
  obtain ⟨_, s₁, hfirst, hrest⟩ := Lower.run_bind_eq_ok h
  exact ⟨s₁, hfirst, hrest⟩

/-! ## Steps that succeeded

Each rule takes one step off a run that is known to have succeeded: what the step asked for was
there. They are used instead of unfolding an exit, of which there are more than twenty. -/

namespace Lower

variable {α : Type} {n : Node} {s s' : Lowering} {r : α × Lowering}

/-- A child that was asked for is there. -/
theorem of_bind_child {i : Nat} {f : Node → Lower α} (h : (child n i >>= f).run s = .ok r) :
    ∃ c, n.child? i = some c ∧ (f c).run s = .ok r := by
  unfold child at h
  split at h
  · exact ⟨_, ‹_›, h⟩
  · cases h

/-- An operator that was asked for is there. -/
theorem of_bind_operator {f : Node → Lower α} (h : (operator n >>= f).run s = .ok r) :
    ∃ op, n.op? = some op ∧ (f op).run s = .ok r := by
  unfold operator at h
  split at h
  · exact ⟨_, ‹_›, h⟩
  · cases h

/-- The value of a node that was asked for is known. -/
theorem of_bind_valueOf {f : Value → Lower α} (h : (valueOf n >>= f).run s = .ok r) :
    ∃ v, s.value n.id = some v ∧ (f v).run s = .ok r := by
  obtain ⟨v, s₁, hvalue, hrest⟩ := run_bind_eq_ok h
  obtain ⟨_, _, hget, hvalue⟩ := run_bind_eq_ok hvalue
  cases hget
  split at hvalue
  · rename_i hv
    cases hvalue
    exact ⟨_, hv, hrest⟩
  · cases hvalue

/-- A scope that was asked for is open. -/
theorem of_bind_topScope {f : Scope → Lower α} (h : (topScope >>= f).run s = .ok r) :
    ∃ scope below, s.scopes.stack = scope :: below ∧ (f scope).run s = .ok r := by
  obtain ⟨scope, s₁, htop, hrest⟩ := run_bind_eq_ok h
  obtain ⟨_, _, hget, htop⟩ := run_bind_eq_ok htop
  cases hget
  unfold Scopes.top at htop
  split at htop
  · rename_i hstack
    cases htop
    exact ⟨_, _, hstack, hrest⟩
  · cases htop

/-- A name is declared in the innermost scope, and it is found out whether it was known. -/
theorem exists_of_run_declareName {name : String} {known : Bool}
    (h : (declareName name).run s = .ok (known, s')) :
    ∃ scope below, s.scopes.stack = scope :: below ∧ known = scope.declared name ∧
      s' = { s with scopes := ⟨scope.declare name :: below⟩ } := by
  obtain ⟨scope, below, hstack, -⟩ := of_bind_topScope h
  rw [run_declareName name hstack] at h
  cases h
  exact ⟨scope, below, hstack, rfl, rfl⟩

/-- A scope that is closed was open. -/
theorem exists_of_run_popScope (h : popScope.run s = .ok ((), s')) :
    ∃ scope below, s.scopes.stack = scope :: below ∧ s' = { s with scopes := ⟨below⟩ } := by
  obtain ⟨⟨top, scopes⟩, hpop, h⟩ := run_get_check h
  unfold Scopes.pop at hpop
  split at hpop
  · rename_i hstack
    cases hpop
    cases h
    exact ⟨_, _, hstack, rfl⟩
  · cases hpop

end Lower

/-! ## Tables

`Same f` is a frame rule: what `f` reads off the tables is left alone. It holds of all steps that
write to other parts of the state, which the instance for `Unscoped` says once for any `f`. -/

/-- What a lowering knows of nodes, functions and libraries. -/
structure Tables where
  stdlib : String
  values : Std.TreeMap Int Value compare
  functions : Functions Fragment
  requires : Array String

/-- The tables of a state. -/
def Lowering.tables (s : Lowering) : Tables := ⟨s.stdlib, s.values, s.functions, s.requires⟩

/-- Something that is read off the tables is the same in two states. -/
def Same {α : Type} (f : Tables → α) (s s' : Lowering) : Prop := f s'.tables = f s.tables

section Tables

variable {α : Type} {f : Tables → α}

instance : Unscoped (Same f) where
  refl _ := rfl
  trans h h' := Eq.trans h' h
  buffers _ _ := rfl
  fragments _ _ := rfl
  labels _ _ _ := rfl
  registers _ := rfl
  notices _ _ := rfl
  stmtCall _ _ := rfl
  scopes _ _ := rfl
  errors _ _ _ := rfl
  program _ _ := rfl

instance : Lower.Keeps (Same f) Lower.resetRegisters := ⟨fun h => by cases h; rfl⟩

theorem keeps_tables_enter (m : Node) : Lower.Keeps (Same f) (Lower.enter m) :=
  Lower.keeps_enter fun _ => inferInstance

mutual

/-- What is read off the tables is changed by the exits of a walk only, one after the other. -/
theorem tables_of_walk {g : α → Node → α} {n : Node} {s s' : Lowering}
    (hexit : ∀ m u u', Exited [n] s m u u' → f u'.tables = g (f u.tables) m)
    (h : (Lower.walk n).run s = .ok ((), s')) (k : Int) :
    f s'.tables = ((n.exitsFrom k).map (·.node)).foldl g (f s.tables) := by
  cases n with
  | absent =>
    rw [Lower.walk] at h
    cases h
  | mk id kind token children =>
    obtain ⟨s₁, s₂, henter, hchildren, hleave⟩ := Lower.exists_of_walk h
    have hbelow : ∀ m u u', Exited children s₁ m u u' → f u'.tables = g (f u.tables) m := by
      rintro m u u' ⟨t, t₁, hentered, hrest⟩
      exact hexit m u u' ⟨t, t₁, .inside henter hentered, hrest⟩
    have hopened : f s₁.tables = f s.tables := (keeps_tables_enter _).rel henter
    rw [Node.exitsFrom, List.map_append, List.foldl_append, ← hopened,
      ← tables_of_walkAll hbelow hchildren]
    exact hexit _ _ _ ⟨s, s₁, .here, henter, hchildren, hleave⟩

/-- The walk of several trees changes the tables exit by exit. -/
theorem tables_of_walkAll {g : α → Node → α} {ns : List Node} {s s' : Lowering}
    (hexit : ∀ m u u', Exited ns s m u u' → f u'.tables = g (f u.tables) m)
    (h : (Lower.walkAll ns).run s = .ok ((), s')) (k : Int) :
    f s'.tables = ((Node.exitsFromAll k ns).map (·.node)).foldl g (f s.tables) := by
  cases ns with
  | nil =>
    rw [Lower.walkAll] at h
    cases h
    rfl
  | cons n ns =>
    -- an exit of the first tree comes before those of the others, which start where it ends
    obtain ⟨s₁, hfirst, hrest⟩ := Lower.exists_of_walkAll h
    have hhere : ∀ m u u', Exited [n] s m u u' → f u'.tables = g (f u.tables) m := by
      rintro m u u' ⟨t, t₁, hentered, hm⟩
      exact hexit m u u' ⟨t, t₁, Entered.trans .here hentered, hm⟩
    have hlater : ∀ m u u', Exited ns s₁ m u u' → f u'.tables = g (f u.tables) m := by
      rintro m u u' ⟨t, t₁, hentered, hm⟩
      exact hexit m u u' ⟨t, t₁, .after hfirst hentered, hm⟩
    rw [Node.exitsFromAll, List.map_append, List.foldl_append, ← tables_of_walk hhere hfirst k]
    exact tables_of_walkAll hlater hrest k

end

end Tables

/-! ## Values

Values are looked up by id. An exit enters a value for its own node only, so with unique ids a value
that was entered once stays. -/

/-- The value of a node, as it is read off the tables. -/
def Tables.value (i : Int) (T : Tables) : Option Value := T.values[i]?

section Values

variable {i : Int}

/-- To enter a value for one node leaves those of the others alone. -/
theorem keeps_setValue {m : Node} (h : m.id ≠ i) (v : Value) :
    Lower.Keeps (Same (Tables.value i)) (Lower.setValue m v) := by
  refine ⟨@fun s _ s' hrun => ?_⟩
  cases hrun
  show { s with values := s.values.insert m.id v }.value i = s.value i
  rw [value_insert, Function.update_of_ne (Ne.symm h)]

instance (callee : String) : Lower.Keeps (Same (Tables.value i)) (Lower.noteCall callee) :=
  ⟨fun h => by cases h; rfl⟩

instance (r : FunctionRecord Fragment) :
    Lower.Keeps (Same (Tables.value i)) (Lower.storeFunction r) :=
  ⟨fun h => by cases h; rfl⟩

instance (name : String) : Lower.Keeps (Same (Tables.value i)) (Lower.noteLibrary name) := by
  refine ⟨@fun s _ s' h => ?_⟩
  cases h
  show Tables.value i (Lowering.tables (if s.requires.contains name then s else _)) = _
  split <;> rfl

/-- An exit finds out the value of its own node only. -/
theorem keeps_value_exit {m : Node} (h : m.id ≠ i) :
    Lower.Keeps (Same (Tables.value i)) (Lower.exit m) := by
  have := keeps_setValue h
  exact Lower.keeps_exit_of (fun _ => inferInstance) (fun _ _ => inferInstance)
    fun _ _ => inferInstance

theorem value_of_enter {m : Node} {s s' : Lowering} (h : (Lower.enter m).run s = .ok ((), s')) (i : Int) :
    s'.value i = s.value i :=
  (keeps_tables_enter (f := Tables.value i) m).rel h

theorem value_of_exit {m : Node} {s s' : Lowering} (h : (Lower.exit m).run s = .ok ((), s'))
    (hi : i ≠ m.id) : s'.value i = s.value i :=
  (keeps_value_exit hi.symm).rel h

/-- A walk changes no value outside its tree. -/
theorem value_of_walk {n : Node} {s s' : Lowering} (h : (Lower.walk n).run s = .ok ((), s'))
    (hi : i ∉ n.ids) : s'.value i = s.value i := by
  have : Lower.Keeps (Same (Tables.value i)) (Lower.walk n) := by
    apply Lower.keeps_walk_of
    intro m hm
    refine ⟨keeps_tables_enter m, keeps_value_exit ?_⟩
    rintro rfl
    apply hi
    rw [← Node.map_id_nodesOnto]
    exact List.mem_map_of_mem hm
  exact this.rel h

/-- The walk of several trees changes no value outside them. -/
theorem value_of_walkAll {ns : List Node} {s s' : Lowering}
    (h : (Lower.walkAll ns).run s = .ok ((), s')) (hi : i ∉ Node.idsAll ns) :
    s'.value i = s.value i := by
  induction ns generalizing s with
  | nil =>
    rw [Lower.walkAll] at h
    cases h
    rfl
  | cons n ns ih =>
    rw [Node.idsAll, List.mem_append, not_or] at hi
    obtain ⟨s₁, hfirst, hrest⟩ := Lower.exists_of_walkAll h
    rw [ih hrest hi.2, value_of_walk hfirst hi.1]

/-- The ids of a node that is entered are among those of the trees. -/
theorem Entered.ids_subset {ns : List Node} {m : Node} {s t : Lowering} (h : Entered ns s m t) :
    m.ids ⊆ Node.idsAll ns := by
  induction h with
  | here => exact List.subset_append_left _ _
  | inside _ _ ih =>
    intro i hi
    exact List.mem_append_left _ (List.mem_cons_of_mem _ (ih hi))
  | after _ _ ih =>
    intro i hi
    exact List.mem_append_right _ (ih hi)

/-- They are unique, if those of the trees are. -/
theorem Entered.ids_nodup {ns : List Node} {m : Node} {s t : Lowering} (h : Entered ns s m t)
    (hnodup : (Node.idsAll ns).Nodup) : m.ids.Nodup := by
  induction h with
  | here => exact (List.nodup_append.mp hnodup).1
  | inside _ _ ih => exact ih (List.nodup_cons.mp (List.nodup_append.mp hnodup).1).2
  | after _ _ ih => exact ih (List.nodup_append.mp hnodup).2.1

/-- What is known of a tree when its node is entered was known when the walk started. -/
theorem Entered.value_eq {ns : List Node} {m : Node} {s t : Lowering} (h : Entered ns s m t)
    (hnodup : (Node.idsAll ns).Nodup) : ∀ i ∈ m.ids, t.value i = s.value i := by
  induction h with
  | here => exact fun _ _ => rfl
  | inside henter h ih =>
    rw [Node.idsAll, List.nodup_append] at hnodup
    intro i hi
    rw [ih (List.nodup_cons.mp hnodup.1).2 i hi]
    exact value_of_enter henter i
  | after hn h ih =>
    rw [Node.idsAll, List.nodup_append] at hnodup
    intro i hi
    rw [ih hnodup.2.1 i hi]
    exact value_of_walk hn fun hmem => hnodup.2.2 i hmem i (h.ids_subset hi) rfl

/-- A node that is entered is walked to its end, and what is known then of the nodes in its tree is not
changed any more. -/
theorem Entered.exists_walk {ns : List Node} {m : Node} {s s' t : Lowering} (h : Entered ns s m t)
    (hnodup : (Node.idsAll ns).Nodup) (hwalk : (Lower.walkAll ns).run s = .ok ((), s')) :
    ∃ t', (Lower.walk m).run t = .ok ((), t') ∧ ∀ i ∈ m.ids, s'.value i = t'.value i := by
  induction h generalizing s' with
  | @here n ns s =>
    rw [Node.idsAll, List.nodup_append] at hnodup
    obtain ⟨s₁, hfirst, hrest⟩ := Lower.exists_of_walkAll hwalk
    refine ⟨s₁, hfirst, fun i hi => value_of_walkAll hrest fun hlater => ?_⟩
    exact hnodup.2.2 i hi i hlater rfl
  | @inside id kind token children ns m s s₁ t henter h ih =>
    rw [Node.idsAll, List.nodup_append] at hnodup
    obtain ⟨hown, -, hdisjoint⟩ := hnodup
    obtain ⟨hid, hbelow⟩ := List.nodup_cons.mp hown
    obtain ⟨s₂, hfirst, hrest⟩ := Lower.exists_of_walkAll hwalk
    obtain ⟨s₁', s₃, henter', hchildren, hexit⟩ := Lower.exists_of_walk hfirst
    rw [henter] at henter'
    cases henter'
    obtain ⟨t', hm, hvalue⟩ := ih hbelow hchildren
    refine ⟨t', hm, fun i hi => ?_⟩
    -- neither the exit of the node around it nor what follows is about a node below
    have hmem : i ∈ Node.idsAll children := h.ids_subset hi
    have hother : i ≠ id := fun heq => hid (heq ▸ hmem)
    rw [value_of_walkAll hrest fun hlater => hdisjoint i (List.mem_cons_of_mem _ hmem) i hlater rfl,
      value_of_exit hexit hother, hvalue i hi]
  | @after n m ns s s₁ t hn h ih =>
    rw [Node.idsAll, List.nodup_append] at hnodup
    obtain ⟨s₁', hfirst, hrest⟩ := Lower.exists_of_walkAll hwalk
    rw [hn] at hfirst
    cases hfirst
    exact ih hnodup.2.1 hrest

/-- One tree is walked like a list of one. -/
theorem walkAll_singleton {n : Node} {s s' : Lowering} (h : (Lower.walk n).run s = .ok ((), s')) :
    (Lower.walkAll [n]).run s = .ok ((), s') := by
  rw [Lower.walkAll, Lower.run_bind_of_ok h, Lower.walkAll]
  rfl

/-- The ids of a list of one tree are those of the tree. -/
theorem idsAll_singleton (n : Node) : Node.idsAll [n] = n.ids := by
  rw [Node.idsAll, Node.idsAll, List.append_nil]

/-- A walk that succeeds exits every node of its tree. -/
theorem exists_exited {root m : Node} {s s' : Lowering} (hnodup : root.ids.Nodup)
    (hwalk : (Lower.walk root).run s = .ok ((), s')) (hm : m ∈ root.nodesOnto []) :
    ∃ u u', Exited [root] s m u u' := by
  obtain ⟨t, hentered⟩ := exists_entered hwalk hm
  rw [← idsAll_singleton] at hnodup
  obtain ⟨t', hrun, -⟩ := hentered.exists_walk hnodup (walkAll_singleton hwalk)
  cases m with
  | absent =>
    rw [Lower.walk] at hrun
    cases hrun
  | mk id kind token children =>
    obtain ⟨t₁, u, henter, hchildren, hexit⟩ := Lower.exists_of_walk hrun
    exact ⟨u, t', t, t₁, hentered, henter, hchildren, hexit⟩

/-- What is known in a tree when its node is exited is known of it in the end. -/
theorem Exited.value_eq {root m : Node} {s s' u u' : Lowering} (h : Exited [root] s m u u')
    (hnodup : root.ids.Nodup) (hwalk : (Lower.walk root).run s = .ok ((), s')) :
    ∀ i ∈ m.ids, s'.value i = u'.value i := by
  obtain ⟨t, t₁, hentered, henter, hchildren, hexit⟩ := h
  rw [← idsAll_singleton] at hnodup
  obtain ⟨t', hrun, hvalue⟩ := hentered.exists_walk hnodup (walkAll_singleton hwalk)
  cases m with
  | absent => nofun
  | mk id kind token children =>
    have hbelow : (Lower.walkAll children).run t₁ = .ok ((), u) := hchildren
    rw [Lower.walk, Lower.run_bind_of_ok henter, Lower.run_bind_of_ok hbelow, hexit] at hrun
    cases hrun
    exact hvalue

/-- Nothing is found out about a node before it is exited. -/
theorem Exited.value_id_eq {root m : Node} {s u u' : Lowering} (h : Exited [root] s m u u')
    (hnodup : root.ids.Nodup) (hm : m ≠ .absent) : u.value m.id = s.value m.id := by
  obtain ⟨t, t₁, hentered, henter, hchildren, -⟩ := h
  rw [← idsAll_singleton] at hnodup
  have hbefore : t.value m.id = s.value m.id := hentered.value_eq hnodup _ (m.id_mem_ids hm)
  rw [← hbefore, ← value_of_enter henter]
  refine value_of_walkAll hchildren fun hbelow => ?_
  -- the node would be below itself
  have hown : m.ids.Nodup := hentered.ids_nodup hnodup
  cases m with
  | absent => exact hm rfl
  | mk id kind token children => exact (List.nodup_cons.mp hown).1 hbelow

/-- Trees with different ids are left at each node in one state only. -/
theorem Exited.unique {ns : List Node} {m : Node} {s u u' v v' : Lowering}
    (hnodup : (Node.idsAll ns).Nodup) (h : Exited ns s m u u') (h' : Exited ns s m v v')
    (hm : m ≠ .absent) : u = v := by
  obtain ⟨t, t₁, hentered, henter, hchildren, -⟩ := h
  obtain ⟨w, w₁, hentered', henter', hchildren', -⟩ := h'
  obtain ⟨-, rfl⟩ := hentered.unique hnodup hentered' hm hm rfl
  rw [henter] at henter'
  cases henter'
  rw [hchildren] at hchildren'
  cases hchildren'
  rfl

end Values

end ScriptPir
