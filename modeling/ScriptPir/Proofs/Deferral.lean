import Mathlib.Data.List.Induction
import ScriptPir.Proofs.Exits
import ScriptPir.Proofs.ScriptLowering
import ScriptPir.Proofs.TargetText

/-!
# Which functions are written out

Functions are collected while the tree is walked and written out behind the main part. For any definitions
and calls, in any order, `Deferred` says what comes of them: the functions called, in the order of
the first calls, each as it was defined last.

What a walk does to its functions is a sequence of such operations, one for each call and each definition
that it exits (`functions_of_walk`). So the output of a program can be read off its tree:

* `deferred_emission_exact` — which libraries and functions the output has, and in which order;
* `sub_names_nodup_iff` — the names of the subroutines are all different, unless the program defines a
  function called `main` and calls it.
-/

namespace ScriptPir

/-! ## Definitions and calls

The table of functions is treated as a machine on its own, whose operations are definitions and
calls. Two readings of it, the calls (`calls_run`) and the last definitions (`lookup?_run`), are both
by induction on the operations from their end, and `Deferred` follows from them alone. -/

namespace Functions

variable {τ : Type}

/-- A definition or a call. -/
inductive Op (τ : Type) where
  | define (r : FunctionRecord τ)
  | call (name : String)

/-- The function that is defined. -/
def Op.record? : Op τ → Option (FunctionRecord τ)
  | define r => some r
  | call _ => none

/-- The function that is called. -/
def Op.callee? : Op τ → Option String
  | define _ => none
  | call name => some name

/-- What an operation does to the functions. -/
def apply (f : Functions τ) : Op τ → Functions τ
  | .define r => f.define r
  | .call name => f.call name

/-- The functions after some operations. -/
def run (ops : List (Op τ)) : Functions τ := ops.foldl apply {}

/-- The names called by some operations, in order. -/
def callees (ops : List (Op τ)) : List String := ops.filterMap Op.callee?

/-- The last definition of a name. -/
def lastDefinition? (ops : List (Op τ)) (name : String) : Option (FunctionRecord τ) :=
  (ops.filterMap Op.record?).reverse.find? (·.name = name)

/-- What is written out after some operations: the functions called, in the order of the first calls, each
as it was defined last. So each function that is both defined and called is there once, and no other. -/
structure Deferred (ops : List (Op τ)) (emitted : List (FunctionRecord τ)) : Prop where
  order : emitted = (callees ops).eraseDups.filterMap (lastDefinition? ops)
  once : ∀ name ∈ callees ops, ∀ r, .define r ∈ ops → r.name = name →
    (emitted.map (·.name)).count name = 1
  needed : ∀ r ∈ emitted, .define r ∈ ops ∧ r.name ∈ callees ops

/-- One more operation is applied to what the others gave. -/
theorem run_append (ops : List (Op τ)) (op : Op τ) : run (ops ++ [op]) = (run ops).apply op := by
  rw [run, List.foldl_append]
  rfl

/-- All calls are kept, in order. -/
theorem calls_run (ops : List (Op τ)) : (run ops).calls.toList = callees ops := by
  induction ops using List.reverseRecOn with
  | nil => rfl
  | append_singleton ops op ih =>
    rw [run_append, callees, List.filterMap_append, ← callees, ← ih]
    cases op with
    | call name => simp [apply, call, Op.callee?]
    | define r =>
      rw [apply, define]
      split <;> simp [Op.callee?]

/-- A name is looked up as it was defined last. -/
theorem lookup?_run (ops : List (Op τ)) (name : String) :
    (run ops).lookup? name = lastDefinition? ops name := by
  induction ops using List.reverseRecOn with
  | nil => rfl
  | append_singleton ops op ih =>
    rw [run_append]
    cases op with
    | call callee =>
      rw [apply, show ((run ops).call callee).lookup? name = _ from ih]
      simp [lastDefinition?, List.filterMap_cons, Op.record?]
    | define r =>
      -- a definition in the last place counts for its own name and for no other one
      have hlast : lastDefinition? (ops ++ [.define r]) name =
          if r.name = name then some r else lastDefinition? ops name := by
        simp [lastDefinition?, Op.record?, List.find?_cons]
        split <;> simp_all
      rw [apply, hlast]
      split
      · rename_i hname
        rw [← hname, lookup?_define]
      · rename_i hname
        rw [lookup?_define_of_ne _ _ (Ne.symm hname), ih]

/-- What is written out is found by looking up each name that was called, once. -/
theorem emitted_run (ops : List (Op τ)) :
    (run ops).emitted = (callees ops).eraseDups.filterMap (lastDefinition? ops) := by
  rw [emitted, calls_run, funext (lookup?_run ops)]

/-- A name that is defined has a last definition. -/
theorem lastDefinition?_isSome {ops : List (Op τ)} {r : FunctionRecord τ} (h : .define r ∈ ops) :
    (lastDefinition? ops r.name).isSome = true := by
  rw [lastDefinition?, List.find?_isSome]
  refine ⟨r, ?_, by simp⟩
  rw [List.mem_reverse, List.mem_filterMap]
  exact ⟨_, h, rfl⟩

/-- The last definition of a name is one of the definitions, and of that name. -/
theorem mem_of_lastDefinition? {ops : List (Op τ)} {name : String} {r : FunctionRecord τ}
    (h : lastDefinition? ops name = some r) : .define r ∈ ops ∧ r.name = name := by
  have hmem := List.mem_of_find?_eq_some h
  rw [List.mem_reverse, List.mem_filterMap] at hmem
  obtain ⟨op, hop, hrecord⟩ := hmem
  cases op with
  | call => cases hrecord
  | define r' =>
    cases hrecord
    exact ⟨hop, by simpa using List.find?_some h⟩

/-- Whatever the operations are, the functions that are written out are as `Deferred` says. -/
theorem deferred_run (ops : List (Op τ)) : Deferred ops (run ops).emitted := by
  refine ⟨emitted_run ops, fun name hcalled r hdefined hname => ?_, fun r hr => ?_⟩
  · obtain ⟨last, hlast⟩ := Option.isSome_iff_exists.mp (lastDefinition?_isSome hdefined)
    have hmem : name ∈ (run ops).emitted.map (·.name) := by
      rw [emitted_run, List.mem_map]
      refine ⟨last, List.mem_filterMap.mpr ⟨name, List.mem_eraseDups.mpr hcalled, ?_⟩, ?_⟩
      · rw [← hname, hlast]
      · rw [(mem_of_lastDefinition? hlast).2, hname]
    exact List.count_eq_one_of_mem (nodup_emitted _) hmem
  · rw [emitted_run, List.mem_filterMap] at hr
    obtain ⟨name, hcalled, hlast⟩ := hr
    obtain ⟨hdefined, hname⟩ := mem_of_lastDefinition? hlast
    rw [List.mem_eraseDups, ← hname] at hcalled
    exact ⟨hdefined, hcalled⟩

end Functions

/-! ## What an exit does to functions and libraries

Only two productions touch the table of functions, and only one touches the list of libraries. For
each table there is one statement about all exits (`functions_of_exit`, `libraries_of_exit`), in
which the other productions are covered by the frame rules `Keeps`. -/

/-- The record of a function in a state that has the fragments of its parameters and its body. -/
def Node.recordIn (m : Node) (u : Lowering) : Option (FunctionRecord Fragment) := do
  let name ← m.child? 0
  let params ← u.fragment (← m.child? 1).id
  let body ← u.fragment (← m.child? 2).id
  return ⟨name.text, params ++ body, m.line⟩

/-- What the exit of a node does to the functions, given the records of the definitions. -/
def Node.functionOp? (record : Node → FunctionRecord Fragment) (n : Node) :
    Option (Functions.Op Fragment) :=
  match n.kind with
  | .call => (n.child? 0).map fun callee => .call callee.text
  | .funcDef => some (.define (record n))
  | _ => none

/-- The path of the library that a node includes. -/
def Node.library? (n : Node) : Option String :=
  match n.kind with
  | .require => (n.child? 0).bind fun leaf => (literal leaf.token).toOption.map fun v =>
      if v.text.endsWith ".pir" then v.text else v.text ++ ".pir"
  | _ => none

/-- A name behind a list of names, if it is new. -/
def noted (names : List String) (name : String) : List String :=
  if name ∈ names then names else names ++ [name]

/-- To note names one by one is to leave out what was there before. -/
theorem foldl_noted (names : List String) : names.foldl noted [] = names.eraseDups := by
  induction names using List.reverseRecOn with
  | nil => rfl
  | append_singleton names name ih =>
    rw [List.foldl_append, ih, List.eraseDups_append]
    by_cases h : name ∈ names
    · simp [noted, List.removeAll, h]
    · simp [noted, List.removeAll, h, List.eraseDups_cons]

/-- A fold over what is picked from a list is a fold over the list. -/
theorem foldl_filterMap_elim {α β γ : Type} (f : α → Option β) (g : γ → β → γ) (as : List α)
    (init : γ) : (as.filterMap f).foldl g init = as.foldl (fun c a => (f a).elim c (g c)) init := by
  rw [List.foldl_filterMap]
  congr 1
  funext c a
  cases f a <;> rfl

section Exits

open Lower

variable {m : Node} {s s' : Lowering}

instance (n : Node) (v : Value) : Keeps (Same Tables.functions) (setValue n v) :=
  ⟨fun h => by cases h; rfl⟩

instance (name : String) : Keeps (Same Tables.functions) (noteLibrary name) := by
  refine ⟨@fun s _ s' h => ?_⟩
  cases h
  show (Lowering.tables (if s.requires.contains name then s else _)).functions = _
  split <;> rfl

/-- A call is noted under the text of its callee. -/
theorem functions_of_exitCall (h : (exitCall m).run s = .ok ((), s')) :
    ∃ callee, m.child? 0 = some callee ∧ s'.functions = s.functions.call callee.text := by
  obtain ⟨callee, hcallee, h⟩ := of_bind_child h
  obtain ⟨args, -, h⟩ := of_bind_child h
  obtain ⟨code, s₁, htake, h⟩ := run_bind_eq_ok h
  obtain ⟨_, s₂, hsplice, h⟩ := run_bind_eq_ok h
  obtain ⟨_, s₃, hcall, h⟩ := run_bind_eq_ok h
  cases hcall
  have hbefore : Same Tables.functions s s₂ := Rough.trans (Keeps.rel htake) (Keeps.rel hsplice)
  have hafter : Same Tables.functions { s₂ with functions := s₂.functions.call callee.text } s' :=
    Keeps.rel h
  refine ⟨callee, hcallee, hafter.trans ?_⟩
  rw [← show s₂.functions = s.functions from hbefore]
  rfl

/-- A fragment that is taken was there, and is gone afterwards. -/
theorem exists_of_run_take {f : Fragment} (h : (take m).run s = .ok (f, s')) :
    s.fragment m.id = some f ∧ s' = { s with fragments := s.fragments.erase m.id } := by
  obtain ⟨_, _, hget, h⟩ := run_bind_eq_ok h
  cases hget
  split at h
  · rename_i hf
    cases h
    exact ⟨hf, rfl⟩
  · cases h

/-- A definition stores the fragments of its parameters and its body under its name. -/
theorem functions_of_exitFuncDef (h : (exitFuncDef m).run s = .ok ((), s')) :
    ∃ r, m.recordIn s = some r ∧ s'.functions = s.functions.define r := by
  obtain ⟨name, hname, h⟩ := of_bind_child h
  obtain ⟨paramsNode, hparamsNode, h⟩ := of_bind_child h
  obtain ⟨params, s₁, hparams, h⟩ := run_bind_eq_ok h
  obtain ⟨hparams, hs₁⟩ := exists_of_run_take hparams
  obtain ⟨bodyNode, hbodyNode, h⟩ := of_bind_child h
  obtain ⟨body, s₂, hbody, h⟩ := run_bind_eq_ok h
  obtain ⟨hbody, hs₂⟩ := exists_of_run_take hbody
  obtain ⟨_, s₃, hpop, h⟩ := run_bind_eq_ok h
  obtain ⟨scope, below, -, hs₃⟩ := exists_of_run_popScope hpop
  -- the fragment of the body is another than that of the parameters, which is gone
  have hkept : s.fragment bodyNode.id = some body := by
    rw [hs₁, fragment_erase] at hbody
    by_cases hid : bodyNode.id = paramsNode.id
    · rw [hid, Function.update_self] at hbody
      cases hbody
    · rwa [Function.update_of_ne hid] at hbody
  refine ⟨⟨name.text, params ++ body, m.line⟩, ?_, ?_⟩
  · simp [Node.recordIn, hname, hparamsNode, hparams, hbodyNode, hkept]
  · subst hs₁ hs₂ hs₃
    cases h
    rfl

/-- An exit applies the operation of its node to the functions, if it has one. -/
theorem functions_of_exit {record : Node → FunctionRecord Fragment}
    (h : (exit m).run s = .ok ((), s')) (hrecord : m.kind = .funcDef → m.recordIn s = some (record m)) :
    s'.functions = (m.functionOp? record).elim s.functions s.functions.apply := by
  by_cases hcall : m.kind = .call
  · unfold exit at h
    rw [hcall] at h
    obtain ⟨callee, hcallee, hfunctions⟩ := functions_of_exitCall h
    rw [hfunctions, show m.functionOp? record = some (.call callee.text) by
      simp [Node.functionOp?, hcall, hcallee]]
    rfl
  -- a definition stores the record that was given for it; all other kinds leave the table alone
  · by_cases hdefine : m.kind = .funcDef
    · unfold exit at h
      rw [hdefine] at h
      obtain ⟨r, hr, hfunctions⟩ := functions_of_exitFuncDef h
      rw [hrecord hdefine] at hr
      cases hr
      rw [hfunctions, show m.functionOp? record = some (.define (record m)) by
        simp [Node.functionOp?, hdefine]]
      rfl
    · have hnone : m.functionOp? record = none := by
        unfold Node.functionOp?
        cases hkind : m.kind <;> simp_all
      have : Keeps (Same Tables.functions) (exit m) :=
        keeps_exit_of (fun h => absurd h hdefine) (fun h => absurd h hcall)
          fun _ _ => inferInstance
      rw [hnone]
      exact this.rel h

/-- The libraries, as they are read off the tables. -/
def Tables.libraries (T : Tables) : List String := T.requires.toList

instance (n : Node) (v : Value) : Keeps (Same Tables.libraries) (setValue n v) :=
  ⟨fun h => by cases h; rfl⟩

instance (callee : String) : Keeps (Same Tables.libraries) (noteCall callee) :=
  ⟨fun h => by cases h; rfl⟩

instance (r : FunctionRecord Fragment) : Keeps (Same Tables.libraries) (storeFunction r) :=
  ⟨fun h => by cases h; rfl⟩

/-- An exit notes the library of its node, if it has one. -/
theorem libraries_of_exit (h : (exit m).run s = .ok ((), s')) :
    s'.tables.libraries = m.library?.elim s.tables.libraries (noted s.tables.libraries) := by
  by_cases hrequire : m.kind = .require
  · unfold exit at h
    rw [hrequire] at h
    obtain ⟨leaf, hleaf, h⟩ := of_bind_child h
    dsimp only at h
    split at h
    · cases h
    · rename_i v hv
      rw [show m.library? =
          some (if v.text.endsWith ".pir" then v.text else v.text ++ ".pir") by
        simp [Node.library?, hrequire, hleaf, hv, Except.toOption]]
      cases h
      show Array.toList (Lowering.requires (if s.requires.contains _ then s else _)) = _
      -- from here on, only whether the path is known already matters
      generalize (if v.text.endsWith ".pir" then v.text else v.text ++ ".pir") = name
      by_cases hknown : s.requires.contains name = true
      · rw [if_pos hknown]
        simp_all [noted, Tables.libraries, Lowering.tables]
      · rw [if_neg hknown]
        simp_all [noted, Tables.libraries, Lowering.tables]
  · have hnone : m.library? = none := by
      unfold Node.library?
      cases hkind : m.kind <;> simp_all
    have : Keeps (Same Tables.libraries) (exit m) :=
      keeps_exit_of (fun _ => inferInstance) (fun _ _ => inferInstance)
        fun h => absurd h hrequire
    rw [hnone]
    exact this.rel h

instance : Looser (Same Tables.stdlib) where
  values _ _ := rfl
  requires _ _ := rfl
  calls _ _ := rfl

instance (r : FunctionRecord Fragment) : Keeps (Same Tables.stdlib) (storeFunction r) :=
  ⟨fun h => by cases h; rfl⟩

/-- A program is assembled from the tables in which it is left. -/
theorem program_of_exit (hkind : m.kind = .program) (h : (exit m).run s = .ok ((), s')) :
    s'.tables = s.tables ∧ ∃ main, s'.program =
      some ⟨main, s.stdlib, s.requires.toList, s.functions.emitted⟩ := by
  unfold exit at h
  rw [hkind] at h
  obtain ⟨main, s₁, hmain, h⟩ := run_bind_eq_ok h
  obtain ⟨_, s₂, hpop, h⟩ := run_bind_eq_ok h
  obtain ⟨_, _, hget, h⟩ := run_bind_eq_ok h
  cases hget
  have hbefore : Same id s s₂ := Rough.trans (Keeps.rel hmain) (Keeps.rel hpop)
  dsimp only at h
  -- what is still open at the end is an error of the walk, so nothing is
  by_cases hdepth : s₂.buffers.depth ≠ 0
  · rw [if_pos hdepth] at h
    cases h
  rw [if_neg hdepth] at h
  by_cases hopen : s₂.labels.frames.length ≠ 0 ∨ s₂.labels.loops.length ≠ 0
  · rw [if_pos hopen] at h
    cases h
  rw [if_neg hopen] at h
  obtain ⟨_, s₃, hnotes, h⟩ := run_bind_eq_ok h
  have hnotes : Same id s₂ s₃ := Keeps.rel hnotes
  cases h
  have htables : s₂.tables = s.tables := hbefore
  refine ⟨(hnotes : s₃.tables = s₂.tables).trans htables, main, ?_⟩
  show some (Program.mk main s₂.tables.stdlib s₂.tables.requires.toList
    s₂.tables.functions.emitted) = _
  rw [htables]
  rfl

end Exits

/-! ## Programs

A walk exits every node once, in order, so what the exits do to a table is a fold over the exits of
the tree. The records of definitions depend on the walk; they are given as a function of the node,
which exists since ids are unique (`exists_recorded`). -/

/-- The definitions and calls of a tree, in the order of its exits. -/
def Node.functionOps (root : Node) (record : Node → FunctionRecord Fragment) :
    List (Functions.Op Fragment) :=
  root.exits.filterMap fun e => e.node.functionOp? record

/-- The libraries that a tree includes, in the order of their first mention. -/
def Node.libraries (root : Node) : List String :=
  (root.exits.filterMap fun e => e.node.library?).eraseDups

/-- Whether a function of some name is called anywhere in a tree. -/
def Node.calls (root : Node) (name : String) : Bool :=
  (root.nodesOnto []).any fun m => m.kind = .call && (m.child? 0).any (·.text = name)

/-- Whether a function of some name is defined in a tree. -/
def Node.definesFunction (root : Node) (name : String) : Bool :=
  (root.nodesOnto []).any fun m => m.kind = .funcDef && (m.child? 0).any (·.text = name)

/-- Every definition that a walk exits stores the record that is given for it. -/
def Recorded (root : Node) (s : Lowering) (record : Node → FunctionRecord Fragment) : Prop :=
  ∀ m u u', Exited [root] s m u u' → m.kind = .funcDef → m.recordIn u = some (record m)

section Programs

variable {root : Node} {s s' : Lowering}

open Classical in
/-- The record of a definition is determined by the walk. -/
theorem exists_recorded (hnodup : root.ids.Nodup) (s : Lowering) :
    ∃ record, Recorded root s record := by
  let record : Node → FunctionRecord Fragment := fun m =>
    if h : ∃ r u u', Exited [root] s m u u' ∧ m.recordIn u = some r then h.choose else default
  refine ⟨record, fun m u u' hexited hkind => ?_⟩
  have hm : m ≠ .absent := by
    rintro rfl
    cases hkind
  obtain ⟨t, t₁, hentered, henter, hchildren, hexit⟩ := hexited
  unfold Lower.exit at hexit
  rw [hkind] at hexit
  obtain ⟨r, hr, -⟩ := functions_of_exitFuncDef hexit
  have hexited : Exited [root] s m u u' := ⟨t, t₁, hentered, henter, hchildren, by
    unfold Lower.exit
    rw [hkind]
    exact hexit⟩
  have h : ∃ r u u', Exited [root] s m u u' ∧ m.recordIn u = some r := ⟨r, u, u', hexited, hr⟩
  obtain ⟨v, v', hexited', hchosen⟩ := h.choose_spec
  -- a node is exited once, so any record that the walk found there is the chosen one
  rw [← idsAll_singleton] at hnodup
  rw [hexited.unique hnodup hexited' hm, hchosen]
  simp only [record, dif_pos h]

/-- A walk applies the operations of the tree in the order of the exits. -/
theorem functions_of_walk {record : Node → FunctionRecord Fragment} (hrecord : Recorded root s record)
    (h : (Lower.walk root).run s = .ok ((), s')) :
    s'.functions = (root.functionOps record).foldl Functions.apply s.functions := by
  have hstep : ∀ m u u', Exited [root] s m u u' →
      u'.functions = (m.functionOp? record).elim u.functions u.functions.apply := by
    intro m u u' hexited
    obtain ⟨-, -, -, -, -, hexit⟩ := id hexited
    exact functions_of_exit hexit (hrecord m u u' hexited)
  have hfold := tables_of_walk (f := Tables.functions)
    (g := fun f m => (m.functionOp? record).elim f f.apply) hstep h root.id
  rw [List.foldl_map] at hfold
  rw [Node.functionOps, foldl_filterMap_elim]
  exact hfold

/-- A walk collects the libraries of the tree. -/
theorem libraries_of_walk (h : (Lower.walk root).run s = .ok ((), s')) (hs : s.requires = #[]) :
    s'.requires.toList = root.libraries := by
  have hstep : ∀ m u u', Exited [root] s m u u' → u'.tables.libraries =
      m.library?.elim u.tables.libraries (noted u.tables.libraries) := by
    rintro m u u' ⟨-, -, -, -, -, hexit⟩
    exact libraries_of_exit hexit
  have hnone : s.tables.libraries = [] := by
    rw [Tables.libraries, Lowering.tables, hs]
  have hfold := tables_of_walk (f := Tables.libraries)
    (g := fun names m => m.library?.elim names (noted names)) hstep h root.id
  rw [List.foldl_map, hnone] at hfold
  rw [Node.libraries, ← foldl_noted, foldl_filterMap_elim]
  exact hfold

/-- A name is among the callees if some node of the tree calls it. -/
theorem mem_callees {record : Node → FunctionRecord Fragment} {name : String} :
    name ∈ Functions.callees (root.functionOps record) ↔ root.calls name = true := by
  -- the operation of a node is a call of the name exactly if the node is a call with that callee
  have hop : ∀ m : Node, (m.functionOp? record).bind Functions.Op.callee? = some name ↔
      m.kind = .call ∧ (m.child? 0).any (·.text = name) = true := by
    intro m
    unfold Node.functionOp?
    cases hkind : m.kind with
    | call => cases m.child? 0 <;> simp [Functions.Op.callee?]
    | _ => simp [Functions.Op.callee?]
  rw [Functions.callees, Node.functionOps, List.filterMap_filterMap, List.mem_filterMap, Node.calls,
    List.any_eq_true]
  simp only [hop, Node.mem_exits, Bool.and_eq_true, decide_eq_true_eq]
  constructor
  · rintro ⟨e, he, hcall⟩
    exact ⟨e.node, ⟨e, he, rfl⟩, hcall⟩
  · rintro ⟨_, ⟨e, he, rfl⟩, hcall⟩
    exact ⟨e, he, hcall⟩

/-- A record has the name that stands first in the definition. -/
theorem exists_of_recordIn {m : Node} {u : Lowering} {r : FunctionRecord Fragment}
    (h : m.recordIn u = some r) : ∃ name, m.child? 0 = some name ∧ r.name = name.text := by
  unfold Node.recordIn at h
  simp only [Option.bind_eq_bind, Option.bind_eq_some_iff] at h
  obtain ⟨name, hname, _, _, _, _, _, _, _, _, h⟩ := h
  cases h
  exact ⟨name, hname, rfl⟩

/-- The definitions among the operations of a tree are those of its nodes. -/
theorem define_mem_functionOps {record : Node → FunctionRecord Fragment} {r : FunctionRecord Fragment} :
    .define r ∈ root.functionOps record ↔
      ∃ m ∈ root.nodesOnto [], m.kind = .funcDef ∧ r = record m := by
  have hop : ∀ m : Node, m.functionOp? record = some (.define r) ↔
      m.kind = .funcDef ∧ r = record m := by
    intro m
    unfold Node.functionOp?
    cases hkind : m.kind with
    | call => cases m.child? 0 <;> simp
    | _ => simp [eq_comm]
  simp only [Node.functionOps, List.mem_filterMap, hop, Node.mem_exits]
  constructor
  · rintro ⟨e, he, hdefine⟩
    exact ⟨e.node, ⟨e, he, rfl⟩, hdefine⟩
  · rintro ⟨_, ⟨e, he, rfl⟩, hdefine⟩
    exact ⟨e, he, hdefine⟩

/-- A name is defined among the operations if some node of the tree defines it. -/
theorem exists_define_iff {record : Node → FunctionRecord Fragment} {label stdlib : String}
    (hrecord : ∀ m ∈ root.nodesOnto [], m.kind = .funcDef →
      ∃ u u', Exited [root] (.started label stdlib) m u u' ∧ m.recordIn u = some (record m))
    {name : String} :
    (∃ r, .define r ∈ root.functionOps record ∧ r.name = name) ↔
      root.definesFunction name = true := by
  rw [Node.definesFunction, List.any_eq_true]
  simp only [define_mem_functionOps, Bool.and_eq_true, decide_eq_true_eq]
  constructor
  · rintro ⟨_, ⟨m, hm, hkind, rfl⟩, rfl⟩
    obtain ⟨u, -, -, hr⟩ := hrecord m hm hkind
    obtain ⟨child, hchild, htext⟩ := exists_of_recordIn hr
    refine ⟨m, hm, hkind, ?_⟩
    rw [hchild, htext]
    exact decide_eq_true rfl
  · rintro ⟨m, hm, hkind, hname⟩
    obtain ⟨u, -, -, hr⟩ := hrecord m hm hkind
    obtain ⟨child, hchild, htext⟩ := exists_of_recordIn hr
    rw [hchild] at hname
    exact ⟨_, ⟨m, hm, hkind, rfl⟩, htext.trans (of_decide_eq_true hname)⟩

/-- A function is written out once if it is both called and defined somewhere, and else not at all. -/
theorem count_emitted {record : Node → FunctionRecord Fragment} {label stdlib : String}
    (hrecord : ∀ m ∈ root.nodesOnto [], m.kind = .funcDef →
      ∃ u u', Exited [root] (.started label stdlib) m u u' ∧ m.recordIn u = some (record m))
    {emitted : List (FunctionRecord Fragment)}
    (h : Functions.Deferred (root.functionOps record) emitted) (name : String) :
    (emitted.map (·.name)).count name =
      if root.calls name && root.definesFunction name then 1 else 0 := by
  split
  · rename_i hboth
    obtain ⟨hcalled, hdefined⟩ := Bool.and_eq_true_iff.mp hboth
    obtain ⟨r, hr, hname⟩ := (exists_define_iff hrecord).mpr hdefined
    exact h.once name (mem_callees.mpr hcalled) r hr hname
  · rename_i hneither
    rw [List.count_eq_zero, List.mem_map]
    rintro ⟨r, hr, rfl⟩
    obtain ⟨hdefined, hcalled⟩ := h.needed r hr
    apply hneither
    rw [mem_callees.mp hcalled, (exists_define_iff hrecord).mp ⟨r, hdefined, rfl⟩]
    rfl

/-- What the program of a source is assembled from. -/
theorem assembled_of_parse {src : Source} (hparse : parse src = .ok root) (label stdlib : String) :
    ∃ final main record, lower root label stdlib = .ok final ∧
      (∀ m ∈ root.nodesOnto [], m.kind = .funcDef →
        ∃ u u', Exited [root] (.started label stdlib) m u u' ∧ m.recordIn u = some (record m)) ∧
      final.program = some ⟨main, stdlib, root.libraries,
        (Functions.run (root.functionOps record)).emitted⟩ := by
  obtain ⟨script, E, s, rfl, -, hnodup, -, hlowers⟩ := exists_lowers hparse label stdlib
  have hwalk := hlowers.visits.run
  obtain ⟨record, hrecord⟩ := exists_recorded hnodup (.started label stdlib)
  have hfunctions := functions_of_walk hrecord hwalk
  have hlibraries := libraries_of_walk hwalk rfl
  have hstdlib : s.stdlib = stdlib := by
    have : Lower.Keeps (Same Tables.stdlib) (Lower.walk script.node) :=
      Lower.keeps_walk fun _ _ _ => inferInstance
    exact this.rel hwalk
  obtain ⟨s₁, s₂, -, -, hexit⟩ := Lower.exists_of_walk hwalk
  obtain ⟨htables, main, hprogram⟩ := program_of_exit rfl hexit
  refine ⟨_, main, record, lower_eq_of_walk hnodup hwalk, fun m hm hkind => ?_, ?_⟩
  · obtain ⟨u, u', hexited⟩ := exists_exited hnodup hwalk hm
    exact ⟨u, u', hexited, hrecord m u u' hexited hkind⟩
  -- the last exit finds the tables as the walk leaves them
  · show s.program = _
    have hlast : s₂.tables.functions = Functions.run (script.node.functionOps record) := by
      rw [← htables]
      exact hfunctions
    have hpaths : s₂.tables.requires.toList = script.node.libraries := by
      rw [← htables]
      exact hlibraries
    have hpath : s₂.tables.stdlib = stdlib := by
      rw [← htables]
      exact hstdlib
    rw [hprogram, ← hlast, ← hpaths, ← hpath]
    rfl

/-- Functions are written out where they are needed, each once and in the order of the first calls. This
holds of any definitions and calls, and those of a program are the ones that its walk exits: behind the
main part come the libraries, each once, and then the functions, each as it was defined last. The text of
the whole is spelled out, down to the lines between the first and the last one of each part. -/
theorem deferred_emission_exact :
    (∀ (τ : Type) (ops : List (Functions.Op τ)) (render : FunctionRecord τ → String),
      Functions.Deferred ops (Functions.run ops).emitted ∧
      renderFunctions render (Functions.run ops).emitted =
        String.join ((Functions.run ops).emitted.map fun r => "\n" ++ render r)) ∧
    ∀ (src : Source) (root : Node), parse src = .ok root → ∀ label stdlib,
      ∃ final program record, lower root label stdlib = .ok final ∧ final.program = some program ∧
        (∀ m ∈ root.nodesOnto [], m.kind = .funcDef →
          ∃ u u', Exited [root] (.started label stdlib) m u u' ∧ m.recordIn u = some (record m)) ∧
        Functions.Deferred (root.functionOps record) program.functions ∧
        (∀ name, (program.functions.map (·.name)).count name =
          if root.calls name && root.definesFunction name then 1 else 0) ∧
        final.output =
          ".sub main\n" ++ String.join (program.main.toList.map Line.render) ++ ".end\n" ++
            "\n" ++
            ".include \"" ++ stdlib ++ "\"\n" ++
            String.join (root.libraries.map fun path => ".include \"" ++ path ++ "\"\n") ++
            String.join (program.functions.map fun r => "\n" ++
              ".sub " ++ r.name ++ "\n" ++ String.join (r.code.toList.map Line.render) ++ ".end\n") := by
  refine ⟨fun τ ops render => ⟨Functions.deferred_run ops, renderFunctions_eq_join render _⟩, ?_⟩
  intro src root hparse label stdlib
  obtain ⟨final, main, record, hlower, hrecord, hprogram⟩ := assembled_of_parse hparse label stdlib
  have hdeferred := Functions.deferred_run (root.functionOps record)
  refine ⟨final, _, record, hlower, hprogram, hrecord, hdeferred, count_emitted hrecord hdeferred, ?_⟩
  rw [Lowering.output, hprogram]
  exact Program.render_eq _

/-- A program whose functions are called before they are defined, from bodies that come to nothing, and
defined again, with a library that is included twice. -/
def deferring : Source := .ofString "require \"io\"
f(g(1))
def f(x)
  h()
end
def f(x)
  return k(x)
end
def g(x)
  require \"io.pir\"
end
def h()
end
def unused()
end
"

example : ((parse deferring).toOption.any fun root =>
    (lower root "deferring" defaultStdlib).toOption.any fun final => final.program.any fun program =>
      program.requires = ["io.pir"] ∧ program.functions.map (fun r => (r.name, r.line)) =
        [("g", 9), ("f", 6), ("h", 12)]) = true := by
  decide +kernel

/-- Both parts at concrete inputs: three operations, and the program above with its output. -/
theorem deferred_emission_deferring :
    (∀ render : FunctionRecord Fragment → String,
      let ops : List (Functions.Op Fragment) := [.call "f", .define ⟨"f", #[], 1⟩, .define ⟨"f", #[], 2⟩]
      Functions.Deferred ops (Functions.run ops).emitted ∧
        renderFunctions render (Functions.run ops).emitted =
          String.join ((Functions.run ops).emitted.map fun r => "\n" ++ render r)) ∧
    ∃ root final program record, parse deferring = .ok root ∧
      lower root "deferring" defaultStdlib = .ok final ∧ final.program = some program ∧
      (∀ m ∈ root.nodesOnto [], m.kind = .funcDef → ∃ u u',
        Exited [root] (.started "deferring" defaultStdlib) m u u' ∧ m.recordIn u = some (record m)) ∧
      Functions.Deferred (root.functionOps record) program.functions ∧
      (∀ name, (program.functions.map (·.name)).count name =
        if root.calls name && root.definesFunction name then 1 else 0) ∧
      final.output =
        ".sub main\n" ++ String.join (program.main.toList.map Line.render) ++ ".end\n" ++
          "\n" ++
          ".include \"" ++ "stdlib/stdlib.pir" ++ "\"\n" ++
          String.join (root.libraries.map fun path => ".include \"" ++ path ++ "\"\n") ++
          String.join (program.functions.map fun r => "\n" ++
            ".sub " ++ r.name ++ "\n" ++ String.join (r.code.toList.map Line.render) ++ ".end\n") := by
  refine ⟨fun render => deferred_emission_exact.1 _ _ render, ?_⟩
  have hok : (parse deferring).isOk = true := by decide +kernel
  cases hparse : parse deferring with
  | error e => rw [hparse] at hok; cases hok
  | ok root =>
    obtain ⟨final, program, record, hrest⟩ :=
      deferred_emission_exact.2 deferring root hparse "deferring" defaultStdlib
    exact ⟨root, final, program, record, rfl, hrest⟩

/-- The names of the main part and of the functions written out are all different, unless the program has
a function called `main` and calls it. -/
theorem sub_names_nodup_iff {src : Source} (hparse : parse src = .ok root) (label stdlib : String) :
    ∃ final program, lower root label stdlib = .ok final ∧ final.program = some program ∧
      (("main" :: program.functions.map (·.name)).Nodup ↔
        ¬(root.calls "main" = true ∧ root.definesFunction "main" = true)) := by
  obtain ⟨final, main, record, hlower, hrecord, hprogram⟩ := assembled_of_parse hparse label stdlib
  have hcount := count_emitted hrecord (Functions.deferred_run (root.functionOps record)) "main"
  have hnodup := nodup_emitted (Functions.run (root.functionOps record))
  refine ⟨final, _, hlower, hprogram, ?_⟩
  rw [List.nodup_cons, and_iff_left hnodup, ← List.count_eq_zero, hcount, ← Bool.and_eq_true]
  split <;> simp [*]

/-- A function that has the name of the main part, and is called. -/
def doubled : Source := .ofString "def main()
end
main()
"

/-- For the program above both sides fail: it calls and defines a function called `main`. -/
theorem sub_names_nodup_doubled :
    ∃ root final program, parse doubled = .ok root ∧
      lower root "doubled" defaultStdlib = .ok final ∧ final.program = some program ∧
      (("main" :: program.functions.map (·.name)).Nodup ↔
        ¬(root.calls "main" = true ∧ root.definesFunction "main" = true)) := by
  have hok : (parse doubled).isOk = true := by decide +kernel
  cases hparse : parse doubled with
  | error e => rw [hparse] at hok; cases hok
  | ok root =>
    obtain ⟨final, program, hrest⟩ := sub_names_nodup_iff hparse "doubled" defaultStdlib
    exact ⟨root, final, program, rfl, hrest⟩

/-- Both subroutines are written out under that name, and nothing is reported. -/
theorem not_nodup_sub_names_doubled :
    ∃ root final program, parse doubled = .ok root ∧
      lower root "doubled" defaultStdlib = .ok final ∧ final.program = some program ∧
      (∀ m ∈ root.nodesOnto [], m.kind ≠ .inlinePir) ∧ final.errors = #[] ∧
      ¬("main" :: program.functions.map (·.name)).Nodup := by
  have hcheck : ((parse doubled).toOption.any fun root =>
      (lower root "doubled" defaultStdlib).toOption.any fun final => final.program.any fun program =>
        (root.nodesOnto []).all (fun m => m.kind ≠ .inlinePir) && final.errors.isEmpty &&
          (program.functions.map (·.name)).contains "main") = true := by
    decide +kernel
  obtain ⟨root, final, hparse, hlower, hfinal⟩ := exists_of_any hcheck
  obtain ⟨program, hprogram, hsubs⟩ := (Option.any_eq_true _ _).mp hfinal
  simp only [Bool.and_eq_true, List.all_eq_true, decide_eq_true_eq, Array.isEmpty_iff,
    List.contains_iff_mem] at hsubs
  obtain ⟨⟨hplain, hclean⟩, hmain⟩ := hsubs
  refine ⟨root, final, program, hparse, hlower, hprogram, hplain, hclean, fun hnodup => ?_⟩
  exact (List.nodup_cons.mp hnodup).1 hmain

end Programs

end ScriptPir
