import ScriptPir.Proofs.Deferral
import ScriptPir.Proofs.Introduction

/-!
# Variables are declared once

A subroutine declares the variables that it defines and that are not its parameters, each once, where
the walk comes to the first definition. Which variables those are is read off the nodes of the subroutine
in the order of their exits (`Node.exitedIn`), so nothing outside the subroutine matters.

* `DeclaredOnce value nodes lines` — the lines of a subroutine declare what its nodes define, and construct
  each variable right behind its declaration, of the class that the first definition has;
* `declaring_stmt` — the definitions among the exits of a statement are those of its legs;
* `declarations_exact` — the main part and every function of a parsed program are declared that way.
-/

namespace ScriptPir

open Shape

/-- The names of the parameters among some nodes. -/
def parametersOf (nodes : List Node) : List String :=
  (nodes.filter (·.kind = .params)).flatMap (·.children.map Node.text)

/-- The lines of a subroutine declare what its nodes define and what is no parameter, and nothing else.
Every variable is declared once, and constructed there as its first definition has it. -/
structure DeclaredOnce (value : Int → Option Value) (nodes : List Node) (lines : List Line) : Prop where
  once : ∀ x, (lines.filterMap Line.declared?).count x =
    if (firstDefinition? nodes x).isSome ∧ x ∉ parametersOf nodes then 1 else 0
  constructed : ConstructedAs (fun x => (firstDefinition? nodes x).bind (·.definedClass? value)) lines

/-! ## Exits

A scope learns names at two kinds of exits: of parameters and of definitions. Along the layout of a
parsed tree these are the parameters and the legs with a definition, in the same order; all other
productions add nothing. -/

/-- Whether the exit of a node adds names to its scope. -/
def Node.isDeclaring (n : Node) : Bool := n.kind = .params || n.defines?.isSome

/-- The nodes of one subroutine that add names to its scope, among some exits. -/
def declaring (k : Int) (exits : List Exit) : List Node :=
  ((exits.filter (·.sub = k)).map (·.node)).filter Node.isDeclaring

/-- The productions that open no scope and add no name to one. -/
def Kind.isScopeless : Kind → Bool
  | .program | .funcDef | .params | .assign | .arrayInit | .globalGet => false
  | _ => true

section Exits

variable {k : Int}

@[simp] theorem declaring_append (xs ys : List Exit) :
    declaring k (xs ++ ys) = declaring k xs ++ declaring k ys := by
  simp [declaring]

/-- Exits from other subroutines add nothing to this one. -/
theorem declaring_eq_nil {exits : List Exit} (h : ∀ e ∈ exits, e.sub ≠ k) : declaring k exits = [] := by
  have hnone : exits.filter (·.sub = k) = [] := List.filter_eq_nil_iff.mpr (by simpa using h)
  rw [declaring, hnone]
  rfl

/-- The exits of some nodes add what those of each of them do, in order. -/
theorem declaring_exitsFromAll (j : Int) (ns : List Node) :
    declaring k (Node.exitsFromAll j ns) = ns.flatMap fun n => declaring k (n.exitsFrom j) := by
  induction ns with
  | nil => rfl
  | cons n ns ih => rw [Node.exitsFromAll, declaring_append, ih, List.flatMap_cons]

/-- A node that opens no scope is exited behind its children, in the same subroutine. -/
theorem declaring_mk {id : Int} {kind : Kind} {token : Token} {children : List Node}
    (h : kind.opensScope = false) :
    declaring k ((Node.mk id kind token children).exitsFrom k) =
      children.flatMap (fun n => declaring k (n.exitsFrom k)) ++
        [Node.mk id kind token children].filter Node.isDeclaring := by
  rw [Node.exitsFrom, declaring_append, h, ← declaring_exitsFromAll]
  simp [declaring]

/-- A node that opens a scope is a subroutine of its own. -/
theorem declaring_opening {id : Int} {kind : Kind} {token : Token} {children : List Node}
    (h : kind.opensScope = true) :
    declaring id ((Node.mk id kind token children).exitsFrom k) =
      children.flatMap fun n => declaring id (n.exitsFrom id) := by
  have hown : (Node.mk id kind token children).isDeclaring = false := by
    cases kind with
    | program | funcDef => rfl
    | _ => cases h
  rw [Node.exitsFrom, declaring_append, h, ← declaring_exitsFromAll]
  simp [declaring, hown]

/-- The exit of a node in one subroutine adds no name to another. -/
theorem declaring_within {j id : Int} {kind : Kind} {token : Token} {children : List Node}
    (hown : kind.opensScope = true → id = j) (h : j ≠ k) :
    declaring k ((Node.mk id kind token children).exitsFrom j) =
      children.flatMap fun n => declaring k (n.exitsFrom j) := by
  have hsub : (if kind.opensScope then id else j) = j := by
    split
    · exact hown ‹_›
    · rfl
  rw [Node.exitsFrom, hsub, declaring_append, ← declaring_exitsFromAll]
  simp [declaring, h]

/-- A production without a scope or a name of its own adds what its children do. -/
theorem declaring_scopeless {id : Int} {kind : Kind} {token : Token} {children : List Node}
    (h : kind.isScopeless = true) :
    declaring k ((Node.mk id kind token children).exitsFrom k) =
      children.flatMap fun n => declaring k (n.exitsFrom k) := by
  have hkind : kind.opensScope = false ∧ (Node.mk id kind token children).isDeclaring = false := by
    cases kind with
    | program | funcDef | params | assign | arrayInit | globalGet => cases h
    | _ => exact ⟨rfl, rfl⟩
  rw [declaring_mk hkind.1, List.filter_cons_of_neg (by simp [hkind.2])]
  simp

namespace Shape

@[simp] theorem declaring_leaf (l : Leaf) : declaring k (l.node.exitsFrom k) = [] :=
  declaring_scopeless rfl

mutual

/-- No expression defines a variable. -/
@[simp] theorem declaring_expr (e : Expr) : declaring k (e.node.exitsFrom k) = [] := by
  cases e with
  | constant id leaf => simp (disch := decide) [Expr.node, declaring_scopeless]
  | var id name => simp (disch := decide) [Expr.node, declaring_scopeless]
  | global id name => simp (disch := decide) [Expr.node, declaring_scopeless]
  | paren id opening inner closing =>
    simp (disch := decide) [Expr.node, declaring_scopeless, declaring_expr inner]
  | unary id sign operand =>
    simp (disch := decide) [Expr.node, declaring_scopeless, declaring_expr operand]
  | operation id left op right =>
    -- the kind depends on the operator, and none of the three opens a scope or declares
    have hkind : op.op.kind.isScopeless = true := by
      obtain ⟨hkind, -⟩ | ⟨hkind | hkind, -⟩ := op.kind_cases <;> rw [hkind] <;> rfl
    simp [Expr.node, declaring_scopeless hkind, declaring_expr left, declaring_expr right]
  | element parts index =>
    simp (disch := decide) [Expr.node, declaring_scopeless, declaring_expr index]
  | call parts args =>
    simp (disch := decide) [Expr.node, declaring_scopeless, declaring_args args]

/-- The arguments of a call define no variable. -/
theorem declaring_args (a : Args) : a.nodes.flatMap (fun n => declaring k (n.exitsFrom k)) = [] := by
  cases a with
  | nil => rfl
  | cons id name value rest =>
    rw [Args.nodes, List.flatMap_cons, declaring_args rest, List.append_nil]
    cases name <;> simp (disch := decide) [argNode, declaring_scopeless, declaring_expr value]

end

theorem Assignment.kind_ne_params (a : Assignment) : a.node.kind ≠ .params := by
  cases a <;> simp [Assignment.node, Node.kind]

/-- What an assignment defines, it defines behind its value. -/
theorem declaring_assignment (a : Assignment) :
    declaring k (a.node.exitsFrom k) = (Leg.simple (.assignment a)).definer?.toList := by
  have hfilter : [a.node].filter Node.isDeclaring = (Leg.simple (.assignment a)).definer?.toList := by
    rw [Leg.definer?, List.filter_singleton, Node.isDeclaring, decide_eq_false a.kind_ne_params,
      Bool.false_or]
    cases a.node.defines? <;> rfl
  rw [← hfilter]
  cases a <;> rw [Assignment.node, declaring_mk rfl] <;> simp

/-- A simple statement adds what its leg defines. -/
theorem declaring_simple (x : Simple) :
    declaring k (x.node.exitsFrom k) = (Leg.simple x).definer?.toList := by
  cases x with
  | assignment a => exact declaring_assignment a
  | globalSet | require | target =>
    simp (disch := decide) [Simple.node, declaring_scopeless, Leg.definer?]
  | call id parts args => simp (disch := decide) [Simple.node, declaring_scopeless, Leg.definer?]

/-- A clause of a header adds what its legs define. -/
theorem declaring_clause (c : Clause) {kind : Kind} (h : kind.isScopeless = true) :
    declaring k ((c.node kind).exitsFrom k) = c.legs.filterMap Leg.definer? := by
  rw [Clause.node, declaring_scopeless h, Clause.legs, List.flatMap_map]
  induction c.assignments with
  | nil => rfl
  | cons a as ih =>
    rw [List.flatMap_cons, ih, declaring_assignment, List.map_cons, List.filterMap_cons]
    cases (Leg.simple (.assignment a)).definer? <;> rfl

theorem declaring_cond (c : Cond) : declaring k (c.node.exitsFrom k) = [] := by
  simp (disch := decide) [Cond.node, declaring_scopeless]

theorem declaring_block (tags : BlockTags) (nodes : List Node) :
    declaring k ((tags.node nodes).exitsFrom k) =
      nodes.flatMap fun n => declaring k (n.exitsFrom k) := by
  simp (disch := decide) [BlockTags.node, declaring_scopeless]

mutual

/-- The definitions among the exits of a statement are those of its legs. -/
theorem declaring_stmt (x : Stmt) :
    declaring k (x.node.exitsFrom k) = x.legs.filterMap Leg.definer? := by
  cases x with
  | simple x =>
    rw [Stmt.node, declaring_simple, Stmt.legs]
    cases hdefiner : (Leg.simple x).definer? <;> simp [hdefiner]
  | ret tag value =>
    cases value <;> simp (disch := decide) [Stmt.node, declaring_scopeless, Stmt.legs]
  | brk tag => exact declaring_scopeless rfl
  | branch tag negated cond tags body arms =>
    -- `if` and `unless` are two kinds, and neither opens a scope
    have hkind : (if negated then Kind.unlessStmt else .ifStmt).isScopeless = true := by
      cases negated <;> rfl
    rw [Stmt.node, declaring_scopeless hkind, List.flatMap_cons, List.flatMap_cons, declaring_cond,
      declaring_block, declaring_stmts body, declaring_arms arms, Stmt.legs, filterMap_definer?_value,
      List.filterMap_append]
    rfl
  | whileLoop tag cond tags body =>
    rw [Stmt.node, declaring_scopeless rfl, List.flatMap_cons, declaring_cond, List.flatMap_singleton,
      declaring_block, declaring_stmts body]
    rfl
  | forLoop tag init cond step tags body =>
    rw [Stmt.node, declaring_scopeless rfl, List.flatMap_cons, List.flatMap_cons, List.flatMap_cons,
      List.flatMap_singleton, declaring_clause init rfl, declaring_cond, declaring_clause step rfl,
      declaring_block, declaring_stmts body, Stmt.legs, List.filterMap_append, filterMap_definer?_value,
      List.filterMap_append]
    rfl

/-- The definitions among the exits of statements are those of their legs. -/
theorem declaring_stmts (b : Stmts) :
    b.nodes.flatMap (fun n => declaring k (n.exitsFrom k)) = b.legs.filterMap Leg.definer? := by
  cases b with
  | nil => rfl
  | cons first rest =>
    rw [Stmts.nodes, List.flatMap_cons, declaring_stmt first, declaring_stmts rest, Stmts.legs,
      List.filterMap_append]

/-- The definitions among the exits of the further arms of a branch are those of their legs. -/
theorem declaring_arms (a : Arms) :
    a.nodes.flatMap (fun n => declaring k (n.exitsFrom k)) = a.legs.filterMap Leg.definer? := by
  cases a with
  | none => rfl
  | last tag tags body =>
    rw [Arms.nodes, List.flatMap_singleton, declaring_scopeless rfl, List.flatMap_singleton,
      declaring_block, declaring_stmts body]
    rfl
  | elsif tag cond tags body rest =>
    rw [Arms.nodes, List.flatMap_cons, declaring_scopeless rfl, List.flatMap_cons, declaring_cond,
      List.flatMap_singleton, declaring_block, declaring_stmts body, declaring_arms rest, Arms.legs,
      filterMap_definer?_value, List.filterMap_append]
    rfl

end

end Shape

end Exits

/-! ## Subroutines

`declaredOnce_of_spread` is where the legs meet the lines: a permutation keeps the number of
declarations (`perm_filterMap`), and the constructions stay behind their declarations since a leg is
placed as a whole. -/

section Subroutines

variable {E : Emission}

/-- Labels and jumps declare nothing. -/
theorem Line.declared?_of_isControl (line : Line) (h : line.isControl = true) :
    line.declared? = none := by
  cases line with
  | label => rfl
  | instr i =>
    cases i with
    | jump | branch | ret => rfl
    | _ => cases h

/-- The first definition of a variable is found among the nodes that add names. -/
theorem firstDefinition?_declaring (nodes : List Node) (x : String) :
    firstDefinition? (nodes.filter Node.isDeclaring) x = firstDefinition? nodes x := by
  rw [firstDefinition?, firstDefinition?, List.find?_filter]
  congr 1
  funext n
  by_cases hn : n.defines? = some x <;> simp [Node.isDeclaring, hn]

/-- The parameters are found among the nodes that add names. -/
theorem parametersOf_declaring (nodes : List Node) :
    parametersOf (nodes.filter Node.isDeclaring) = parametersOf nodes := by
  rw [parametersOf, parametersOf, List.filter_filter]
  congr 2
  funext n
  by_cases hn : n.kind = .params <;> simp [Node.isDeclaring, hn]

theorem parametersOf_append (ns ms : List Node) :
    parametersOf (ns ++ ms) = parametersOf ns ++ parametersOf ms := by
  simp [parametersOf]

/-- A definition is no parameter. -/
theorem parametersOf_legs (legs : List Leg) : parametersOf (legs.filterMap Leg.definer?) = [] := by
  have hkind : ∀ n ∈ legs.filterMap Leg.definer?, n.kind ≠ .params := by
    intro n hn
    obtain ⟨l, -, hl⟩ := List.mem_filterMap.mp hn
    obtain ⟨a, -, -, rfl, -⟩ := Leg.exists_of_definer? hl
    exact a.kind_ne_params
  rw [parametersOf, List.filter_eq_nil_iff.mpr (by simpa using hkind)]
  rfl

/-- Some values give the definitions among some nodes the classes that an emission has for them. -/
def Emission.Classifies (E : Emission) (value : Int → Option Value) (nodes : List Node) : Prop :=
  ∀ n ∈ nodes, ∀ cls, n.definedClass? (some <| E.value ·) = some cls → n.definedClass? value = some cls

/-- Lines that are made of legs declare what the legs define, wherever the legs are placed. In front of
them may stand code that declares nothing, for names that are known before. -/
theorem declaredOnce_of_spread (code : List Instr) (params : List Node) {legs : List Leg}
    {lines : List Line} {σ : Spot} {value : Int → Option Value} {nodes : List Node}
    (hcode : Silent code) (hparams : ∀ n ∈ params, n.defines? = none)
    (hspread : Spread E legs lines) (hlegs : Along (Leg.Renders E) legs σ)
    (hknown : ∀ x, σ.names.contains x = true ↔ x ∈ parametersOf params)
    (hnodes : nodes.filter Node.isDeclaring = params ++ legs.filterMap Leg.definer?)
    (hvalue : E.Classifies value nodes) : DeclaredOnce value nodes (instrs code ++ lines) := by
  have hfirst : ∀ x, firstDefinition? (legs.filterMap Leg.definer?) x = firstDefinition? nodes x := by
    intro x
    have hnone : firstDefinition? params x = none :=
      List.find?_eq_none.mpr fun n hn => by simp [hparams n hn]
    rw [← firstDefinition?_declaring nodes, hnodes, firstDefinition?_append, hnone, Option.none_or]
  have hnames : parametersOf nodes = parametersOf params := by
    rw [← parametersOf_declaring, hnodes, parametersOf_append, parametersOf_legs, List.append_nil]
  refine ⟨fun x => ?_, ?_⟩
  -- how often a variable is declared does not depend on the order of the legs
  · have hperm := hspread.perm_filterMap Line.declared?_of_isControl
    rw [List.filterMap_append, hcode.declared, List.nil_append, hperm.count_eq, count_declared hlegs,
      hfirst, hnames]
    simp only [← hknown, Bool.not_eq_true]
  -- nor does what stands behind a declaration, since the lines between legs declare nothing
  · refine ConstructedAs.append (constructedAs_of_declared hcode.declared) ?_
    refine hspread.closed (fun lines hcontrol => ?_) (fun _ _ => .append) ?_
    · refine constructedAs_of_declared (List.filterMap_eq_nil_iff.mpr fun line hline => ?_)
      exact line.declared?_of_isControl (hcontrol line hline)
    · refine constructedAs_legs [] (fun _ _ => rfl) (fun x n cls hn hcls => ?_) hlegs
      rw [List.nil_append, hfirst] at hn
      rw [hn]
      exact hvalue n (List.mem_of_find?_eq_some hn) cls hcls

/-- The lines of the main part are made of the legs of its statements. -/
theorem spread_mainLines (items : List Item) (next : Nat) :
    Spread E (mainBody items).legs (mainLines E items next) := by
  induction items generalizing next with
  | nil => exact .nil
  | cons i items ih =>
    cases i with
    | stmt x => exact (x.spread E none next).append (ih _)
    | function parts body => exact ih _

/-- The legs of the main part are emitted one behind the other, function definitions left out. -/
theorem along_mainBody {items : List Item} {σ σ' : Spot} (h : AlongItems (Leg.Emitted E) items σ)
    (hnames : σ'.names = σ.names) : Along (Leg.Renders E) (mainBody items).legs σ' := by
  induction items generalizing σ σ' with
  | nil => trivial
  | cons i items ih =>
    cases i with
    -- a function changes the registers that are free, but no variable of the main part
    | function parts body => exact ih h.2 hnames
    | stmt x =>
      have hfirst : Along (Leg.Renders E) x.legs σ' := Along.renders h.1 hnames
      exact along_append.mpr ⟨hfirst, ih h.2 (names_afterAll x.legs hnames)⟩

/-- In a subroutine that neither surrounds a tree nor stands in it, nothing of the tree is exited. -/
theorem declaring_outside {k j : Int} {n : Node} (hj : k ≠ j) (hk : k ∉ n.ids) :
    declaring k (n.exitsFrom j) = [] := by
  apply declaring_eq_nil
  rintro e he rfl
  exact (Node.sub_of_mem_exitsFrom he).elim hj hk

/-- A function is a subroutine of its own, wherever it stands. -/
theorem exitsFrom_function (parts : FunctionParts) (body : Stmts) (k : Int) :
    (Item.function parts body).node.exitsFrom k =
      (Item.function parts body).node.exitsFrom (Item.function parts body).node.id := by
  rw [Item.node, Node.exitsFrom, Node.exitsFrom]
  rfl

/-- In the main part, the definitions among the exits are those of its statements: a function has a
scope of its own. -/
theorem declaring_main {items : List Item} {k : Int} (h : k ∉ Node.idsAll (items.map Item.node)) :
    (items.map Item.node).flatMap (fun n => declaring k (n.exitsFrom k)) =
      (mainBody items).legs.filterMap Leg.definer? := by
  induction items with
  | nil => rfl
  | cons i items ih =>
    rw [List.map_cons, Node.idsAll, List.mem_append, not_or] at h
    rw [List.map_cons, List.flatMap_cons, ih h.2]
    cases i with
    | stmt x => rw [Item.node, declaring_stmt, mainBody, Stmts.legs, List.filterMap_append]
    | function parts body =>
      have hother : k ≠ (Item.function parts body).node.id := by
        rintro rfl
        exact h.1 List.mem_cons_self
      rw [exitsFrom_function, declaring_outside hother h.1]
      rfl

/-- The node of the parameters of a function. -/
def Shape.FunctionParts.paramsNode (parts : FunctionParts) : Node :=
  .mk parts.paramsTag.id .params parts.paramsTag.token (parts.params.map (·.node))

/-- The parameters of a function are added at their exit. -/
theorem declaring_params (parts : FunctionParts) (k : Int) :
    declaring k (parts.paramsNode.exitsFrom k) = [parts.paramsNode] := by
  rw [FunctionParts.paramsNode, declaring_mk rfl, List.flatMap_eq_nil_iff.mpr (by simp)]
  rfl

/-- A function adds its parameters, and then what its body defines. -/
theorem declaring_function (parts : FunctionParts) (body : Stmts) (k : Int) :
    declaring parts.tag.id ((Item.function parts body).node.exitsFrom k) =
      parts.paramsNode :: body.legs.filterMap Leg.definer? := by
  have hparams := declaring_params parts parts.tag.id
  rw [FunctionParts.paramsNode] at hparams
  rw [Item.node, declaring_opening rfl]
  simp [hparams, declaring_block, declaring_stmts, FunctionParts.paramsNode]

/-- The id of a function is one of the ids of the program. -/
theorem mem_idsAll_function {items : List Item} {parts : FunctionParts} {body : Stmts}
    (h : .function parts body ∈ items) : parts.tag.id ∈ Node.idsAll (items.map Item.node) :=
  (Node.ids_sublist_idsAll (List.mem_map_of_mem h)).subset List.mem_cons_self

/-- Only the function itself adds names to its scope. -/
theorem declaring_items {items : List Item} {parts : FunctionParts} {body : Stmts} {k : Int}
    (hnodup : (Node.idsAll (items.map Item.node)).Nodup) (hmem : .function parts body ∈ items)
    (hk : parts.tag.id ≠ k) :
    (items.map Item.node).flatMap (fun n => declaring parts.tag.id (n.exitsFrom k)) =
      parts.paramsNode :: body.legs.filterMap Leg.definer? := by
  induction items with
  | nil => cases hmem
  | cons i items ih =>
    rw [List.map_cons, Node.idsAll, List.nodup_append] at hnodup
    obtain ⟨-, hrest, hdisjoint⟩ := hnodup
    rw [List.map_cons, List.flatMap_cons]
    -- no other item has the id of the function, so none adds to its scope
    obtain rfl | hmem := List.mem_cons.mp hmem
    · have hnone : (items.map Item.node).flatMap
          (fun n => declaring parts.tag.id (n.exitsFrom k)) = [] := by
        refine List.flatMap_eq_nil_iff.mpr fun n hn => declaring_outside hk fun hid => ?_
        have hlater := (Node.ids_sublist_idsAll hn).subset hid
        exact hdisjoint _ List.mem_cons_self _ hlater rfl
      rw [declaring_function, hnone, List.append_nil]
    · have hother : parts.tag.id ∉ i.node.ids := fun hid =>
        hdisjoint _ hid _ (mem_idsAll_function hmem) rfl
      rw [declaring_outside hk hother, List.nil_append, ih hrest hmem]

end Subroutines

/-! ## Programs

The parts are put together for the tree of a parse, where ids are unique. The classes of definitions
are read off the values at the end of the walk, which are those that the emission was made with
(`Emission.Agrees.classifies`). -/

section Programs

variable {E : Emission} {script : Script} {s s' : Lowering}

/-- The ids of a program are unique among its items, too. -/
theorem Shape.Script.nodup_items (hnodup : script.node.ids.Nodup) :
    script.node.id ∉ Node.idsAll (script.items.map Item.node) ∧
      (Node.idsAll (script.items.map Item.node)).Nodup := by
  obtain ⟨hid, hnodup⟩ := List.nodup_cons.mp hnodup
  rw [idsAll_singleton] at hid hnodup
  exact ⟨fun hmem => hid (List.mem_cons_of_mem _ hmem), (List.nodup_cons.mp hnodup).2⟩

/-- The scope of the main part learns what its statements define. -/
theorem declaring_script_main (hnodup : script.node.ids.Nodup) :
    (script.node.exitedIn script.node.id).filter Node.isDeclaring =
      (mainBody script.items).legs.filterMap Leg.definer? := by
  obtain ⟨hid, -⟩ := Script.nodup_items hnodup
  rw [← declaring_main hid]
  show declaring script.tag.id (Node.exitsFrom script.tag.id script.node) = _
  rw [Script.node, declaring_opening rfl, List.flatMap_singleton]
  exact declaring_scopeless rfl

/-- The scope of a function learns its parameters and what its body defines. -/
theorem declaring_script_function {parts : FunctionParts} {body : Stmts}
    (hnodup : script.node.ids.Nodup) (hmem : .function parts body ∈ script.items) :
    (script.node.exitedIn parts.tag.id).filter Node.isDeclaring =
      parts.paramsNode :: body.legs.filterMap Leg.definer? := by
  obtain ⟨hid, hitems⟩ := Script.nodup_items hnodup
  have hroot : script.tag.id ≠ parts.tag.id := by
    rintro h
    have hown := mem_idsAll_function hmem
    rw [← h] at hown
    exact hid hown
  rw [← declaring_items hitems hmem hroot.symm]
  show declaring parts.tag.id (Node.exitsFrom script.tag.id script.node) = _
  rw [Script.node, declaring_within (fun _ => rfl) hroot, List.flatMap_singleton]
  exact declaring_within (fun h => by cases h) hroot

/-- The functions of a program stand at its top. -/
theorem Shape.Script.exists_function {m : Node} (hvalid : ∀ i ∈ script.items, i.Valid)
    (hm : m ∈ script.node.nodesOnto []) (hkind : m.kind = .funcDef) :
    ∃ parts body, .function parts body ∈ script.items ∧ m = (Item.function parts body).node := by
  rw [Script.node, Node.mem_nodes_mk] at hm
  obtain rfl | ⟨c, hc, hm⟩ := hm
  · cases hkind
  rw [List.mem_singleton.mp hc, Node.mem_nodes_mk] at hm
  obtain rfl | ⟨c, hc, hm⟩ := hm
  · cases hkind
  obtain ⟨i, hi, rfl⟩ := List.mem_map.mp hc
  -- a definition is one of the items: inside a statement or a function there is none
  cases i with
  | stmt x => exact absurd hkind ((x.sound (hvalid _ hi)).kind_ne m hm)
  | function parts body =>
    rw [Item.node, Node.mem_nodes_mk] at hm
    obtain rfl | ⟨c, hc, hm⟩ := hm
    · exact ⟨parts, body, hi, rfl⟩
    · exact absurd hkind ((sound_parts parts body (hvalid _ hi) c hc).kind_ne m hm)

/-- What an assignment gives to its variable is known in the end. -/
theorem exists_value_of_assign {root n e : Node} (hnodup : root.ids.Nodup)
    (hwalk : (Lower.walk root).run s = .ok ((), s')) (hn : n ∈ root.nodesOnto [])
    (hkind : n.kind = .assign) (he : n.child? 2 = some e) : ∃ v, s'.value e.id = some v := by
  obtain ⟨u, u', hexited⟩ := exists_exited hnodup hwalk hn
  have hpath : n.follow [2] = some e := Node.follow_cons_eq_some.mpr ⟨e, he, rfl⟩
  have hmem : e.id ∈ n.ids := Node.id_mem_of_follow (Node.child?_eq_some.mp he).2 hpath
  have hvalue := hexited.value_eq hnodup hwalk e.id hmem
  obtain ⟨-, -, -, -, -, hexit⟩ := hexited
  -- the exit of an assignment asks for the value, so the walk would have failed without it
  unfold Lower.exit at hexit
  rw [hkind] at hexit
  have hkept : Same (Tables.value e.id) u u' := Lower.Keeps.rel hexit
  obtain ⟨code, u₁, hpop, hrest⟩ := Lower.run_bind_eq_ok hexit
  have hpopped : Same (Tables.value e.id) u u₁ := Lower.Keeps.rel hpop
  obtain ⟨target, -, hrest⟩ := Lower.of_bind_child hrest
  obtain ⟨op, -, hrest⟩ := Lower.of_bind_operator hrest
  obtain ⟨e', he', hrest⟩ := Lower.of_bind_child hrest
  obtain ⟨v, hv, -⟩ := Lower.of_bind_valueOf hrest
  rw [he] at he'
  cases he'
  refine ⟨v, ?_⟩
  calc s'.value e.id = u'.value e.id := hvalue
    _ = u.value e.id := hkept
    _ = u₁.value e.id := hpopped.symm
    _ = some v := hv

/-- An emission has the values that are known in the end. -/
theorem Emission.Agrees.value_of_walk {root e : Node} (hE : E.Agrees [root] s)
    (hnodup : root.ids.Nodup) (hwalk : (Lower.walk root).run s = .ok ((), s'))
    (he : e ∈ root.nodesOnto []) {v : Value} (hv : s'.value e.id = some v) : E.value e.id = v := by
  obtain ⟨t, hentered⟩ := exists_entered hwalk he
  rw [← idsAll_singleton] at hnodup
  obtain ⟨t', hrun, hvalue⟩ := hentered.exists_walk hnodup (walkAll_singleton hwalk)
  apply (hE e t t' hentered hrun).2
  rw [← hvalue e.id (e.id_mem_ids (ne_absent_of_walk hrun)), hv]

/-- The classes of definitions are found by the values that are known in the end. -/
theorem Emission.Agrees.classifies {root : Node} (hE : E.Agrees [root] s) (hnodup : root.ids.Nodup)
    (hwalk : (Lower.walk root).run s = .ok ((), s')) (k : Int) :
    E.Classifies s'.value (root.exitedIn k) := by
  intro n hn cls hcls
  obtain ⟨x, hx, rfl⟩ := List.mem_map.mp hn
  have hmem : x.node ∈ root.nodesOnto [] := Node.mem_exits.mpr ⟨x, (List.mem_filter.mp hx).1, rfl⟩
  unfold Node.definedClass? at hcls ⊢
  -- only the class of an assignment depends on a value
  cases hkind : x.node.kind with
  | assign =>
    rw [hkind] at hcls
    obtain ⟨e, he, hcls⟩ := Option.bind_eq_some_iff.mp hcls
    obtain ⟨v, hv⟩ := exists_value_of_assign hnodup hwalk hmem hkind he
    obtain ⟨hchild, habsent⟩ := Node.child?_eq_some.mp he
    have hvalue : E.value e.id = v := hE.value_of_walk hnodup hwalk
      (Node.mem_nodes_child hmem (List.mem_of_getElem? hchild) habsent) hv
    rw [he, Option.bind_some, hv, ← hvalue]
    exact hcls
  | _ =>
    rw [hkind] at hcls
    exact hcls

/-- The walk of the trees `ns` from the state `s` enters the function definition `m` in the state `t`, and
leaves it with the record `r` in the table of functions. -/
structure Defines (ns : List Node) (s : Lowering) (m : Node) (t : Lowering)
    (r : FunctionRecord Fragment) : Prop where
  entered : Entered ns s m t
  stored : ∃ t₁ u u', (Lower.enter m).run t = .ok ((), t₁) ∧
    (Lower.walkAll m.children).run t₁ = .ok ((), u) ∧ (Lower.exit m).run u = .ok ((), u') ∧
    m.recordIn u = some r ∧ u'.functions = u.functions.define r

/-- What is stored for a function is what its definition was left with. -/
theorem Stored.defines {E : Emission} {ns : List Node} {s : Lowering} {parts : FunctionParts}
    {body : Stmts} (h : Stored E ns s parts body) :
    ∃ t r, Defines ns s (Item.function parts body).node t r ∧ r.name = parts.name.text ∧
      r.code = (parts.lines E body t.labels.next).toArray := by
  obtain ⟨t, t', stored, hentered, hrun, hlookup, hcode⟩ := h
  obtain ⟨t₁, u, henter, hchildren, hexit⟩ := Lower.exists_of_walk hrun
  obtain ⟨r, hr, hfunctions⟩ := functions_of_exitFuncDef hexit
  obtain ⟨name, hname, htext⟩ := exists_of_recordIn hr
  have hname : name = parts.name.node := by
    cases hname
    rfl
  have hkey : r.name = parts.name.text := by rw [htext, hname, Leaf.text_node]
  rw [hfunctions, ← hkey, lookup?_define] at hlookup
  obtain rfl := Option.some.inj hlookup
  exact ⟨t, r, ⟨hentered, t₁, u, t', henter, hchildren, hexit, hr, hfunctions⟩, hkey, hcode⟩

/-- A function is recorded as the lines of its parameters and its body. -/
theorem code_of_recordIn {parts : FunctionParts} {body : Stmts} {u u' : Lowering}
    {r : FunctionRecord Fragment} (hnodup : script.node.ids.Nodup)
    (hstored : Stored E [script.node] s parts body)
    (hexited : Exited [script.node] s (Item.function parts body).node u u')
    (hr : (Item.function parts body).node.recordIn u = some r) :
    ∃ next, r.code = (parts.lines E body next).toArray := by
  obtain ⟨t, r', ⟨hentered, t₁, v, t', henter, hchildren, hexit, hr', -⟩, -, hcode⟩ := hstored.defines
  rw [← idsAll_singleton] at hnodup
  obtain rfl : u = v :=
    hexited.unique hnodup ⟨t, t₁, hentered, henter, hchildren, hexit⟩ fun h => by cases h
  cases hr.symm.trans hr'
  exact ⟨_, hcode⟩

/-- The main part declares what its statements define. -/
theorem declaredOnce_main {value : Int → Option Value} (hnodup : script.node.ids.Nodup)
    (hlegs : AlongItems (Leg.Emitted E) script.items .start)
    (hvalue : E.Classifies value (script.node.exitedIn script.node.id)) :
    DeclaredOnce value (script.node.exitedIn script.node.id) (mainLines E script.items 0) := by
  have hstart : ∀ x, Spot.start.names.contains x = true ↔ x ∈ parametersOf [] := by
    simp [Spot.start, parametersOf]
  exact declaredOnce_of_spread [] [] silent_nil (by simp) (spread_mainLines script.items 0)
    (along_mainBody hlegs rfl) hstart (declaring_script_main hnodup) hvalue

/-- A function declares what its body defines, but for its parameters. -/
theorem declaredOnce_function {value : Int → Option Value} {parts : FunctionParts} {body : Stmts}
    (hnodup : script.node.ids.Nodup) (hmem : .function parts body ∈ script.items)
    (hlegs : AlongItems (Leg.Emitted E) script.items .start)
    (hvalue : E.Classifies value (script.node.exitedIn parts.tag.id)) (next : Nat) :
    DeclaredOnce value (script.node.exitedIn parts.tag.id) (parts.lines E body next) := by
  obtain ⟨σ, hbody⟩ := exists_along_of_mem hlegs hmem
  have hbody : Along (Leg.Emitted E) body.legs parts.entry := hbody
  have hentry : ∀ x, parts.entry.names.contains x = true ↔ x ∈ parametersOf [parts.paramsNode] := by
    intro x
    rw [contains_entry_eq]
    simp [parametersOf, FunctionParts.paramsNode, Node.kind, Node.children]
  have hparams : Silent (parts.params.map fun p => .param p.text) := by
    intro i hi
    obtain ⟨p, -, rfl⟩ := List.mem_map.mp hi
    rfl
  refine declaredOnce_of_spread _ [parts.paramsNode] hparams ?_ (body.spread E none next)
    (hbody.renders rfl) hentry (declaring_script_function hnodup hmem) hvalue
  exact List.forall_mem_singleton.mpr rfl

end Programs

/-- Every subroutine of a parsed program declares the variables that are defined in it, by an assignment,
as an array or from a global, each once and none that is a parameter; and constructs each right there, of
the class of the first definition. What is declared elsewhere does not matter: the nodes of a subroutine
decide. This holds of the main part and of all functions, written out or not. -/
theorem declarations_exact {src : Source} {root : Node} (hparse : parse src = .ok root)
    (label stdlib : String) :
    ∃ (final : Lowering) (program : Program) (record : Node → FunctionRecord Fragment),
      lower root label stdlib = .ok final ∧ final.program = some program ∧
      (∀ m ∈ root.nodesOnto [], m.kind = .funcDef →
        ∃ u u', Exited [root] (.started label stdlib) m u u' ∧ m.recordIn u = some (record m)) ∧
      (∀ r ∈ program.functions, ∃ m ∈ root.nodesOnto [], m.kind = .funcDef ∧ r = record m) ∧
      DeclaredOnce final.value (root.exitedIn root.id) program.main.toList ∧
      ∀ m ∈ root.nodesOnto [], m.kind = .funcDef →
        DeclaredOnce final.value (root.exitedIn m.id) (record m).code.toList := by
  obtain ⟨final, main, record, hlower, hrecord, hprogram⟩ := assembled_of_parse hparse label stdlib
  obtain ⟨script, E, s, rfl, hvalid, hnodup, hE, hlowers⟩ := exists_lowers hparse label stdlib
  have hwalk := hlowers.visits.run
  rw [lower_eq_of_walk hnodup hwalk] at hlower
  cases hlower
  have hvalue := hE.classifies hnodup hwalk
  refine ⟨_, _, record, lower_eq_of_walk hnodup hwalk, hprogram, hrecord, fun r hr => ?_, ?_,
    fun m hm hkind => ?_⟩
  -- the functions that are written were all defined
  · obtain ⟨hdefined, -⟩ := (Functions.deferred_run _).needed r hr
    exact define_mem_functionOps.mp hdefined
  · obtain ⟨p, hp, hmain⟩ := hlowers.main
    cases hp.symm.trans hprogram
    rw [hmain]
    exact declaredOnce_main hnodup hlowers.legs (hvalue _)
  · obtain ⟨parts, body, hmem, rfl⟩ := Script.exists_function hvalid hm hkind
    obtain ⟨u, u', hexited, hr⟩ := hrecord _ hm hkind
    obtain ⟨next, hcode⟩ := code_of_recordIn hnodup (hlowers.functions parts body hmem) hexited hr
    rw [hcode]
    exact declaredOnce_function hnodup hmem hlowers.legs (hvalue _) next

/-- A function and a main part that define variables of the same names, some of them in a loop's header
and one that is a parameter. -/
def shadowing : Source := .ofString "x = 1.5
def f(x)
  x = 2
  y = $g
  y = []
end
for(; f(x); y = \"a\")
  y = 1
end
"

example : ((parse shadowing).toOption.any fun root =>
    (lower root "shadowing" defaultStdlib).toOption.any fun final => final.program.any fun program =>
      program.main.toList.filterMap Line.declared? = ["x", "y"] ∧
        program.functions.map (·.code.toList.filterMap Line.declared?) = [["y"]]) = true := by
  decide +kernel

/-- Applied to the program above, in which the main part and a function declare variables of the same
names. -/
theorem declarations_exact_shadowing :
    ∃ (root : Node) (final : Lowering) (program : Program) (record : Node → FunctionRecord Fragment),
      parse shadowing = .ok root ∧ lower root "shadowing" defaultStdlib = .ok final ∧
      final.program = some program ∧
      (∀ m ∈ root.nodesOnto [], m.kind = .funcDef → ∃ u u',
        Exited [root] (.started "shadowing" defaultStdlib) m u u' ∧ m.recordIn u = some (record m)) ∧
      (∀ r ∈ program.functions, ∃ m ∈ root.nodesOnto [], m.kind = .funcDef ∧ r = record m) ∧
      DeclaredOnce final.value (root.exitedIn root.id) program.main.toList ∧
      ∀ m ∈ root.nodesOnto [], m.kind = .funcDef →
        DeclaredOnce final.value (root.exitedIn m.id) (record m).code.toList := by
  have hok : (parse shadowing).isOk = true := by decide +kernel
  cases hparse : parse shadowing with
  | error e => rw [hparse] at hok; cases hok
  | ok root =>
    obtain ⟨final, program, record, hrest⟩ := declarations_exact hparse "shadowing" defaultStdlib
    exact ⟨root, final, program, record, rfl, hrest⟩

end ScriptPir
