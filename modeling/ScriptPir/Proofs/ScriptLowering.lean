import ScriptPir.Proofs.Keeping
import ScriptPir.Proofs.StatementLowering
import ScriptPir.Proofs.WellFormed

/-!
# What the walk of a program does

A function is assembled in a scope of its own and stored; nothing is written where it is defined. What
is at the top of a program besides functions is its main part. A function is written out from the record
that its last definition has left (`LastDefined`).

`lowering_total` — every source either has a syntax error, or has a tree that is lowered without a
violation, with nothing left on a stack or kept behind.

* `reaches_exitFuncDef` — a function that is left is stored with its lines, and its scope is gone;
* `visits_items` — the things at the top, by induction on their list;
* `exists_lowers` — the tree of a parsed source has a script, an emission and a final state, from which
  later modules start.
-/

namespace ScriptPir

open Shape

/-! ## Layouts of programs

The main part is numbered through all items, functions included: a function takes its labels where it
is defined, although its lines go elsewhere. -/

/-- The lines of a function: its parameters and its body. -/
def Shape.FunctionParts.lines (E : Emission) (parts : FunctionParts) (body : Stmts) (next : Nat) :
    List Line :=
  instrs (parts.params.map fun p => .param p.text) ++ body.lines E none next

/-- The lines that a thing at the top of a program adds to the main part. -/
def Shape.Item.lines (E : Emission) : Item → Nat → List Line
  | .stmt x, next => x.lines E none next
  | .function .., _ => []

/-- The number of labels that a thing at the top of a program takes. -/
def Shape.Item.span : Item → Nat
  | .stmt x => x.span
  | .function _ body => body.span

/-- The lines of the main part of a program. -/
def mainLines (E : Emission) : List Item → Nat → List Line
  | [], _ => []
  | i :: items, next => i.lines E next ++ mainLines E items (next + i.span)

/-- The number of labels that a program takes. -/
def mainSpan : List Item → Nat
  | [] => 0
  | i :: items => i.span + mainSpan items

/-- The spot at the start of a subroutine. -/
def Shape.Spot.start : Spot := { objects := 0, bools := 0, names := #[] }

/-- The spot behind the parameters of a function. -/
def Shape.FunctionParts.entry (parts : FunctionParts) : Spot :=
  parts.params.foldl (fun σ p => σ.declare p.text) .start

/-- The spot of the main part behind a thing at the top of a program. Registers are not given back where
a function ends. -/
def Shape.Item.after : Item → Spot → Spot
  | .stmt x, σ => afterAll x.legs σ
  | .function parts body, σ => { σ with objects := (afterAll body.legs parts.entry).objects }

/-- A property holds for all legs of a thing at the top of a program. -/
def Shape.Item.Along (P : Leg → Spot → Prop) : Item → Spot → Prop
  | .stmt x, σ => Shape.Along P x.legs σ
  | .function parts body, _ => Shape.Along P body.legs parts.entry

/-- A property holds for all legs of a program. -/
def AlongItems (P : Leg → Spot → Prop) : List Item → Spot → Prop
  | [], _ => True
  | i :: items, σ => i.Along P σ ∧ AlongItems P items (i.after σ)

/-- Between two states, a walk has passed some things at the top of a program. -/
structure Passes (E : Emission) (items : List Item) (s s' : Lowering) : Prop where
  spot : s'.spot = items.foldl (fun σ i => i.after σ) s.spot
  emitted : AlongItems (Leg.Emitted E) items s.spot
  defined : s'.errors = #[] → s.errors = #[] ∧ AlongItems Leg.Defined items s.spot

/-- Things at the top are passed one after the other. -/
theorem Passes.cons {E : Emission} {i : Item} {items : List Item} {s s₁ s₂ : Lowering}
    (h₁ : Passes E [i] s s₁) (h₂ : Passes E items s₁ s₂) : Passes E (i :: items) s s₂ := by
  have hspot : s₁.spot = i.after s.spot := h₁.spot
  refine ⟨?_, ⟨h₁.emitted.1, ?_⟩, fun hclean => ?_⟩
  · rw [h₂.spot, hspot, List.foldl_cons]
  · rw [← hspot]
    exact h₂.emitted
  · obtain ⟨hclean₁, hdefined₂⟩ := h₂.defined hclean
    obtain ⟨hclean₀, hdefined₁⟩ := h₁.defined hclean₁
    rw [hspot] at hdefined₂
    exact ⟨hclean₀, hdefined₁.1, hdefined₂⟩

/-- A statement at the top is passed by passing its legs. -/
theorem Threads.passes {E : Emission} {x : Stmt} {s s' : Lowering} (h : Threads E x.legs s s') :
    Passes E [.stmt x] s s' := by
  refine ⟨h.spot, ⟨h.emitted, trivial⟩, fun hclean => ?_⟩
  obtain ⟨hclean₀, hdefined⟩ := h.defined hclean
  exact ⟨hclean₀, hdefined, trivial⟩

/-! ## Functions

A definition is lowered in a scope of its own and ends as a record. Records are looked up by name,
and defining a name again replaces its record at the same place. -/

section Functions

variable {s : Lowering}

/-- A function that was defined is found under its name. -/
theorem lookup?_define {τ : Type} (f : Functions τ) (r : FunctionRecord τ) :
    (f.define r).lookup? r.name = some r := by
  unfold Functions.define Functions.lookup?
  split
  · rename_i hdefined
    -- the first record of that name is found, and it is the one replaced
    obtain ⟨old, hold⟩ : ∃ old, f.records.find? (fun old => old.name = r.name) = some old := by
      refine Option.isSome_iff_exists.mp ?_
      rw [Array.find?_isSome]
      exact Array.any_eq_true'.mp hdefined
    have hname : old.name = r.name := by simpa using Array.find?_some hold
    have hsame : ((fun old : FunctionRecord τ => decide (old.name = r.name)) ∘
        fun old => if old.name = r.name then r else old) = fun old => decide (old.name = r.name) := by
      funext other
      by_cases h : other.name = r.name <;> simp [h]
    rw [Array.find?_map, hsame, hold, Option.map_some, if_pos hname]
  · rename_i hdefined
    have hnone : f.records.find? (fun old => old.name = r.name) = none := by
      rw [Array.find?_eq_none]
      intro other hother hname
      exact hdefined (Array.any_eq_true'.mpr ⟨other, hother, hname⟩)
    rw [Array.find?_push, hnone]
    simp

/-- To define a function does not change what is found under other names. -/
theorem lookup?_define_of_ne {τ : Type} (f : Functions τ) (r : FunctionRecord τ) {name : String}
    (h : name ≠ r.name) : (f.define r).lookup? name = f.lookup? name := by
  unfold Functions.define Functions.lookup?
  split
  · have hsame : ((fun old : FunctionRecord τ => decide (old.name = name)) ∘
        fun old => if old.name = r.name then r else old) = fun old => decide (old.name = name) := by
      funext other
      by_cases hother : other.name = r.name <;> simp [hother, h.symm]
    rw [Array.find?_map, hsame]
    cases hfind : f.records.find? fun old => decide (old.name = name) with
    | none => rfl
    | some old =>
      have hname : old.name = name := by simpa using Array.find?_some hfind
      rw [Option.map_some, if_neg (by rw [hname]; exact h)]
  · rw [Array.find?_push]
    simp [h.symm]

theorem name_of_lookup? {τ : Type} {f : Functions τ} {name : String} {r : FunctionRecord τ}
    (h : f.lookup? name = some r) : r.name = name := by
  simpa using Array.find?_some h

/-- A list without its repetitions has none. -/
theorem nodup_eraseDups (names : List String) : names.eraseDups.Nodup := by
  match names with
  | [] => exact List.nodup_nil
  | name :: names =>
    rw [List.eraseDups_cons, List.nodup_cons]
    refine ⟨fun hmem => ?_, nodup_eraseDups _⟩
    rw [List.mem_eraseDups, List.mem_filter] at hmem
    simp at hmem
termination_by names.length
decreasing_by exact Nat.lt_succ_of_le (List.length_filter_le _ _)

/-- No function is written out twice. -/
theorem nodup_emitted {τ : Type} (f : Functions τ) : (f.emitted.map (·.name)).Nodup := by
  have hnames : ∀ names : List String,
      ((names.filterMap f.lookup?).map (·.name)).Sublist names := by
    intro names
    induction names with
    | nil => exact List.nil_sublist _
    | cons name names ih =>
      cases hlookup : f.lookup? name with
      | none =>
        rw [List.filterMap_cons_none hlookup]
        exact ih.cons name
      | some r =>
        rw [List.filterMap_cons_some hlookup, List.map_cons, name_of_lookup? hlookup]
        exact ih.cons_cons name
  exact (nodup_eraseDups _).sublist (hnames _)

/-- The functions defined are the same in two states. -/
def SameRecords (s s' : Lowering) : Prop := s'.functions.records = s.functions.records

instance : Looser SameRecords where
  refl _ := rfl
  trans h h' := Eq.trans h' h
  buffers _ _ := rfl
  fragments _ _ := rfl
  values _ _ := rfl
  labels _ _ _ := rfl
  registers _ := rfl
  scopes _ _ := rfl
  errors _ _ _ := rfl
  notices _ _ := rfl
  requires _ _ := rfl
  stmtCall _ _ := rfl
  program _ _ := rfl
  calls _ _ := rfl

instance : Lower.Keeps SameRecords Lower.resetRegisters := ⟨fun h => by cases h; exact rfl⟩

theorem SameRecords.lookup? {s s' : Lowering} (h : SameRecords s s') (name : String) :
    s'.functions.lookup? name = s.functions.lookup? name := by
  unfold Functions.lookup?
  rw [h]

/-- There is no function in a statement. -/
theorem Node.Sound.kind_ne {inLoop : Bool} {n : Node} (h : n.Sound inLoop) :
    ∀ m ∈ n.nodesOnto [], m.kind ≠ .funcDef := by
  intro m hm
  obtain ⟨habsent, path, hpath⟩ := Node.mem_nodes_iff.mp hm
  exact (h path m habsent hpath).2.1

/-- A statement defines no function. -/
theorem sameRecords_walk {inLoop : Bool} {n : Node} (h : n.Sound inLoop) {s s' : Lowering}
    (hrun : (Lower.walk n).run s = .ok ((), s')) : SameRecords s s' := by
  have : Lower.Keeps SameRecords (Lower.walk n) :=
    Lower.keeps_walk fun m hm hkind => absurd hkind (h.kind_ne m hm)
  exact this.rel hrun

/-- A function is defined under its name only. -/
theorem lookup?_exitFuncDef {n name : Node} (hname : n.child? 0 = some name) {s s' : Lowering}
    (hrun : (Lower.exitFuncDef n).run s = .ok ((), s')) {other : String} (h : other ≠ name.text) :
    s'.functions.lookup? other = s.functions.lookup? other := by
  obtain ⟨c, s₁, hchild, hrest⟩ := Lower.run_bind_eq_ok hrun
  rw [Lower.child, hname] at hchild
  cases hchild
  obtain ⟨_, s₂, h₂, hrest⟩ := Lower.run_bind_eq_ok hrest
  obtain ⟨params, s₃, h₃, hrest⟩ := Lower.run_bind_eq_ok hrest
  obtain ⟨_, s₄, h₄, hrest⟩ := Lower.run_bind_eq_ok hrest
  obtain ⟨body, s₅, h₅, hrest⟩ := Lower.run_bind_eq_ok hrest
  obtain ⟨_, s₆, h₆, hrest⟩ := Lower.run_bind_eq_ok hrest
  cases hrest
  -- all steps before the record is stored leave the records as they are
  have hsame : SameRecords s s₆ :=
    Rough.trans (Lower.Keeps.rel h₂) <| Rough.trans (Lower.Keeps.rel h₃) <|
      Rough.trans (Lower.Keeps.rel h₄) <| Rough.trans (Lower.Keeps.rel h₅) (Lower.Keeps.rel h₆)
  rw [← hsame.lookup? other]
  exact lookup?_define_of_ne _ ⟨name.text, params ++ body, n.line⟩ h

/-- Parameters are declared and emitted one after the other. -/
theorem reaches_params (ps : List Shape.Name) {s s₁ : Lowering} {code : List Instr} {σ : Spot}
    (hb : s.buffers.stack ≠ []) (hs : s.scopes.stack ≠ []) (h : Performs s [] code σ s₁) :
    (List.forM (ps.map fun p => p.node) fun p => do
        let _ ← Lower.declareName p.text
        Lower.emit (.param p.text) : Lower Unit).Reaches s₁
      (Performs s [] (code ++ ps.map fun p => .param p.text)
        (ps.foldl (fun σ p => σ.declare p.text) σ)) := by
  -- on the parameters: each is declared and then named to the target
  induction ps generalizing code σ s₁ with
  | nil =>
    refine ⟨s₁, rfl, ?_⟩
    rw [List.map_nil, List.append_nil]
    exact h
  | cons p ps ih =>
    obtain ⟨s₂, hrun, h₂⟩ := h.then_declareName hs p.text
    have hparam : (do
        let _ ← Lower.declareName p.node.text
        Lower.emit (.param p.node.text) : Lower Unit).Reaches s₁
        (Performs s [] (code ++ [.param p.text]) (σ.declare p.text)) := by
      rw [Leaf.text_node]
      exact .bind hrun (h₂.then_emit hb (.param p.text))
    refine .then hparam fun s₃ h₃ => ?_
    refine (ih h₃).mono fun s₄ h₄ => ?_
    rw [List.append_assoc] at h₄
    exact h₄

/-- To visit the names of parameters does nothing. -/
theorem visits_leaves (ps : List Shape.Name) (s : Lowering) :
    VisitsAll (ps.map fun p => p.node) s s := by
  induction ps with
  | nil => exact .nil s
  | cons p ps ih => exact .cons (.leaf _ s) ih

/-- The declarations of parameters are kept. -/
theorem visits_params (tag : Tag) (ps : List Shape.Name)
    (hready : Ready (Node.mk tag.id .params tag.token (ps.map fun p => p.node)).ids s) :
    ∃ s', Visits (.mk tag.id .params tag.token (ps.map fun p => p.node)) s s' ∧
      Stage s (Node.mk tag.id .params tag.token (ps.map fun p => p.node)).ids [] 0
        [(tag.id, instrs (ps.map fun p => .param p.text))] s' ∧
      s'.spot = ps.foldl (fun σ p => σ.declare p.text) s.spot := by
  obtain ⟨scope, scopes, hscope⟩ := List.exists_cons_of_ne_nil hready.push.scopes
  obtain ⟨s₁, hrun, hwrites, hspot⟩ :=
    reaches_params ps hready.push.buffers hready.push.scopes (.refl _)
  have hexit : (Lower.exit (.mk tag.id .params tag.token (ps.map fun p => p.node))).run
      { s with buffers := s.buffers.push } =
      .ok ((), s.stashed s₁ (.mk tag.id .params tag.token (ps.map fun p => p.node))
        (instrs (ps.map fun p => .param p.text))) := by
    refine (Lower.run_bind_of_ok (Lower.run_topScope hscope)).trans ?_
    refine (Lower.run_bind_of_ok hrun).trans ?_
    exact run_stash hwrites.passage _
  refine ⟨_, .mk' (.other rfl rfl) rfl (visits_leaves ps _) hexit, ?_, hspot⟩
  exact (Stage.of_writes (hwrites.mono (List.nil_subset _))).stash (n := .mk tag.id .params tag.token _)
    (hready.fragment _ List.mem_cons_self) List.mem_cons_self

/-- The state in which a function was entered. -/
def Lowering.scoped (s : Lowering) : Lowering :=
  { s with scopes := s.scopes.push, registers := s.registers.reset }

theorem Ready.scoped {ids : List Int} (h : Ready ids s) : Ready ids s.scoped :=
  ⟨h.buffers, List.cons_ne_nil _ _, h.nodup, h.fragment, h.stmtCall⟩

/-- A function is stored with its parameters and its body, and leaves nothing else behind. -/
theorem reaches_exitFuncDef {parts : FunctionParts} {b : Stmts} {s₁ : Lowering}
    {ids : List Int} {params lines : List Line} {labels : Nat}
    (h : Stage s.scoped ids [] labels [(parts.paramsTag.id, params), (parts.tags.body.id, lines)] s₁) :
    (Lower.exit (Item.function parts b).node).Reaches s₁ fun s' =>
      Writes s ids [] labels s' ∧ s'.spot = { s.spot with objects := s₁.spot.objects } ∧
        ∃ r, s'.functions.lookup? parts.name.text = some r ∧ r.code = (params ++ lines).toArray := by
  let paramsNode : Node :=
    .mk parts.paramsTag.id .params parts.paramsTag.token (parts.params.map fun p => p.node)
  -- both fragments are taken, and nothing is written: the function goes to the table
  have h₁ := h.taken (n := paramsNode) []
  have h₂ := h₁.taken (n := parts.tags.node b.nodes) []
  obtain ⟨f, hf⟩ := h₂.passage.scopes
  refine .bind (Lower.run_child (i := 0) rfl parts.name.node_ne_absent _) ?_
  refine .bind (Lower.run_child (i := 1) (c := paramsNode) rfl nofun _) ?_
  refine .bind (h.run_take (n := paramsNode) []) ?_
  refine .bind (Lower.run_child (i := 2) (c := parts.tags.node b.nodes) rfl nofun _) ?_
  refine .bind (h₁.run_take (n := parts.tags.node b.nodes) []) ?_
  refine .bind (Lower.run_popScope hf) ?_
  rw [Leaf.text_node]
  refine ⟨_, rfl, ⟨⟨h₂.passage.buffers, ⟨id, ?_⟩, h₂.passage.frames, h₂.passage.loops,
    h₂.passage.next, h₂.passage.stmtCall, h₂.passage.value⟩, h₂.writes.fragment⟩, rfl, _,
    lookup?_define _ ⟨parts.name.text, _, _⟩, ?_⟩
  · cases s.scopes.stack <;> rfl
  · simp

/-- A function is stored as its lines, and writes nothing where it is defined. -/
theorem visits_function {E : Emission} {parts : FunctionParts} {body : Stmts} (hvalid : body.Valid false)
    (hready : Ready (Item.function parts body).node.ids s) (hinside : Inside none s)
    (hE : E.Agrees [(Item.function parts body).node] s) :
    ∃ s', Visits (Item.function parts body).node s s' ∧
      Writes s (Item.function parts body).node.ids [] body.span s' ∧
      Passes E [.function parts body] s s' ∧ ∃ r, s'.functions.lookup? parts.name.text = some r ∧
        r.code = (parts.lines E body s.labels.next).toArray := by
  have hready₁ := hready.children.scoped
  have hE₁ : E.Agrees _ s.scoped := hE.inside rfl
  have hname := Visits.leaf parts.name.toLeaf s.scoped
  have hready₂ := hready₁.after (.of_writes ((Writes.refl _).mono (List.nil_subset _)))
  have hE₂ := hE₁.after hname
  obtain ⟨s₂, hvisits₂, hstage₂, hspot₂⟩ := visits_params parts.paramsTag parts.params
    (hready₂.mem List.mem_cons_self)
  -- a function is defined outside all loops, so a break in its body is inside a loop of that body
  have hinside₁ : Inside none s.scoped := ⟨hinside.call, hinside.loops⟩
  have hbody : LowersStmts E none body := lowers_stmts body hvalid
  obtain ⟨s₃, hvisits₃, hstage₃, hthreads₃⟩ := visits_body hbody
    ((hready₂.after hstage₂).mem List.mem_cons_self) (hinside₁.passage hstage₂.passage)
    (hE₂.after hvisits₂).first
  rw [hstage₂.passage.next] at hstage₃
  obtain ⟨s₄, hexit, hwrites, hspot₄, hstored⟩ :=
    reaches_exitFuncDef (b := body) (hstage₂.trans hstage₃)
  rw [Nat.zero_add] at hwrites
  have hentry : s₂.spot = parts.entry := hspot₂
  have hpasses : Passes E [.function parts body] s s₄ := by
    refine ⟨?_, ⟨?_, trivial⟩, fun hclean => ?_⟩
    · rw [hspot₄, hthreads₃.spot, hentry]
      rfl
    · have hemitted := hthreads₃.emitted
      rw [hentry] at hemitted
      exact hemitted
    -- errors of the parameters and of the record would still be there
    · have hclean₃ : s₃.errors = #[] := by
        have : Lower.Keeps Clean (Lower.exit (Item.function parts body).node) :=
          Lower.keeps_exit fun _ => inferInstance
        exact this.rel hexit hclean
      obtain ⟨hclean₂, hdefined⟩ := hthreads₃.defined hclean₃
      rw [hentry] at hdefined
      have hclean₁ : s.scoped.errors = #[] := clean_of_walk hvisits₂.run hclean₂
      exact ⟨hclean₁, hdefined, trivial⟩
  refine ⟨s₄, .mk' (.other rfl rfl) rfl (.cons hname (.cons hvisits₂ (.cons hvisits₃ (.nil s₃)))) hexit,
    hwrites.mono fun i hi => ?_, hpasses, hstored⟩
  simp only [Item.node, Node.ids, Node.idsAll, List.mem_cons, List.mem_append, List.append_nil] at hi ⊢
  grind

end Functions

/-! ## Programs

Which definition a record comes from is followed along the items from behind: what is found at the
end is the last definition of its name among the items, or was there before them. -/

/-- A function was stored as its lines when its definition was left. -/
def Stored (E : Emission) (ns : List Node) (s : Lowering) (parts : FunctionParts) (body : Stmts) :
    Prop :=
  ∃ t t' r, Entered ns s (Item.function parts body).node t ∧
    (Lower.walk (Item.function parts body).node).run t = .ok ((), t') ∧
    t'.functions.lookup? parts.name.text = some r ∧
    r.code = (parts.lines E body t.labels.next).toArray

/-- A record is the last definition of its name among some things, which take their labels from a number
on. -/
def LastDefined (E : Emission) (items : List Item) (next : Nat) (r : FunctionRecord Fragment) :
    Prop :=
  ∃ pre parts body post, items = pre ++ .function parts body :: post ∧ parts.name.text = r.name ∧
    (∀ parts' body', .function parts' body' ∈ post → parts'.name.text ≠ r.name) ∧
    r.code = (parts.lines E body (next + mainSpan pre)).toArray

/-- The last definition among some things is the last one with a thing in front. -/
theorem LastDefined.cons {E : Emission} {items : List Item} {next : Nat} {r : FunctionRecord Fragment}
    {i : Item} (h : LastDefined E items (next + i.span) r) : LastDefined E (i :: items) next r := by
  obtain ⟨pre, parts, body, post, rfl, hname, hpost, hcode⟩ := h
  refine ⟨i :: pre, parts, body, post, rfl, hname, hpost, ?_⟩
  rw [hcode, mainSpan, Nat.add_assoc]

/-- What is found under a name behind some things was defined last by one of them, or was there before
and none of them has that name. -/
def Finds (E : Emission) (items : List Item) (s s' : Lowering) : Prop :=
  ∀ name r, s'.functions.lookup? name = some r → LastDefined E items s.labels.next r ∨
    (s.functions.lookup? name = some r ∧
      ∀ parts body, .function parts body ∈ items → parts.name.text ≠ name)

/-- A statement defines nothing. -/
theorem finds_stmt {E : Emission} {inLoop : Bool} {x : Stmt} (hvalid : x.Valid inLoop)
    {s s' : Lowering} (hrun : (Lower.walk x.node).run s = .ok ((), s')) :
    Finds E [.stmt x] s s' := by
  intro name r hr
  rw [(sameRecords_walk (x.sound hvalid) hrun).lookup?] at hr
  exact .inr ⟨hr, by simp⟩

/-- Behind a function its record is found, and what was found before under other names. -/
theorem finds_function {E : Emission} {parts : FunctionParts} {body : Stmts}
    (hvalid : body.Valid false) {s s' : Lowering}
    (hrun : (Lower.walk (Item.function parts body).node).run s = .ok ((), s'))
    (hstored : ∃ r, s'.functions.lookup? parts.name.text = some r ∧
      r.code = (parts.lines E body s.labels.next).toArray) : Finds E [.function parts body] s s' := by
  intro name r hr
  by_cases hname : parts.name.text = name
  · obtain ⟨stored, hlookup, hcode⟩ := hstored
    rw [hname, hr] at hlookup
    cases hlookup
    refine .inl ⟨[], parts, body, [], rfl, ?_, by simp, hcode⟩
    rw [hname, name_of_lookup? hr]
  · refine .inr ⟨?_, by simpa using hname⟩
    obtain ⟨_, s₁, henter, hrest⟩ := Lower.run_bind_eq_ok (Lower.walk.eq_2 .. ▸ hrun)
    obtain ⟨_, s₂, hchildren, hexit⟩ := Lower.run_bind_eq_ok hrest
    -- nothing below a function defines one
    have : Lower.Keeps SameRecords (Lower.walkAll (Item.function parts body).node.children) := by
      refine Lower.keeps_walkAll fun m hm hkind => ?_
      obtain ⟨c, hc, hm⟩ := Node.mem_nodesOntoAll.mp hm
      exact absurd hkind ((sound_parts parts body hvalid c hc).kind_ne m hm)
    have henters : Lower.Keeps SameRecords (Lower.enter (Item.function parts body).node) :=
      Lower.keeps_enter fun _ => inferInstance
    have hsame : SameRecords s s₂ := Rough.trans (henters.rel henter) (this.rel hchildren)
    have hother : name ≠ parts.name.node.text := by
      rw [Leaf.text_node]
      exact Ne.symm hname
    rw [← hsame.lookup?, ← lookup?_exitFuncDef rfl hexit hother, hr]

/-- What is found behind a thing and others, from what is found behind it and behind them. -/
theorem Finds.cons {E : Emission} {i : Item} {items : List Item} {s s₁ s₂ : Lowering}
    (h : Finds E [i] s s₁) (hnext : s₁.labels.next = s.labels.next + i.span)
    (hrest : Finds E items s₁ s₂) : Finds E (i :: items) s s₂ := by
  intro name r hr
  -- what is found was defined behind the first thing, by it, or before it
  obtain hlast | ⟨hr₁, hnone⟩ := hrest name r hr
  · rw [hnext] at hlast
    exact .inl hlast.cons
  · obtain ⟨pre, parts, body, post, hitems, hname, hpost, hcode⟩ | ⟨hr, hfirst⟩ := h name r hr₁
    · have hrname := name_of_lookup? hr
      obtain ⟨rfl, rfl, rfl⟩ : pre = [] ∧ .function parts body = i ∧ post = [] := by
        cases pre with
        | nil => exact ⟨rfl, by simpa using hitems.symm⟩
        | cons => simp at hitems
      refine .inl ⟨[], parts, body, items, rfl, hname, fun parts' body' hmem => ?_, hcode⟩
      rw [hrname]
      exact hnone parts' body' hmem
    · refine .inr ⟨hr, fun parts body hmem => ?_⟩
      obtain heq | hmem := List.mem_cons.mp hmem
      · exact hfirst parts body (by simp [heq])
      · exact hnone parts body hmem

/-- The things at the top are visited one after the other, each in the state that those before it leave.
-/
theorem visits_items {E : Emission} (items : List Item) (hvalid : ∀ i ∈ items, i.Valid) {s : Lowering}
    (hready : Ready (Node.idsAll (items.map Item.node)) s) (hinside : Inside none s)
    (hE : E.Agrees (items.map Item.node) s) :
    ∃ s', VisitsAll (items.map Item.node) s s' ∧
      Writes s (Node.idsAll (items.map Item.node)) (mainLines E items s.labels.next)
        (mainSpan items) s' ∧
      (∀ parts body, .function parts body ∈ items →
        Stored E (items.map Item.node) s parts body) ∧
      Finds E items s s' ∧ Passes E items s s' := by
  induction items generalizing s with
  | nil =>
    exact ⟨s, .nil s, .refl s, by simp, fun name r hr => .inr ⟨hr, by simp⟩, rfl, trivial,
      fun hclean => ⟨hclean, trivial⟩⟩
  | cons i items ih =>
    have hfirst : Ready i.node.ids s := hready.mem List.mem_cons_self
    -- a function writes nothing here, but it is stored; a statement the other way round
    have hitem : ∃ s₁, Visits i.node s s₁ ∧ Writes s i.node.ids (i.lines E s.labels.next) i.span s₁ ∧
        (∀ parts body, i = .function parts body →
          Stored E ((i :: items).map Item.node) s parts body) ∧ Finds E [i] s s₁ ∧
        Passes E [i] s s₁ := by
      cases i with
      | stmt x =>
        have hx : x.Valid (none : Option Label).isSome := hvalid (.stmt x) List.mem_cons_self
        obtain ⟨s₁, hvisits, hwrites, hthreads⟩ := visits_stmt x hx hfirst hinside hE.first
        refine ⟨s₁, hvisits, hwrites, fun parts body h => ?_, finds_stmt hx hvisits.run,
          hthreads.passes⟩
        cases h
      | function parts body =>
        have hbody : body.Valid false := hvalid (.function parts body) List.mem_cons_self
        obtain ⟨s₁, hvisits, hwrites, hpasses, hstored⟩ :=
          visits_function hbody hfirst hinside hE.first
        refine ⟨s₁, hvisits, hwrites, fun parts' body' h => ?_,
          finds_function hbody hvisits.run hstored, hpasses⟩
        cases h
        obtain ⟨r, hstored⟩ := hstored
        exact ⟨s, s₁, r, .here, hvisits.run, hstored⟩
    obtain ⟨s₁, hvisits₁, hwrites₁, hstored₁, hfinds₁, hpasses₁⟩ := hitem
    obtain ⟨s₂, hvisits₂, hwrites₂, hstored₂, hfinds₂, hpasses₂⟩ := ih
      (fun j hj => hvalid j (List.mem_cons_of_mem _ hj)) (hready.after (.of_writes hwrites₁))
      (hinside.passage hwrites₁.passage) (hE.after hvisits₁)
    have hfinds := hfinds₁.cons hwrites₁.passage.next hfinds₂
    rw [hwrites₁.passage.next] at hwrites₂
    refine ⟨s₂, .cons hvisits₁ hvisits₂, hwrites₁.trans hwrites₂, fun parts body hmem => ?_, hfinds,
      hpasses₁.cons hpasses₂⟩
    rcases List.mem_cons.mp hmem with heq | hmem
    · exact hstored₁ parts body heq.symm
    · obtain ⟨t, t', r, hentered, hrun, hrecord⟩ := hstored₂ parts body hmem
      exact ⟨t, t', r, .after hvisits₁.run hentered, hrun, hrecord⟩

/-- Nothing is left on a stack or kept behind. -/
structure Settled (s : Lowering) : Prop where
  buffers : s.buffers.stack = []
  scopes : s.scopes.stack = []
  frames : s.labels.frames = []
  loops : s.labels.loops = []
  fragments : s.fragments.isEmpty = true
  stmtCall : s.stmtCall = -1

/-- The state in which the top of a program was entered. -/
def Lowering.opened (s : Lowering) : Lowering :=
  { s with scopes := s.scopes.push, buffers := s.buffers.push }

/-- Notices of calls that were skipped change nothing else. -/
theorem reaches_notes (names : List String) (s : Lowering) :
    (names.forM fun name => Lower.note (.callSkipped name)).Reaches s
      fun s' => ∃ notices, s' = { s with notices } := by
  induction names generalizing s with
  | nil => exact ⟨s, rfl, s.notices, rfl⟩
  | cons name names ih =>
    obtain ⟨s', hrun, notices, rfl⟩ := ih { s with notices := s.notices.push (.callSkipped name) }
    exact ⟨_, hrun, notices, rfl⟩

/-- The exit of the program takes the main part and the functions that are called, and leaves nothing
behind. -/
theorem reaches_exitProgram {s₁ : Lowering} {label stdlib : String} {ids : List Int}
    {lines : List Line} {labels : Nat}
    (h : Writes (Lowering.started label stdlib).opened ids lines labels s₁) :
    Lower.exitProgram.Reaches s₁ fun s' =>
      Settled s' ∧ s'.errors = s₁.errors ∧ ∃ p, s'.program = some p ∧ p.main = lines.toArray ∧
        p.functions = s₁.functions.emitted := by
  -- the main part is the only fragment left, and the checks at the end find nothing else
  have hbuffers : s₁.buffers.stack = [lines.toArray] := by
    have htop : (Lowering.started label stdlib).opened.buffers.stack = [#[]] := rfl
    rw [h.passage.top htop]
    simp
  obtain ⟨f, hf⟩ := h.passage.scopes
  have hscopes : s₁.scopes.stack = [f {}] := hf
  have hframes : s₁.labels.frames = [] := h.passage.frames
  have hloops : s₁.labels.loops = [] := h.passage.loops
  have hfragments : s₁.fragments.isEmpty = true := by
    rw [Std.TreeMap.isEmpty_iff_forall_not_mem]
    intro i
    have hnone : s₁.fragments[i]? = none := congrFun h.fragment i
    simpa using hnone
  refine .bind (Lower.run_popBuffer hbuffers) ?_
  refine .bind (Lower.run_popScope hscopes) ?_
  refine .bind (Lower.run_get _) ?_
  refine .of_neg (by simp [Buffers.depth]) ?_
  refine .of_neg (by simp [hframes, hloops]) ?_
  refine .then (reaches_notes _ _) ?_
  rintro _ ⟨notices, rfl⟩
  exact ⟨_, rfl, ⟨rfl, rfl, hframes, hloops, hfragments, h.passage.stmtCall⟩, rfl, _, rfl, rfl, rfl⟩

/-- What the walk of a program comes to. -/
structure Lowers (E : Emission) (script : Script) (s s' : Lowering) : Prop where
  visits : Visits script.node s s'
  settled : Settled s'
  main : ∃ p, s'.program = some p ∧ p.main = (mainLines E script.items 0).toArray
  emitted : ∀ p, s'.program = some p →
    (p.functions.map (·.name)).Nodup ∧ ∀ r ∈ p.functions, LastDefined E script.items 0 r
  functions : ∀ parts body, .function parts body ∈ script.items → Stored E [script.node] s parts body
  legs : AlongItems (Leg.Emitted E) script.items .start
  defined : s'.errors = #[] → AlongItems Leg.Defined script.items .start

/-- The walk of a script comes to its end. -/
theorem lowers_script {E : Emission} {script : Script} {label stdlib : String}
    (hvalid : ∀ i ∈ script.items, i.Valid) (hnodup : script.node.ids.Nodup)
    (hnonneg : ∀ id ∈ script.node.ids, 0 ≤ id) (hE : E.Agrees [script.node] (.started label stdlib)) :
    ∃ s, Lowers E script (.started label stdlib) s := by
  -- ids are counted from zero, so none of them is the mark for no call
  have hready : Ready script.node.ids (Lowering.started label stdlib).opened := by
    refine ⟨List.cons_ne_nil _ _, List.cons_ne_nil _ _, hnodup, fun i _ => rfl, fun hmem => ?_⟩
    have hle : (0 : Int) ≤ -1 := hnonneg _ hmem
    omega
  have hitems : Ready (Node.idsAll (script.items.map Item.node))
      (Lowering.started label stdlib).opened := (hready.children.mem List.mem_cons_self).children
  have hE₁ : E.Agrees [.mk script.list.id .stmtList script.list.token (script.items.map Item.node)]
      (Lowering.started label stdlib).opened := hE.inside rfl
  obtain ⟨s₁, hvisits, hwrites, hstored, hfinds, hpasses⟩ := visits_items script.items hvalid hitems
    ⟨rfl, rfl⟩ (hE₁.inside rfl)
  obtain ⟨s₂, hexit, hsettled, herrors, p, hp, hmain, hfunctions⟩ := reaches_exitProgram hwrites
  have hlist : Visits (.mk script.list.id .stmtList script.list.token (script.items.map Item.node))
      (Lowering.started label stdlib).opened s₁ := .mk' (.other rfl rfl) rfl hvisits rfl
  refine ⟨s₂, .mk' (.other rfl rfl) rfl (.cons hlist (.nil s₁)) hexit, hsettled, ⟨p, hp, hmain⟩, ?_,
    ?_, hpasses.emitted, fun hclean => ?_⟩
  · intro p' hp'
    rw [hp] at hp'
    cases hp'
    rw [hfunctions]
    refine ⟨nodup_emitted _, fun r hr => ?_⟩
    obtain ⟨name, -, hlookup⟩ := List.mem_filterMap.mp hr
    -- no function is defined before the first thing
    exact (hfinds name r hlookup).resolve_right fun h => by cases h.1
  · intro parts body hmem
    obtain ⟨t, t', r, hentered, hrecord⟩ := hstored parts body hmem
    exact ⟨t, t', r, .inside rfl (.inside rfl hentered), hrecord⟩
  · rw [herrors] at hclean
    exact (hpasses.defined hclean).2

/-- Every tree of the parser is walked to its end, in a way that some emission agrees with. -/
theorem exists_lowers {src : Source} {root : Node} (h : parse src = .ok root)
    (label stdlib : String) :
    ∃ (script : Script) (E : Emission) (s : Lowering), root = script.node ∧
      (∀ i ∈ script.items, i.Valid) ∧ script.node.ids.Nodup ∧
      E.Agrees [script.node] (.started label stdlib) ∧ Lowers E script (.started label stdlib) s := by
  obtain ⟨script, hroot, hvalid, hnodup, hnonneg⟩ := exists_script_of_parse h
  have hids : (Node.idsAll [script.node]).Nodup := by
    rw [Node.idsAll, Node.idsAll, List.append_nil]
    exact hnodup
  obtain ⟨E, hE⟩ := exists_agrees hids (.started label stdlib)
  obtain ⟨s, hlowers⟩ := lowers_script hvalid hnodup hnonneg hE
  exact ⟨script, E, s, hroot, hvalid, hnodup, hE, hlowers⟩

/-- A source either has a syntax error and no tree, or it has a tree which is lowered to the end: all
stacks are empty then, no fragment is kept and no call is left to be discarded. -/
theorem lowering_total (src : Source) (label stdlib : String) :
    (∃ e, parse src = .error e) ∨
      ∃ root final, parse src = .ok root ∧ lower root label stdlib = .ok final ∧
        final.buffers.stack = [] ∧ final.scopes.stack = [] ∧ final.labels.frames = [] ∧
        final.labels.loops = [] ∧ final.fragments.isEmpty = true ∧ final.stmtCall = -1 := by
  cases hparse : parse src with
  | error e => exact .inl ⟨e, rfl⟩
  | ok root =>
    obtain ⟨script, E, s, rfl, -, hnodup, -, hlowers⟩ := exists_lowers hparse label stdlib
    have hlower := lower_eq_of_walk hnodup hlowers.visits.run
    exact .inr ⟨_, _, rfl, hlower, hlowers.settled.buffers, hlowers.settled.scopes,
      hlowers.settled.frames, hlowers.settled.loops, hlowers.settled.fragments,
      hlowers.settled.stmtCall⟩

/-- What a check finds out about the tree of a source and its lowering. -/
theorem exists_of_any {src : Source} {label stdlib : String} {check : Node → Lowering → Bool}
    (h : ((parse src).toOption.any fun root =>
      (lower root label stdlib).toOption.any (check root)) = true) :
    ∃ root final, parse src = .ok root ∧ lower root label stdlib = .ok final ∧
      check root final = true := by
  cases hparse : parse src with
  | error e => rw [hparse] at h; cases h
  | ok root =>
    rw [hparse] at h
    have hroot : (lower root label stdlib).toOption.any (check root) = true := h
    cases hlower : lower root label stdlib with
    | error violation => rw [hlower] at hroot; cases hroot
    | ok final =>
      rw [hlower] at hroot
      exact ⟨root, final, rfl, hlower, hroot⟩

end ScriptPir
