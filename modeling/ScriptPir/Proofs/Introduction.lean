import ScriptPir.Proofs.Declarations
import ScriptPir.Proofs.Exits

/-!
# How a variable is introduced

A leg that defines a variable declares it if its name is new, and constructs it in the next line. Other
legs declare nothing. The class of the new object is the one that the first definition gives, by the kind of
value that is known for it (`Value.className`).

* `introduces_leg` — what a leg with a definition is lowered to;
* `count_declared` — some legs declare every variable that they define and that is not known before, once;
* `constructedAs_legs` — and construct it of the class that its first definition has.
* `Node.definedClass?` — the class of the value that is known for what an exit defines;
* `Introduces` — a variable is declared, and constructed in the line behind;
* `Silent` — instructions that declare nothing, which is all code of expressions.

The name of the class is a specification of its own, with the three names written out; `Value.name_cls`
compares it with the one the lowering uses.
-/

namespace ScriptPir

open Shape

/-! ## Definitions

The specification side: which class a definition gives is told by its node and by the kind of value
that is known for what it assigns; which definition counts is the first one in the order of the walk. -/

/-- The variable that a line declares. -/
def Line.declared? : Line → Option String
  | .instr i => i.declared?
  | .label _ => none

/-- The name of the class that fits a value: constants that are floats or strings have a class of their own.
All others start as integers, and so does what is known at run time only. -/
def Value.className : Value → String
  | .int _ => "Integer"
  | .float _ => "Double"
  | .str _ => "String"
  | .dynamic _ => "Integer"

theorem Value.name_cls (v : Value) : v.cls.name = v.className := by
  cases v <;> rfl

/-- The name of the class of the value that a definition gives to its variable. -/
def Node.definedClass? (value : Int → Option Value) (n : Node) : Option String :=
  match n.kind with
  | .assign => (n.child? 2).bind fun e => (value e.id).map Value.className
  | .arrayInit => some "ResizablePMCArray"
  | .globalGet => some "Integer"
  | _ => none

/-- The first of some nodes that defines a variable. -/
def firstDefinition? (nodes : List Node) (x : String) : Option Node :=
  nodes.find? (·.defines? = some x)

/-- The first definition of a name is in the first of two parts, if that has one. -/
theorem firstDefinition?_append (ns ms : List Node) (x : String) :
    firstDefinition? (ns ++ ms) x = (firstDefinition? ns x).or (firstDefinition? ms x) :=
  List.find?_append

/-- A node that defines a name is the first definition of that name, and of no other. -/
theorem firstDefinition?_cons {n : Node} {y : String} (hy : n.defines? = some y) (ns : List Node)
    (x : String) : firstDefinition? (n :: ns) x = if y = x then some n else firstDefinition? ns x := by
  unfold firstDefinition?
  by_cases hx : y = x <;> simp [hy, hx]

/-- Right behind its declaration, every variable is constructed, of the class whose name is given for it. -/
def ConstructedAs (className? : String → Option String) (lines : List Line) : Prop :=
  ∀ before x after, lines = before ++ .instr (.declare x) :: after →
    ∃ cls rest, className? x = some cls.name ∧ after = .instr (.construct (.name x) cls) :: rest

/-! ## Code

The implementation side, without looking at legs yet: code that declares nothing (`Silent`), and code
that declares one name and constructs it in the next line (`Introduces`). What a leg emits is one or
the other. -/

/-- Instructions that declare nothing. -/
def Silent (code : List Instr) : Prop := ∀ i ∈ code, i.declared? = none

/-- Instructions declare a variable that is not known, construct it next, and declare nothing else. -/
def Introduces (known : Bool) (x : String) (cls : Class) (code : List Instr) : Prop :=
  if known then Silent code
  else ∃ rest, Silent rest ∧ code = .declare x :: .construct (.name x) cls :: rest

section Code

variable {code code' : List Instr} {known : Bool} {x : String} {cls : Class}
  {cls? : String → Option String}

theorem Silent.append (h : Silent code) (h' : Silent code') : Silent (code ++ code') :=
  List.forall_mem_append.mpr ⟨h, h'⟩

theorem Silent.cons {i : Instr} (hi : i.declared? = none) (h : Silent code) : Silent (i :: code) :=
  List.forall_mem_cons.mpr ⟨hi, h⟩

theorem silent_nil : Silent [] := fun _ hi => (List.not_mem_nil hi).elim

/-- The code of an expression is silent: it writes to registers only. -/
theorem Shape.Confined.isSilent {α : Type} {s : Supply} {x : Lowered α} (h : Confined s x) :
    Silent x.code := fun i hi => (h.silent i hi).1

/-- There are no declared names in silent code. -/
theorem Silent.declared (h : Silent code) : (instrs code).filterMap Line.declared? = [] := by
  rw [List.filterMap_eq_nil_iff]
  intro line hline
  obtain ⟨i, hi, rfl⟩ := List.mem_map.mp hline
  exact h i hi

/-- Code that introduces a name declares it once, unless it is known. -/
theorem Introduces.declared (h : Introduces known x cls code) :
    (instrs code).filterMap Line.declared? = if known then [] else [x] := by
  unfold Introduces at h
  split at h
  · rw [if_pos ‹_›, h.declared]
  · obtain ⟨rest, hrest, rfl⟩ := h
    rw [if_neg ‹_›]
    show x :: (instrs rest).filterMap Line.declared? = [x]
    rw [hrest.declared]

/-- If all names in two parts are constructed behind their declarations, this is so in both together. -/
theorem ConstructedAs.append {xs ys : List Line} (hx : ConstructedAs cls? xs)
    (hy : ConstructedAs cls? ys) : ConstructedAs cls? (xs ++ ys) := by
  intro before x after hlines
  obtain ⟨rest, hxs, rfl⟩ | ⟨rest, -, hys⟩ := split_append hlines
  · obtain ⟨cls, tail, hcls, rfl⟩ := hx before x rest hxs
    exact ⟨cls, tail ++ ys, hcls, rfl⟩
  · exact hy rest x after hys

/-- Lines without declarations need no construction. -/
theorem constructedAs_of_declared {lines : List Line} (h : lines.filterMap Line.declared? = []) :
    ConstructedAs cls? lines := by
  rintro before x after rfl
  have hnone := List.filterMap_eq_nil_iff.mp h (.instr (.declare x)) (by simp)
  cases hnone

/-- A name that is introduced is constructed of the class that it is introduced with. -/
theorem Introduces.constructedAs (h : Introduces known x cls code)
    (hcls : known = false → cls? x = some cls.name) : ConstructedAs cls? (instrs code) := by
  unfold Introduces at h
  split at h
  · exact constructedAs_of_declared h.declared
  · rename_i hnew
    obtain ⟨rest, hrest, rfl⟩ := h
    have hpair : ConstructedAs cls? (instrs [.declare x, .construct (.name x) cls]) := by
      intro before y after hlines
      cases before with
      | nil =>
        obtain ⟨hy, rfl⟩ := List.cons.inj hlines
        cases hy
        exact ⟨cls, [], hcls (Bool.eq_false_of_not_eq_true hnew), rfl⟩
      | cons line before =>
        -- behind the declaration there is no other
        obtain ⟨-, hlines⟩ := List.cons.inj hlines
        have hmem : Line.instr (.declare y) ∈ instrs [.construct (.name x) cls] := by
          rw [show instrs [.construct (.name x) cls] = _ from hlines]
          simp
        simp [instrs] at hmem
    exact hpair.append (constructedAs_of_declared hrest.declared)

end Code

/-! ## Legs

Each kind of leg is followed through the code that it emits. Only plain assignments, empty arrays and
globals that are read define a variable; the other legs are silent, and so are definitions of a known
name. -/

namespace Shape

/-- The variable that an assignment defines. -/
def Assignment.defines? : Assignment → Option String
  | .assign _ name op _ => if op.text = "=" then some name.text else none
  | .arrayInit _ name _ | .globalGet _ name .. => some name.text
  | .store .. => none

/-- The node of an assignment defines the same name as the assignment. -/
theorem Assignment.defines?_node (a : Assignment) : a.node.defines? = a.defines? := by
  cases a with
  | assign id name op value =>
    show (if Option.any (fun o : Node => o.text = "=") (some op.node) then some name.node.text
      else none) = _
    simp [Assignment.defines?]
  | arrayInit id name op | globalGet id name op => exact congrArg some name.text_node
  | store => rfl

/-- The node of a leg that defines a variable. -/
def Leg.definer? : Leg → Option Node
  | .simple (.assignment a) => if a.node.defines?.isSome then some a.node else none
  | .simple _ | .value _ => none

/-- A leg that defines is a simple statement that assigns to a name. -/
theorem Leg.exists_of_definer? {l : Leg} {n : Node} (h : l.definer? = some n) :
    ∃ a x, l = .simple (.assignment a) ∧ n = a.node ∧ a.defines? = some x := by
  cases l with
  | value => cases h
  | simple s =>
    cases s with
    | globalSet | require | target | call => cases h
    | assignment a =>
      rw [Leg.definer?] at h
      split at h
      · rename_i hsome
        cases h
        obtain ⟨x, hx⟩ := Option.isSome_iff_exists.mp hsome
        exact ⟨a, x, rfl, rfl, a.defines?_node ▸ hx⟩
      · cases h

@[simp] theorem filterMap_definer?_value (e : Expr) (legs : List Leg) :
    (.value e :: legs).filterMap Leg.definer? = legs.filterMap Leg.definer? := rfl

/-- An emission has what a leg is lowered to at a spot with the same variables. -/
def Leg.Renders (E : Emission) (l : Leg) (σ : Spot) : Prop :=
  ∃ σ₀ : Spot, σ₀.names = σ.names ∧ l.Emitted E σ₀

section Legs

variable {E : Emission} {σ σ' : Spot} {l : Leg} {legs : List Leg} {x : String}

/-- A declaration with its construction in front of silent code introduces the name: if the name is
known, the declaration is empty. -/
theorem introduces_declaration {cls : Class} {construct code rest : List Instr} (hcode : Silent code)
    (hrest : Silent rest) (h : construct ++ code = .construct (.name x) cls :: rest) :
    Introduces (σ.names.contains x) x cls (σ.declaration x construct ++ code) := by
  unfold Introduces Spot.declaration
  split
  · exact hcode
  · exact ⟨rest, hrest, by rw [List.cons_append, h]⟩

/-- To compute a value and to assign it is silent. -/
theorem silent_assign (name op : String) (value : Expr) (σ : Spot) :
    Silent ((value.assigned σ).code ++ [if op = "**=" then .assignPower name (value.assigned σ).result
      else .assign name op (value.assigned σ).result]) := by
  apply (confined_lowered value _).isSilent.append
  refine .cons ?_ silent_nil
  split <;> rfl

/-- An assignment that defines a variable introduces it, of the class of its value. -/
theorem introduces_assignment {a : Assignment} (hx : a.defines? = some x)
    (h : (Simple.assignment a).PartsEmitted E σ) :
    ∃ cls : Class, a.node.definedClass? (some <| E.value ·) = some cls.name ∧
      Introduces (σ.names.contains x) x cls (a.code σ) := by
  cases a with
  | assign id name op value =>
    rw [Assignment.defines?] at hx
    -- only a plain assignment defines its variable; a compound one needs it declared
    split at hx
    · rename_i hop
      cases hx
      refine ⟨(value.assigned σ).result.cls, ?_, ?_⟩
      · have hvalue : E.value value.id = (value.assigned σ).result := (Expr.Emitted.at h).2
        have hchild : (Assignment.assign id name op value).node.child? 2 = some value.node :=
          Node.child?_eq_some.mpr ⟨rfl, value.node_ne_absent⟩
        rw [Value.name_cls, ← hvalue, ← Expr.node_id]
        show ((Assignment.assign id name op value).node.child? 2).bind _ = _
        rw [hchild]
        rfl
      · have hcode := silent_assign name.text op.text value σ
        rw [Assignment.code, if_pos hop, List.append_assoc]
        exact introduces_declaration hcode hcode rfl
    · cases hx
  | arrayInit id name op =>
    cases hx
    exact ⟨.array, rfl, introduces_declaration (.cons rfl silent_nil) silent_nil rfl⟩
  | globalGet id name op global =>
    cases hx
    exact ⟨.integer, rfl,
      introduces_declaration (.cons rfl silent_nil) (.cons rfl silent_nil) rfl⟩
  | store => cases hx

/-- An assignment that does not define a variable is silent. -/
theorem silent_assignment {a : Assignment} (h : a.defines? = none) (σ : Spot) : Silent (a.code σ) := by
  cases a with
  | assign id name op value =>
    rw [Assignment.defines?] at h
    split at h
    · cases h
    · rename_i hop
      rw [Assignment.code, if_neg hop]
      exact silent_assign name.text op.text value σ
  | arrayInit | globalGet => cases h
  | store id target index op value =>
    -- the index and the value are computed one after the other, then one instruction stores
    have hplace := (confined_lowered (.element target index) σ.reset.toSupply).isSilent
    have hvalue := (confined_lowered value ((Expr.element target index).assigned σ).supply).isSilent
    exact (hplace.append hvalue).append (.cons rfl silent_nil)

/-- A leg that does not define a variable is silent. -/
theorem silent_leg (h : l.Renders E σ) (hdefiner : l.definer? = none) : Silent (E.code l.id) := by
  obtain ⟨σ₀, -, hemitted⟩ := h
  -- nothing but an assignment has a definer, and an assignment with none declares nothing
  cases l with
  | value e =>
    have hcode : E.code (Leg.value e).id = _ := hemitted.at.1
    rw [hcode]
    exact (confined_lowered e _).isSilent
  | simple s =>
    have hcode : E.code (Leg.simple s).id = _ := hemitted.1
    rw [hcode]
    cases s with
    | assignment a =>
      rw [Leg.definer?] at hdefiner
      split at hdefiner
      · cases hdefiner
      · rename_i hnone
        rw [a.defines?_node, Option.not_isSome_iff_eq_none] at hnone
        exact silent_assignment hnone σ₀
    | globalSet id global op value =>
      exact (confined_lowered value _).isSilent.append (.cons rfl silent_nil)
    | require => exact silent_nil
    | target id code =>
      intro i hi
      obtain ⟨text, -, rfl⟩ := List.mem_map.mp hi
      rfl
    | call id parts args =>
      exact (confined_loweredArgs args _).isSilent.append (.cons rfl silent_nil)

/-- A leg that defines a variable introduces it, of the class that its node gives. -/
theorem introduces_leg {n : Node} (h : l.Renders E σ) (hdefiner : l.definer? = some n) :
    ∃ (x : String) (cls : Class), n.defines? = some x ∧
      n.definedClass? (some <| E.value ·) = some cls.name ∧
      Introduces (σ.names.contains x) x cls (E.code l.id) := by
  obtain ⟨a, x, rfl, rfl, hx⟩ := Leg.exists_of_definer? hdefiner
  obtain ⟨σ₀, hnames, hemitted⟩ := h
  obtain ⟨cls, hcls, hintroduces⟩ := introduces_assignment hx hemitted.2
  have hcode : E.code (Leg.simple (.assignment a)).id = a.code σ₀ := hemitted.1
  rw [hnames, ← hcode] at hintroduces
  exact ⟨x, cls, a.defines?_node.trans hx, hcls, hintroduces⟩

/-- To declare a name at spots with the same names leads to the same names. -/
theorem names_declare (h : σ'.names = σ.names) (x : String) :
    (σ'.declare x).names = (σ.declare x).names := by
  unfold Spot.declare
  rw [h]
  split
  · exact h
  · rfl

/-- Which variables are declared behind a leg depends on those declared before it only. -/
theorem names_after (l : Leg) (h : σ'.names = σ.names) : (l.after σ').names = (l.after σ).names := by
  cases l with
  | value => exact h
  | simple s =>
    cases s with
    | globalSet | require | target | call => exact h
    | assignment a =>
      cases a with
      | store => exact h
      | arrayInit | globalGet => exact names_declare h _
      | assign id name op value =>
        show (Assignment.after (.assign id name op value) σ').names = (Assignment.after _ σ).names
        rw [Assignment.after, Assignment.after]
        have hspend : (σ'.spend (value.assigned σ').supply).names =
            (σ.spend (value.assigned σ).supply).names := h
        -- a name that is assigned for the first time is declared, another one is not
        split
        · exact names_declare hspend _
        · exact hspend

/-- Which variables are declared behind some legs depends on those declared before them only. -/
theorem names_afterAll (legs : List Leg) (h : σ'.names = σ.names) :
    (afterAll legs σ').names = (afterAll legs σ).names := by
  induction legs generalizing σ σ' with
  | nil => exact h
  | cons l legs ih => exact ih (names_after l h)

/-- What an emission has for some legs, it has at any spot with the same names. -/
theorem Along.renders (h : Along (Leg.Emitted E) legs σ) (hnames : σ'.names = σ.names) :
    Along (Leg.Renders E) legs σ' := by
  induction legs generalizing σ σ' with
  | nil => trivial
  | cons l legs ih => exact ⟨⟨σ, hnames.symm, h.1⟩, ih h.2 (names_after l hnames)⟩

/-- Behind a leg a name is known if it was known before, or the leg defines it. -/
theorem contains_after_definer (l : Leg) (σ : Spot) (x : String) :
    (l.after σ).names.contains x = (σ.names.contains x || l.definer?.any (·.defines? = some x)) := by
  cases l with
  | value => exact (Bool.or_false _).symm
  | simple s =>
    cases s with
    | globalSet | require | target | call => exact (Bool.or_false _).symm
    | assignment a =>
      -- the definer of the leg is its node, if the assignment defines a name at all
      have hdefiner : (Leg.simple (.assignment a)).definer?.any (·.defines? = some x) =
          decide (a.defines? = some x) := by
        rw [Leg.definer?, a.defines?_node]
        cases hdefines : a.defines? <;> simp [a.defines?_node, hdefines]
      rw [hdefiner]
      show (a.after σ).names.contains x = _
      cases a with
      | store => exact (Bool.or_false _).symm
      | arrayInit | globalGet =>
        rw [Assignment.after, contains_declare]
        simp [Assignment.defines?]
      | assign id name op value =>
        rw [Assignment.after, Assignment.defines?]
        split
        · rw [contains_declare]
          simp [Spot.spend]
        · simp [Spot.spend]

/-- The legs declare every variable that they define and that is not known before, once. -/
theorem count_declared (h : Along (Leg.Renders E) legs σ) (x : String) :
    (legs.flatMap fun l => (instrs (E.code l.id)).filterMap Line.declared?).count x =
      if (firstDefinition? (legs.filterMap Leg.definer?) x).isSome ∧ σ.names.contains x = false then 1
      else 0 := by
  induction legs generalizing σ with
  | nil => rfl
  | cons l legs ih =>
    have hrest := ih h.2
    rw [contains_after_definer] at hrest
    rw [List.flatMap_cons, List.count_append, hrest]
    cases hdefiner : l.definer? with
    | none =>
      rw [(silent_leg h.1 hdefiner).declared, List.filterMap_cons_none hdefiner]
      simp
    | some n =>
      obtain ⟨y, cls, hy, -, hcode⟩ := introduces_leg h.1 hdefiner
      rw [hcode.declared, List.filterMap_cons_some hdefiner, firstDefinition?_cons hy]
      by_cases hxy : y = x
      -- a variable that is declared here is known to all legs behind
      · subst hxy
        cases hknown : σ.names.contains y <;> simp [hy]
      · cases hknown : σ.names.contains y <;> simp [hy, hxy]

/-- Where a leg declares a variable, it is the first to define it. -/
theorem constructedAs_legs {cls? : String → Option String} (earlier : List Node)
    (hearlier : ∀ x, σ.names.contains x = false → firstDefinition? earlier x = none)
    (hcls : ∀ x n cls, firstDefinition? (earlier ++ legs.filterMap Leg.definer?) x = some n →
      n.definedClass? (some <| E.value ·) = some cls → cls? x = some cls)
    (h : Along (Leg.Renders E) legs σ) : ∀ l ∈ legs, ConstructedAs cls? (instrs (E.code l.id)) := by
  -- `earlier` has the definitions of the legs before: what is not declared yet, none of them defines
  induction legs generalizing σ earlier with
  | nil =>
    intro l hl
    cases hl
  | cons l legs ih =>
    cases hdefiner : l.definer? with
    | none =>
      rw [List.filterMap_cons_none hdefiner] at hcls
      refine List.forall_mem_cons.mpr ⟨?_, ih _ (fun x hx => hearlier x ?_) hcls h.2⟩
      · exact constructedAs_of_declared (silent_leg h.1 hdefiner).declared
      · rw [contains_after_definer, hdefiner] at hx
        simpa using hx
    | some n =>
      obtain ⟨y, cls, hy, hclass, hcode⟩ := introduces_leg h.1 hdefiner
      rw [List.filterMap_cons_some hdefiner, List.append_cons] at hcls
      refine List.forall_mem_cons.mpr ⟨?_, ih _ (fun x hx => ?_) hcls h.2⟩
      · refine hcode.constructedAs fun hnew => hcls y n cls.name ?_ hclass
        rw [firstDefinition?_append, firstDefinition?_append, hearlier y hnew, firstDefinition?_cons hy,
          if_pos rfl]
        rfl
      · rw [contains_after_definer, hdefiner] at hx
        simp only [Option.any_some, Bool.or_eq_false_iff, decide_eq_false_iff_not, hy,
          Option.some.injEq] at hx
        rw [firstDefinition?_append, hearlier x hx.1, firstDefinition?_cons hy, if_neg hx.2]
        rfl

end Legs

end Shape

end ScriptPir
