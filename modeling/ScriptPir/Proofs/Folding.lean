import ScriptPir.Proofs.Exits

/-!
# What folding keeps

A value that is remembered is that of a literal, one that was folded of two constants or of one, or a
place. A property that holds of places, and that folding keeps, therefore is one of all values of a
program as soon as its literals have it.

* `fold_cases` — all that two constants can be folded to;
* `Foldable P` — folding keeps the property `P`;
* `Lowering.Holds.of_walk` — the walk of a tree keeps it for all values that are remembered.

The properties are those of constants: that a float is finite, that a string is well quoted, that it
ends in no backslash. None of them is a matter of places, so a place has all of them. Each property is
proved twice, for literals and for folding, and the walk does the rest.
-/

namespace ScriptPir

/-! ## Folding

The inversion lemmas of `fold`: a result is an integer, a checked float, two strings together or
copies of a string, and nothing else. -/

theorem ints_cases {op : String} {a b : Int64} {v : Value} (h : Fold.ints op a b = .ok v) :
    ∃ n, v = .int n := by
  unfold Fold.ints at h
  split at h <;> (try split at h) <;> cases h <;> exact ⟨_, rfl⟩

/-- Floats are folded to a float that was checked. -/
theorem floats_cases {op : String} {kl kr : ValueKind} {a b : Float} {v : Value}
    (h : Fold.floats op kl kr a b = .ok v) : ∃ x, Fold.finite x = .ok v := by
  unfold Fold.floats at h
  split at h <;> (try split at h) <;> first | exact ⟨_, h⟩ | cases h

/-- The check keeps the float, and says that it is finite. -/
theorem finite_eq_ok {x : Float} {v : Value} (h : Fold.finite x = .ok v) :
    v = .float x ∧ (Numeral.Binary64.ofFloat x).isFinite = true := by
  unfold Fold.finite at h
  split at h
  · exact ⟨(Except.ok.inj h).symm, ‹_›⟩
  · cases h

/-- What two constants are folded to. -/
theorem fold_cases {op : String} {l r v : Value} (h : fold op l r = .ok v) :
    (∃ n, v = .int n) ∨ (∃ x, Fold.finite x = .ok v) ∨
      (∃ a b, l = .str a ∧ r = .str b ∧ v = .str (a ++ b)) ∨
      ∃ a n, (l = .str a ∨ r = .str a) ∧ Fold.repeated a n = .ok v := by
  -- in the order of the table: integers, doubles, a text and a text, a text and a count, the same
  -- turned round
  unfold fold at h
  simp only at h
  split at h
  · exact .inl (ints_cases h)
  iterate 3 exact .inr (.inl (floats_cases h))
  · split at h
    · exact .inr (.inr (.inl ⟨_, _, rfl, rfl, (Except.ok.inj h).symm⟩))
    · cases h
  · split at h
    · exact .inr (.inr (.inr ⟨_, _, .inl rfl, h⟩))
    · cases h
  · split at h
    · exact .inr (.inr (.inr ⟨_, _, .inr rfl, h⟩))
    · cases h
  · cases h

/-- An integer is negated to an integer, and a float to its negation. -/
theorem foldNeg_cases {l v : Value} (h : foldNeg l = .ok v) :
    (∃ n, v = .int n) ∨ ∃ x, l = .float x ∧ v = .float (-x) := by
  unfold foldNeg at h
  split at h
  · exact .inl ⟨_, (Except.ok.inj h).symm⟩
  · exact .inr ⟨_, rfl, (Except.ok.inj h).symm⟩
  · cases h

/-- A property of values that places have and that folding keeps. -/
class Foldable (P : Value → Prop) : Prop where
  dynamic (place : Ref) : P (.dynamic place)
  fold {op : String} {l r v : Value} : P l → P r → ScriptPir.fold op l r = .ok v → P v
  foldNeg {l v : Value} : P l → ScriptPir.foldNeg l = .ok v → P v

/-! ## Tables

A property is carried along the walk as the relation `KeepsHolding`: if all remembered values have it
before a step, they have it afterwards. For most steps this is trivial since they remember nothing. -/

/-- All values that are remembered have a property. -/
def Lowering.Holds (P : Value → Prop) (s : Lowering) : Prop :=
  ∀ i v, s.value i = some v → P v

/-- The values that are remembered keep a property. -/
def KeepsHolding (P : Value → Prop) (s s' : Lowering) : Prop := s.Holds P → s'.Holds P

variable {P : Value → Prop}

instance : Unscoped (KeepsHolding P) where
  refl _ := id
  trans h h' := h' ∘ h
  buffers _ _ := id
  fragments _ _ := id
  labels _ _ _ := id
  registers _ := id
  notices _ _ := id
  stmtCall _ _ := id
  scopes _ _ := id
  errors _ _ _ := id
  program _ _ := id

namespace Lower

instance : Keeps (KeepsHolding P) resetRegisters := ⟨fun h => by cases h; exact id⟩

instance (callee : String) : Keeps (KeepsHolding P) (noteCall callee) :=
  ⟨fun h => by cases h; exact id⟩

instance (r : FunctionRecord Fragment) : Keeps (KeepsHolding P) (storeFunction r) :=
  ⟨fun h => by cases h; exact id⟩

instance (name : String) : Keeps (KeepsHolding P) (noteLibrary name) := by
  refine ⟨@fun s a s' h => ?_⟩
  cases h
  show KeepsHolding P s (if s.requires.contains name then s else _)
  split <;> exact id

/-- To remember a value with the property keeps it. -/
theorem keeps_setValue_of_holds {v : Value} (hv : P v) (n : Node) :
    Keeps (KeepsHolding P) (setValue n v) := by
  refine ⟨@fun s a s' h => ?_⟩
  cases h
  intro hs i w hw
  rw [value_insert] at hw
  by_cases hi : i = n.id
  · subst hi
    rw [Function.update_self] at hw
    cases hw
    exact hv
  · rw [Function.update_of_ne hi] at hw
    exact hs i w hw

/-- What is read off the values of a state has the property that they all have. -/
theorem keeps_valueOf_bind {α : Type} {n : Node} {f : Value → Lower α}
    (h : ∀ v, P v → Keeps (KeepsHolding P) (f v)) :
    Keeps (KeepsHolding P) (valueOf n >>= f) := by
  refine ⟨@fun s a s' hrun hs => ?_⟩
  obtain ⟨v, hv, hrest⟩ := of_bind_valueOf hrun
  exact (h v (hs _ v hv)).rel hrest hs

/-- A step that needs a child is tried with that child only. -/
theorem keeps_child_bind {α : Type} {n : Node} {i : Nat} {f : Node → Lower α}
    (h : ∀ c, n.child? i = some c → Keeps (KeepsHolding P) (f c)) :
    Keeps (KeepsHolding P) (child n i >>= f) := by
  refine ⟨@fun s a s' hrun => ?_⟩
  obtain ⟨c, hc, hrest⟩ := of_bind_child hrun
  exact (h c hc).rel hrest

/-- A value is handed on from a child to its parent. -/
theorem keeps_handOn (n : Node) (i : Nat) :
    Keeps (KeepsHolding P) (do setValue n (← valueOf (← child n i))) :=
  keeps_child_bind fun _ _ => keeps_valueOf_bind fun _ hv => keeps_setValue_of_holds hv n

theorem keeps_operator_bind {α : Type} {n : Node} {f : Node → Lower α}
    (h : ∀ op, Keeps (KeepsHolding P) (f op)) : Keeps (KeepsHolding P) (operator n >>= f) :=
  inferInstance

/-- A literal keeps the property if its value has it. -/
theorem keeps_exitLiteral {n : Node}
    (h : ∀ c v, n.child? 0 = some c → literal c.token = .ok v → P v) :
    Keeps (KeepsHolding P) (exitLiteral n) := by
  refine keeps_child_bind fun c hc => ?_
  split
  · rename_i v hv
    exact keeps_setValue_of_holds (h c v hc hv) n
  · infer_instance

theorem keeps_exitCond (n : Node) : Keeps (KeepsHolding P) (exitCond n) := by
  have := keeps_handOn (P := P) n 0
  exact inferInstanceAs (Keeps (KeepsHolding P) (stash n >>= _))

variable [Foldable P]

instance (n : Node) (place : Ref) : Keeps (KeepsHolding P) (setValue n (.dynamic place)) :=
  keeps_setValue_of_holds (Foldable.dynamic place) n

/-- A minus sign is folded, or its value is a place. -/
theorem keeps_exitNegation (n : Node) {v : Value} (hv : P v) : Keeps (KeepsHolding P) (exitNegation n v) := by
  unfold exitNegation
  cases hfold : foldNeg v with
  | ok folded =>
    have := keeps_setValue_of_holds (Foldable.foldNeg hv hfold) n
    infer_instance
  | error e => infer_instance

/-- A sign keeps the property. -/
theorem keeps_exitUnary (n : Node) : Keeps (KeepsHolding P) (exitUnary n) := by
  refine keeps_operator_bind fun op => keeps_child_bind fun c _ => keeps_valueOf_bind fun v hv => ?_
  have := keeps_exitNegation n hv
  split <;> infer_instance

/-- Arithmetic keeps the property, as it is folded or its value is a place. -/
theorem keeps_exitBinary (n : Node) : Keeps (KeepsHolding P) (exitBinary n) := by
  refine keeps_operator_bind fun op => keeps_child_bind fun c _ => keeps_valueOf_bind fun l hl => ?_
  refine keeps_child_bind fun d _ => keeps_valueOf_bind fun r hr => ?_
  cases hfold : fold op.text l r with
  | ok folded =>
    have := keeps_setValue_of_holds (Foldable.fold hl hr hfold) n
    infer_instance
  | error e => infer_instance

/-- A property that folding keeps is kept by an exit, if the literals have it. -/
theorem keeps_holds_exit {n : Node}
    (h : n.kind = .literal → ∀ c v, n.child? 0 = some c → literal c.token = .ok v → P v) :
    Keeps (KeepsHolding P) (exit n) := by
  -- only exits of the kinds of constants touch the values that are held
  cases hconstant : n.kind.isConstant with
  | false =>
    exact keeps_exit_computed hconstant (fun _ => inferInstance) (fun _ _ => inferInstance)
      fun _ _ => inferInstance
  | true =>
    unfold exit
    cases hkind : n.kind with
    | literal => exact keeps_exitLiteral (h hkind)
    | paren | arg => exact keeps_handOn n _
    | cond => exact keeps_exitCond n
    | unary => exact keeps_exitUnary n
    | binary => exact keeps_exitBinary n
    | _ =>
      rw [hkind] at hconstant
      cases hconstant

end Lower

/-- A property that folding keeps is one of all values of a tree, if the literals have it. -/
theorem Lowering.Holds.of_walk [Foldable P] {root : Node} {s s' : Lowering} (hs : s.Holds P)
    (hroot : ∀ n ∈ root.nodesOnto [], n.kind = .literal → ∀ c v, n.child? 0 = some c →
      literal c.token = .ok v → P v)
    (hwalk : (Lower.walk root).run s = .ok ((), s')) : s'.Holds P := by
  have : Lower.Keeps (KeepsHolding P) (Lower.walk root) :=
    Lower.keeps_walk_of fun m hm =>
      ⟨Lower.keeps_enter fun _ => inferInstance, Lower.keeps_holds_exit (hroot m hm)⟩
  exact this.rel hwalk hs

end ScriptPir
