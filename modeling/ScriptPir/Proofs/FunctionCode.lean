import ScriptPir.Proofs.DeclaredOnce
import ScriptPir.Proofs.Erasure

/-!
# Functions are translated on their own

A function definition is entered with a new scope and with registers that start again, so the record
that is stored for it depends on the definition itself and on the number of the next label, and on
nothing else in the program (`function_code_eq`).

Registers start again in every subroutine, and names are known in their own subroutine only. So what the
body of a function is lowered to is a matter of the body and of the labels taken before it. The two
definitions may stand in different programs, at different places and with different ids, as long as both
are entered with the same label next.
-/

namespace ScriptPir

open Shape

/-- Trees with different ids define a function in one state only, and store one record for it. -/
theorem Defines.unique {ns : List Node} {s t t' : Lowering} {m : Node} {r r' : FunctionRecord Fragment}
    (hnodup : (Node.idsAll ns).Nodup) (h : Defines ns s m t r) (h' : Defines ns s m t' r')
    (hm : m ≠ .absent) : t = t' ∧ r = r' := by
  obtain ⟨hentered, t₁, u, u', henter, hchildren, -, hr, -⟩ := h
  obtain ⟨hentered', v₁, v, v', henter', hchildren', -, hr', -⟩ := h'
  obtain ⟨-, rfl⟩ := hentered.unique hnodup hentered' hm hm rfl
  cases henter.symm.trans henter'
  cases hchildren.symm.trans hchildren'
  exact ⟨rfl, Option.some.inj (hr.symm.trans hr')⟩

/-- The spot behind the parameters of a function is read off their names. -/
theorem entry_eq {parts parts' : FunctionParts}
    (h : parts.params.map (·.text) = parts'.params.map (·.text)) : parts.entry = parts'.entry := by
  have hentry : ∀ p : FunctionParts, p.entry = (p.params.map (·.text)).foldl Spot.declare .start :=
    fun p => by rw [FunctionParts.entry, List.foldl_map]
  rw [hentry, hentry, h]

/-- The names of parameters are read off their trees. -/
theorem params_text_eq {ps ps' : List Shape.Name}
    (h : Node.bareAll (ps.map (·.node)) = Node.bareAll (ps'.map (·.node))) :
    ps.map (·.text) = ps'.map (·.text) := by
  induction ps generalizing ps' with
  | nil =>
    cases ps' with
    | nil => rfl
    | cons => cases h
  | cons p ps ih =>
    cases ps' with
    | nil => cases h
    | cons p' ps' =>
      obtain ⟨hp, hps⟩ := Node.bareAll_cons_iff.mp h
      rw [List.map_cons, List.map_cons, Leaf.text_eq_of_bare hp, ih hps]

/-- Functions that are equal up to ids and positions are laid out as the same lines, with labels from
the same number on. -/
theorem function_lines_eq {E E' : Emission} {parts parts' : FunctionParts} {body body' : Stmts}
    (h : (Item.function parts body).node.bare = (Item.function parts' body').node.bare)
    (hE : Along (Leg.Emitted E) body.legs parts.entry)
    (hE' : Along (Leg.Emitted E') body'.legs parts'.entry) (next : Nat) :
    parts.name.text = parts'.name.text ∧
      parts.lines E body next = parts'.lines E' body' next := by
  simp only [Item.node, Node.bare_mk_iff, Node.bareAll_cons_iff] at h
  obtain ⟨-, -, hname, ⟨-, -, hparams⟩, hbody, -⟩ := h
  -- the body starts with the names of the parameters, and is laid out alike from there
  have hnames := params_text_eq hparams
  rw [entry_eq hnames] at hE
  have hlines := (sameLayout_stmts body body' (BlockTags.bare_iff hbody) hE hE').lines none next
  have hparam : ∀ ps : List Shape.Name, (ps.map fun p => Instr.param p.text) =
      (ps.map (·.text)).map Instr.param := fun ps => by rw [List.map_map]; rfl
  refine ⟨Leaf.text_eq_of_bare hname, ?_⟩
  rw [FunctionParts.lines, FunctionParts.lines, hparam, hparam, hnames, hlines]

/-! ## Entering a function

To apply the theorem to concrete programs, the state in which a function is entered has to be found.
It is computed by walking what stands before the definition. -/

/-- A node that is entered behind some trees is entered behind their walk. -/
theorem entered_append {pre ns : List Node} {s s' t : Lowering} {m : Node}
    (hwalk : (Lower.walkAll pre).run s = .ok ((), s')) (h : Entered ns s' m t) :
    Entered (pre ++ ns) s m t := by
  induction pre generalizing s with
  | nil =>
    cases hwalk
    exact h
  | cons n pre ih =>
    obtain ⟨s₁, hfirst, hrest⟩ := Lower.exists_of_walkAll hwalk
    exact .after hfirst (ih hrest)

/-- The first function definition at the top of a program, and the number of labels that are taken
before it. -/
def Node.firstFunction? : Node → Option (Node × Nat)
  | .mk _ .program _ [.mk _ .stmtList _ items] =>
    match items.dropWhile (·.kind ≠ .funcDef),
      (Lower.walkAll (items.takeWhile (·.kind ≠ .funcDef))).run
        (Lowering.started "" defaultStdlib).opened with
    | f :: _, .ok (_, s) => some (f, s.labels.next)
    | _, _ => none
  | _ => none

/-- The first function of a program is entered, with the labels taken that were counted. -/
theorem exists_entered_of_firstFunction? {root f : Node} {n : Nat}
    (h : root.firstFunction? = some (f, n)) :
    ∃ t, Entered [root] (.started "" defaultStdlib) f t ∧ t.labels.next = n := by
  unfold Node.firstFunction? at h
  split at h
  · rename_i items
    split at h
    · rename_i f' post _ t hdrop hwalk
      cases h
      have hitems : items = items.takeWhile (·.kind ≠ .funcDef) ++ f :: post := by
        rw [← hdrop, List.takeWhile_append_dropWhile]
      rw [hitems]
      exact ⟨t, .inside rfl (.inside rfl (entered_append hwalk .here)), rfl⟩
    · cases h
  · cases h

/-! ## Two programs

The two records are compared through the layouts of the bodies, which are equal since the definitions
are equal up to ids and positions, and both start from the spot at the entry. -/

/-- A function definition that the translation of a program enters is stored as its lines. -/
theorem exists_defines {src : Source} {root f : Node} {t : Lowering} (hparse : parse src = .ok root)
    {label stdlib : String} (hentered : Entered [root] (.started label stdlib) f t)
    (hkind : f.kind = .funcDef) :
    ∃ (E : Emission) (parts : FunctionParts) (body : Stmts) (r : FunctionRecord Fragment),
      f = (Item.function parts body).node ∧ Along (Leg.Emitted E) body.legs parts.entry ∧
      Defines [root] (.started label stdlib) f t r ∧ r.name = parts.name.text ∧
      r.code = (parts.lines E body t.labels.next).toArray := by
  obtain ⟨script, E, s, rfl, hvalid, hnodup, -, hlowers⟩ := exists_lowers hparse label stdlib
  have hpresent : f ≠ .absent := by
    rintro rfl
    cases hkind
  obtain ⟨parts, body, hmem, rfl⟩ := Script.exists_function hvalid (hentered.mem hpresent) hkind
  obtain ⟨σ, hbody⟩ := exists_along_of_mem hlowers.legs hmem
  obtain ⟨t', r, hdefines, hname, hcode⟩ := (hlowers.functions parts body hmem).defines
  -- a definition is entered once
  rw [← idsAll_singleton] at hnodup
  obtain ⟨-, rfl⟩ := hdefines.entered.unique hnodup hentered hpresent hpresent rfl
  exact ⟨E, parts, body, r, rfl, hbody, hdefines, hname, hcode⟩

/-- Two function definitions that are equal up to ids and positions, and are entered when as many labels
are taken, are stored under one name and with the same code, in whatever programs they stand. -/
theorem function_code_eq {src src' : Source} {root root' f f' : Node} {t t' : Lowering}
    (hparse : parse src = .ok root) (hparse' : parse src' = .ok root')
    {label stdlib label' stdlib' : String} (hentered : Entered [root] (.started label stdlib) f t)
    (hentered' : Entered [root'] (.started label' stdlib') f' t') (hkind : f.kind = .funcDef)
    (hbare : f.bare = f'.bare) (hnext : t.labels.next = t'.labels.next) :
    ∃ r r' : FunctionRecord Fragment, Defines [root] (.started label stdlib) f t r ∧
      Defines [root'] (.started label' stdlib') f' t' r' ∧ r.name = r'.name ∧ r.code = r'.code ∧
      r.render = r'.render := by
  have hkind' : f'.kind = .funcDef := by rw [← Node.kind_eq_of_bare hbare, hkind]
  obtain ⟨E, parts, body, r, rfl, hE, hdefines, hname, hcode⟩ := exists_defines hparse hentered hkind
  obtain ⟨E', parts', body', r', rfl, hE', hdefines', hname', hcode'⟩ :=
    exists_defines hparse' hentered' hkind'
  -- both records hold the lines of their definitions
  obtain ⟨hsame, hlines⟩ := function_lines_eq hbare hE hE' t.labels.next
  have hnames : r.name = r'.name := by rw [hname, hname', hsame]
  have hcodes : r.code = r'.code := by rw [hcode, hcode', ← hnext, hlines]
  refine ⟨r, r', hdefines, hdefines', hnames, hcodes, ?_⟩
  rw [FunctionRecord.render, FunctionRecord.render, hnames, hcodes]

/-- A program that only defines a function and calls it. -/
def lonely : Source := .ofString "def f(x, y)
  if x > 1
    y += x * 2
  end
  return g(y)
end
f(1, 2)
"

/-- A program with the same function among others, and with errors. -/
def crowded : Source := .ofString "z += 1
y = f($a)
def f(x, y)
  if  x > 1   # two blanks
    y += x*2
  end
  return g( y )
end
def g(x)
  w -= x
end
"

/-- Applied to the two programs above. -/
theorem function_code_eq_crowded :
    ∃ (root root' f f' : Node) (t t' : Lowering) (r r' : FunctionRecord Fragment),
      parse lonely = .ok root ∧ parse crowded = .ok root' ∧
      Entered [root] (.started "" defaultStdlib) f t ∧
      Entered [root'] (.started "" defaultStdlib) f' t' ∧ f.kind = .funcDef ∧ f.bare = f'.bare ∧
      t.labels.next = t'.labels.next ∧ Defines [root] (.started "" defaultStdlib) f t r ∧
      Defines [root'] (.started "" defaultStdlib) f' t' r' ∧ r.name = r'.name ∧ r.code = r'.code ∧
      r.render = r'.render := by
  -- that the definitions are equal up to ids and positions, and the counters too, is decided by running
  -- both
  have hok : ((parse lonely).toOption.any fun root => (parse crowded).toOption.any fun root' =>
      root.firstFunction?.any fun x => root'.firstFunction?.any fun y =>
        x.1.kind = .funcDef && x.1.bare = y.1.bare && x.2 = y.2) = true := by decide +kernel
  cases hparse : parse lonely with
  | error e => rw [hparse] at hok; cases hok
  | ok root =>
    cases hparse' : parse crowded with
    | error e => rw [hparse, hparse'] at hok; cases hok
    | ok root' =>
      rw [hparse, hparse'] at hok
      simp only [Except.toOption, Option.any_some, Option.any_eq_true, Bool.and_eq_true,
        decide_eq_true_eq] at hok
      obtain ⟨⟨f, n⟩, hf, ⟨f', n'⟩, hf', ⟨hkind, hbare⟩, rfl⟩ := hok
      obtain ⟨t, hentered, hnext⟩ := exists_entered_of_firstFunction? hf
      obtain ⟨t', hentered', hnext'⟩ := exists_entered_of_firstFunction? hf'
      have hlabels : t.labels.next = t'.labels.next := hnext.trans hnext'.symm
      obtain ⟨r, r', hrest⟩ :=
        function_code_eq hparse hparse' hentered hentered' hkind hbare hlabels
      exact ⟨root, root', f, f', t, t', r, r', rfl, rfl, hentered, hentered', hkind, hbare, hlabels,
        hrest⟩

end ScriptPir
