import ScriptPir.Proofs.Doubles
import ScriptPir.Proofs.Folding
import ScriptPir.Proofs.Liveness
import ScriptPir.Proofs.Provenance
import ScriptPir.Proofs.Valuation

/-!
# Floats in the target code

A float that is remembered comes from a literal, from a fold that checks its result, or from a negation.
The text of a literal begins with a digit, so it names none of the special values, and a number beyond all
doubles is no literal.

* `foldable_isFinite` — folding keeps finiteness;
* `isFinite_of_literal` — the floats of a source are finite;
* `mem_specialTexts_iff` — the texts of doubles that are not finite;
* `floats_finite` — so all floats that are ever remembered for a program are finite, and with them the
  operands of its instructions.

That folds check their results is what makes the theorem go through, so nothing has to be known about
the operations themselves. The power of two floats may be anything, for instance.
-/

namespace ScriptPir

/-- A value is no float, or a finite one. -/
def Value.IsFinite : Value → Prop
  | float x => x.isFinite = true
  | _ => True

instance foldable_isFinite : Foldable Value.IsFinite where
  dynamic _ := trivial
  fold _ _ h := by
    obtain ⟨n, rfl⟩ | ⟨x, hx⟩ | ⟨a, b, -, -, rfl⟩ | ⟨a, n, -, hn⟩ := fold_cases h
    · trivial
    · obtain ⟨rfl, hfinite⟩ := finite_eq_ok hx
      exact (Numeral.Binary64.isFinite_ofFloat x).symm.trans hfinite
    · trivial
    · unfold Fold.repeated at hn
      split at hn <;> cases hn
      trivial
  foldNeg hl h := by
    obtain ⟨n, rfl⟩ | ⟨x, rfl, rfl⟩ := foldNeg_cases h
    · trivial
    · exact Numeral.isFinite_neg hl

/-! ## Literals

The text of a float literal begins with a digit (`Token.Sound`, kept from the lexer), so none of the
names of special values can be one; and a number that is too large is no literal at all. -/

/-- A float that is read from a text beginning with a digit is finite. -/
theorem Literal.isFinite_of_float {text : String} (htext : DigitFirst text) {v : Value}
    (h : Literal.float text = .ok v) : v.IsFinite := by
  obtain ⟨c, rest, hlist, hc⟩ := htext
  have hdigit : '0' ≤ c ∧ c ≤ '9' := by simpa [Lexer.isDigit] using hc
  -- a digit is no underscore, so it stays the first character without them
  have hmark : c ≠ '_' := by
    rintro rfl
    cases hc
  -- names of infinities and of no number start with a letter or a sign
  have hspecial : Numeral.specialFloat? (text.toList.filter (· ≠ '_')) = none := by
    rw [hlist, List.filter_cons_of_pos (by simpa using hmark)]
    exact Numeral.specialFloat?_of_digit hdigit _
  unfold Literal.float at h
  dsimp only at h
  split at h
  · rename_i x hx
    cases h
    exact (Numeral.bounded_readFloat hspecial).finite x hx
  · cases h

/-- A literal whose text begins as it should has no value that is not finite. -/
theorem isFinite_of_literal {t : Token} (ht : t.Sound) {v : Value} (h : literal t = .ok v) :
    v.IsFinite := by
  -- all constants but doubles are finite by their type
  unfold literal at h
  split at h
  · unfold Literal.int at h
    dsimp only at h
    split at h <;> cases h
    trivial
  · exact Literal.isFinite_of_float (ht.digit ‹_›) h
  · unfold Literal.string at h
    split at h
    · split at h <;> cases h
      trivial
    · cases h
  · split at h
    · cases h
      trivial
    · split at h <;> cases h
      trivial
  · cases h

/-! ## Texts

A double that is not finite would be written as one of three texts. The operands of instructions are
compared with these: no other value is written like that, except a variable of that name. -/

/-- The texts of doubles that are not finite. -/
def specialTexts : List String := ["+Inf", "-Inf", "NaN"]

/-- None of them has a point, and each of them ends in a letter. -/
theorem specialTexts_plain : ∀ text ∈ specialTexts,
    '.' ∉ text.toList ∧ (text.toList.getLast? = some 'f' ∨ text.toList.getLast? = some 'N') := by
  simp [specialTexts]

/-- A double has one of these texts exactly if it is not finite. -/
theorem mem_specialTexts_iff (x : Float) :
    Numeral.ofFloat x ∈ specialTexts ↔ x.isFinite = false := by
  constructor
  · intro htext
    by_contra hfinite
    exact (specialTexts_plain _ htext).1 (Numeral.point_mem_ofFloat (by simpa using hfinite))
  · intro h
    rw [← Numeral.Binary64.isFinite_ofFloat] at h
    unfold Numeral.ofFloat
    cases hx : Numeral.Binary64.ofFloat x with
    | nan => decide
    | infinite negative => cases negative <;> decide
    | finite negative m q =>
      rw [hx] at h
      cases h

/-- A text that ends in a numeral ends in a digit. -/
theorem not_special_ofNat (front : String) (n : Nat) : front ++ Numeral.ofNat n ∉ specialTexts := by
  intro h
  have hne : Nat.toDigits 10 n ≠ [] := Nat.toDigits_ne_nil
  have hlast : (front ++ Numeral.ofNat n).toList.getLast? = some ((Nat.toDigits 10 n).getLast hne) := by
    rw [String.toList_append, Numeral.ofNat, String.toList_ofList, List.getLast?_append_of_ne_nil _ hne,
      List.getLast?_eq_some_getLast hne]
  have hdigit := Nat.isDigit_of_mem_toDigits (by decide) (by decide) (List.getLast_mem hne)
  obtain hf | hN := (specialTexts_plain _ h).2
  · rw [hlast, Option.some_inj] at hf
    rw [hf] at hdigit
    cases hdigit
  · rw [hlast, Option.some_inj] at hN
    rw [hN] at hdigit
    cases hdigit

/-- A text that ends in another character is none of them. -/
theorem not_special_append {front last : String} {c : Char} (hlast : last.toList = [c])
    (hc : c ≠ 'f' ∧ c ≠ 'N') : front ++ last ∉ specialTexts := by
  intro h
  have hend := (specialTexts_plain _ h).2
  rw [String.toList_append, hlast, List.getLast?_concat, Option.some_inj, Option.some_inj] at hend
  exact hend.elim hc.1 hc.2

/-- A finite value has such a text only if it is a variable of that name. -/
theorem Value.eq_name_of_render {v : Value} (hfinite : v.IsFinite) (h : v.render ∈ specialTexts) :
    ∃ x, v = .dynamic (.name x) := by
  -- each kind of value is told by its last character; only names are free
  cases v with
  | int n =>
    rw [show (Value.int n).render = Numeral.ofInt n.toInt from rfl] at h
    unfold Numeral.ofInt at h
    split at h
    · exact absurd h (not_special_ofNat _ _)
    · rw [← String.empty_append (s := Numeral.ofNat _)] at h
      exact absurd h (not_special_ofNat _ _)
  | float x =>
    rw [show (Value.float x).render = Numeral.ofFloat x from rfl, mem_specialTexts_iff] at h
    exact absurd (hfinite.symm.trans h) (by decide)
  | str s => exact absurd h (not_special_append rfl (by decide))
  | dynamic place =>
    cases place with
    | name x => exact ⟨x, rfl⟩
    | reg r => cases r <;> exact absurd h (not_special_ofNat _ _)
    | elementAt array i => exact absurd h (not_special_append rfl (by decide))
    | elementBy array i => exact absurd h (not_special_append rfl (by decide))

/-! ## Programs

Literals are finite, and folding keeps values finite. So by `Lowering.Holds.of_walk` every value in
the table is, at every moment of the walk. -/

/-- The values that are known in the end are an emission too. -/
theorem Emission.Agrees.final {E : Emission} {root : Node} {s s' : Lowering}
    (h : E.Agrees [root] s) (hnodup : root.ids.Nodup)
    (hwalk : (Lower.walk root).run s = .ok ((), s')) :
    Emission.Agrees ⟨E.code, fun i => (s'.value i).getD (.int 0), E.plain⟩ [root] s := by
  intro m t t' hentered hrun
  refine ⟨(h m t t' hentered hrun).1, fun v hv => ?_⟩
  rw [← idsAll_singleton] at hnodup
  obtain ⟨t₁, hrun', hvalue⟩ := hentered.exists_walk hnodup (walkAll_singleton hwalk)
  rw [hrun] at hrun'
  cases hrun'
  show (s'.value m.id).getD (.int 0) = v
  rw [hvalue m.id (m.id_mem_ids (ne_absent_of_walk hrun)), hv]
  rfl

/-- All floats that are remembered at any moment of the lowering of a parsed tree are finite. The
program reads only finite operands, and none of them has the text of an infinity or of no number,
unless it is a variable with that name. -/
theorem floats_finite {src : Source} {root : Node} (hparse : parse src = .ok root)
    (label stdlib : String) :
    ∃ final program, lower root label stdlib = .ok final ∧ final.program = some program ∧
      (∀ i x, final.value i = some (.float x) → x.isFinite = true) ∧
      (∀ events rest, root.walk.events = events ++ rest →
        ∃ u, (events.forM Lower.step).run (.started label stdlib) = .ok ((), u) ∧
          ∀ i x, u.value i = some (.float x) → x.isFinite = true) ∧
      ∀ sub ∈ program.subs, ∀ i, .instr i ∈ sub → ∀ v ∈ i.operands,
        (∀ x, v = .float x → x.isFinite = true) ∧
          (v.render ∈ specialTexts → ∃ x, v = .dynamic (.name x)) := by
  obtain ⟨script, E, s, hroot, hvalid, hnodup, hE, hlowers⟩ := exists_lowers hparse label stdlib
  obtain ⟨_, hscript, -, -, hnonneg⟩ := exists_script_of_parse hparse
  rw [← hscript, hroot] at hnonneg
  subst hroot
  have hwalk := hlowers.visits.run
  obtain ⟨s', hfinal⟩ := lowers_script hvalid hnodup hnonneg (hE.final hnodup hwalk)
  -- the walk is the same one, whatever is said of it
  obtain rfl : s' = s := by
    have heq := hfinal.visits.run
    rw [hwalk] at heq
    exact (congrArg Prod.snd (Except.ok.inj heq)).symm
  have hfinite : s'.Holds Value.IsFinite := by
    refine Lowering.Holds.of_walk (fun i v hv => by cases hv) (fun n hn _ c v hc hv => ?_) hwalk
    obtain ⟨hmem, habsent⟩ := Node.child?_eq_some.mp hc
    have hnode := Node.mem_nodes_child hn (List.mem_of_getElem? hmem) habsent
    obtain htoken | heof := token_of_parse hparse c hnode
    · exact isFinite_of_literal (sound_of_mem_tokens src htoken) hv
    · unfold literal at hv
      rw [heof] at hv
      cases hv
  obtain ⟨program, hprogram, hmain⟩ := hfinal.main
  obtain ⟨-, hfunctions⟩ := hfinal.emitted program hprogram
  refine ⟨_, program, lower_eq_of_walk hnodup hwalk, hprogram,
    fun i x hx => hfinite i (.float x) hx, fun events rest hmoment => ?_, fun sub hsub i hi v hv => ?_⟩
  · have htour : script.node.tour = events ++ rest := by
      rw [walk_eq_tour hnodup hwalk] at hmoment
      exact hmoment
    have hrun := hwalk
    rw [← Lower.forM_tour, htour] at hrun
    obtain ⟨u, hevents, hrest⟩ := run_forM_append hrun
    -- what is known at a moment is known in the end
    refine ⟨u, hevents, fun i x hx => hfinite i (.float x) ?_⟩
    exact value_of_moment hnodup htour (fun i => rfl) hevents hrest hx
  · obtain ⟨before, after, hlines⟩ := List.append_of_mem hi
    have hv : v.IsFinite := by
      obtain hnone | ⟨n, -, hserves⟩ :=
        guarded_subs hfinal.legs hmain hfunctions sub hsub before i after hlines
      · rw [hnone] at hv
        cases hv
      · rw [hserves.operands] at hv
        obtain ⟨c, -, rfl⟩ := List.mem_map.mp hv
        show ((s'.value c.id).getD (.int 0)).IsFinite
        cases hvalue : s'.value c.id with
        | none => trivial
        | some w => exact hfinite c.id w hvalue
    refine ⟨?_, Value.eq_name_of_render hv⟩
    rintro x rfl
    exact hv

/-- Floats that are negated, promoted and combined by all operators, and a fold that would overflow. -/
def floating : Source := .ofString "x = -(1.5e300 ** 2) + 2 * 1e308
def f(NaN)
  return NaN * (-0.0 + 1 % 2.5) ** (1 - 1e-320 / -3)
end
f(0x10, -1.0 ** 0.5)
"

/-- Applied to the program above, in which `1.5e300 ** 2` would overflow and is not folded. -/
theorem floats_finite_floating :
    ∃ root, parse floating = .ok root ∧ ∃ final program,
      lower root "floating" defaultStdlib = .ok final ∧ final.program = some program ∧
      (∀ i x, final.value i = some (.float x) → x.isFinite = true) ∧
      (∀ events rest, root.walk.events = events ++ rest →
        ∃ u, (events.forM Lower.step).run (.started "floating" defaultStdlib) = .ok ((), u) ∧
          ∀ i x, u.value i = some (.float x) → x.isFinite = true) ∧
      ∀ sub ∈ program.subs, ∀ i, .instr i ∈ sub → ∀ v ∈ i.operands,
        (∀ x, v = .float x → x.isFinite = true) ∧
          (v.render ∈ specialTexts → ∃ x, v = .dynamic (.name x)) := by
  have hok : (parse floating).isOk = true := by decide +kernel
  cases hparse : parse floating with
  | error e => rw [hparse] at hok; cases hok
  | ok root => exact ⟨root, rfl, floats_finite hparse "floating" defaultStdlib⟩

end ScriptPir
