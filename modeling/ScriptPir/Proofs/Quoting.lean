import ScriptPir.Proofs.Folding
import ScriptPir.Proofs.Provenance
import ScriptPir.Proofs.ScriptLowering

/-!
# Strings in the target code

A string is remembered as it stands between the quotes of the target code. It comes from a literal, or it
is put together from such strings when constants are folded.

* `escapedQuotes_iff` — what becomes of a literal in single quotes: it ends as it did, and its double
  quotes are escaped afterwards if none was before;
* `Additive.foldable` — folding keeps whatever the empty string has and appending keeps;
* `strings_wellQuoted_iff` — so the strings of a program are well quoted, unless a literal in single
  quotes has an escaped double quote in it.
* `Additive` — a property that the empty text has and that appending keeps;
* `wellQuoted_of_literal` — for literals, by the sort of quote and by what the quotes inside are escaped
  with;
* `not_wellQuoted_overescaped` — a program for which it fails.
-/

namespace ScriptPir

open Escape

/-! ## Literals

A literal in single quotes is rewritten in two passes: escaped single quotes lose their backslash,
then every double quote gets one. Both are followed with the automaton that tells whether a character
is escaped. -/

namespace Literal

/-- A single quote that loses its backslash is followed by what followed it before. -/
theorem after_plainQuotes (e : Bool) (s : List Char) : after e (plainQuotes s) = after e s := by
  fun_induction plainQuotes s generalizing e with
  | case1 s ih => simp [ih, step]
  | case2 c s hquote ih => simp [ih]
  | case3 => rfl

/-- Double quotes are escaped as before when single quotes lose their backslashes. -/
theorem marks_plainQuotes {w e : Bool} {s : List Char} :
    Marks '"' w e (plainQuotes s) ↔ Marks '"' w e s := by
  fun_induction plainQuotes s generalizing e with
  | case1 s ih => simp [marks_cons, ih, step]
  | case2 c s hquote ih => simp [marks_cons, ih]
  | case3 => rfl

/-- A backslash is put in front of each double quote, one character after the other. -/
theorem escapeQuotes_cons (c : Char) (s : List Char) :
    escapeQuotes (c :: s) = (if c = '"' then ['\\', '"'] else [c]) ++ escapeQuotes s := rfl

/-- A backslash in front of a double quote does not change how the text ends. -/
theorem after_escapeQuotes (e : Bool) (s : List Char) : after e (escapeQuotes s) = after e s := by
  induction s generalizing e with
  | nil => rfl
  | cons c s ih =>
    rw [escapeQuotes_cons, after_append, ih, after_cons]
    by_cases hc : c = '"' <;> simp [hc, step]

/-- A backslash in front of a double quote escapes it only if the quote was not escaped before. -/
theorem marks_escapeQuotes {e : Bool} {s : List Char} :
    Marks '"' true e (escapeQuotes s) ↔ Marks '"' false e s := by
  induction s generalizing e with
  | nil => simp [escapeQuotes, marks_nil]
  | cons c s ih =>
    rw [escapeQuotes_cons, marks_append, ih, marks_cons]
    by_cases hc : c = '"'
    · cases e <;> simp [hc, marks_cons, marks_nil, step]
    · simp [hc, marks_cons, marks_nil]

/-- What becomes of the inside of a literal in single quotes. -/
theorem escapedQuotes_iff {s : List Char} (hs : after false s = false) :
    WellQuoted '"' (escapeQuotes (plainQuotes s)) ↔ Marks '"' false false s := by
  rw [wellQuoted_iff, marks_escapeQuotes, marks_plainQuotes, after_escapeQuotes, after_plainQuotes]
  exact and_iff_left hs

end Literal

/-- A token is a string in single quotes with an escaped double quote in it. -/
def Token.EscapesQuote (t : Token) : Prop :=
  t.kind = .string ∧ ∃ before rest, t.text.toList = '\'' :: (before ++ '"' :: rest) ∧
    backslashes before % 2 = 1

/-- Only a double quote of the inside of a literal counts. -/
theorem Token.Quoted.escapesQuote_iff {t : Token} {mark : Char} {inside : List Char}
    (h : t.Quoted mark inside) (hkind : t.kind = .string) :
    t.EscapesQuote ↔ mark = '\'' ∧ ¬ Marks '"' false false inside := by
  obtain ⟨-, htext, -⟩ := h
  constructor
  · rintro ⟨-, before, rest, heq, hodd⟩
    rw [htext] at heq
    injection heq with hmark hinside
    subst hmark
    refine ⟨rfl, fun hmarks => ?_⟩
    -- the double quote is not the closing mark, so it stands inside
    have hne : rest ≠ [] := by
      rintro rfl
      have hlast := congrArg List.getLast? hinside
      simp at hlast
    obtain ⟨front, last, rfl⟩ : ∃ front last, rest = front ++ [last] :=
      ⟨_, _, (List.dropLast_append_getLast hne).symm⟩
    have hsplit : inside = before ++ '"' :: front := by
      rw [← List.cons_append, ← List.append_assoc] at hinside
      exact (List.append_inj' hinside rfl).1
    have hplain := hmarks before front hsplit
    rw [not_escapes_iff] at hplain
    omega
  · rintro ⟨rfl, hmarks⟩
    simp only [Marks, not_forall, Bool.not_eq_false] at hmarks
    obtain ⟨before, front, rfl, hescaped⟩ := hmarks
    refine ⟨hkind, before, front ++ ['\''], ?_, (escapes_iff before).mp hescaped⟩
    rw [htext, List.append_assoc, List.cons_append]

/-! ## Values

Folding is treated once for all additive properties: it concatenates and repeats strings, and does
nothing else to them. -/

/-- A value has a property, if it is a string. -/
def Value.Holds (P : List Char → Prop) : Value → Prop
  | str s => P s.toList
  | _ => True

/-- A property of texts that the empty text has and that appending keeps. -/
structure Additive (P : List Char → Prop) : Prop where
  nil : P []
  append : ∀ {s t}, P s → P t → P (s ++ t)

theorem additive_wellQuoted (mark : Char) : Additive (WellQuoted mark) :=
  ⟨.nil mark, .append⟩

theorem additive_closed : Additive fun s => backslashes s % 2 = 0 := ⟨rfl, backslashes_append⟩

variable {P : List Char → Prop}

/-- Copies of a text behind another one have the property if both have it. -/
theorem Additive.copiesOnto (hP : Additive P) {acc s : String} (hacc : P acc.toList)
    (hs : P s.toList) (n : Nat) : P (Fold.copiesOnto acc s n).toList := by
  -- the text so far keeps the property, whether it takes another copy or not
  have hstep {acc s : String} (n : Nat) (hacc : P acc.toList) (hs : P s.toList) :
      P (if n % 2 = 1 then acc ++ s else acc).toList := by
    split
    · rw [String.toList_append]
      exact hP.append hacc hs
    · exact hacc
  fun_induction Fold.copiesOnto acc s n with
  | case1 => exact hacc
  | case2 => exact hstep 1 hacc hs
  | case3 acc s n _ _ _ ih =>
    refine ih (hstep n hacc hs) ?_
    rw [String.toList_append]
    exact hP.append hs hs

/-- A string that is repeated has the property if the string has it. -/
theorem Additive.repeated (hP : Additive P) {s : String} (hs : P s.toList) {n : Int64} {v : Value}
    (h : Fold.repeated s n = .ok v) : v.Holds P := by
  simp only [Fold.repeated] at h
  split at h
  · cases h
  · cases h
    have hempty : P "".toList := hP.nil
    exact hP.copiesOnto hempty hs _

/-- Strings are folded by putting them together. -/
theorem Additive.foldable (hP : Additive P) : Foldable (Value.Holds P) where
  dynamic _ := trivial
  fold hl hr h := by
    obtain ⟨n, rfl⟩ | ⟨x, hx⟩ | ⟨a, b, rfl, rfl, rfl⟩ | ⟨a, n, ha, hn⟩ := fold_cases h
    · trivial
    · obtain ⟨rfl, -⟩ := finite_eq_ok hx
      trivial
    · show P (String.toList (_ ++ _))
      rw [String.toList_append]
      exact hP.append hl hr
    · obtain rfl | rfl := ha
      · exact hP.repeated hl hn
      · exact hP.repeated hr hn
  foldNeg _ h := by
    obtain ⟨n, rfl⟩ | ⟨x, -, rfl⟩ := foldNeg_cases h <;> trivial

/-- A property that appending keeps is one of all strings of a tree, if the literals have it. -/
theorem holds_of_walk (hP : Additive P) {root : Node} {s s' : Lowering}
    (hroot : ∀ n ∈ root.nodesOnto [], n.kind = .literal → ∀ c v, n.child? 0 = some c →
      literal c.token = .ok v → v.Holds P)
    (hwalk : (Lower.walk root).run s = .ok ((), s')) (hs : s.Holds (Value.Holds P)) :
    s'.Holds (Value.Holds P) :=
  have := hP.foldable
  hs.of_walk hroot hwalk

/-! ## Programs

The strings of a program are its literals and what is folded of them. Literals are read back from the
table at the end of the walk, since no entry is ever changed. -/

/-- The leaf of a literal bears the token of the literal. -/
theorem leaf_of_fits {n : Node} {t : Lowering} (h : Fits n t) (hkind : n.kind = .literal) :
    ∃ leaf, n.child? 0 = some leaf ∧ leaf.token = n.token := by
  -- of all nodes that fit somewhere, only constants are of this kind
  cases h with
  | @expr e =>
    cases e with
    | constant id leaf => exact ⟨leaf.node, rfl, rfl⟩
    | operation id left op right =>
      have hop := op.kind_cases
      rw [show (Shape.Expr.operation id left op right).node.kind = op.op.kind from rfl] at hkind
      grind
    | var | global | paren | unary | element | call => cases hkind
  | @simple x =>
    have hexpr := x.kind_isExpr
    rw [hkind] at hexpr
    cases hexpr
  | unused => cases hkind
  | other hexpr =>
    rw [hkind] at hexpr
    cases hexpr

/-- A text is one literal in double quotes: its first quote that is not escaped, after the opening one,
is its last character. -/
def IsQuotedLiteral (text : String) : Prop :=
  ∃ inside, text.toList = '"' :: (inside ++ ['"']) ∧ WellQuoted '"' inside

/-- A string is rendered as one literal if it is well quoted, and only then. -/
theorem isQuotedLiteral_render {s : String} :
    IsQuotedLiteral (Value.str s).render ↔ WellQuoted '"' s.toList := by
  have hrender : (Value.str s).render.toList = '"' :: (s.toList ++ ['"']) := by
    simp [Value.render]
  constructor
  · rintro ⟨inside, heq, hquoted⟩
    rw [hrender] at heq
    injection heq with _ heq
    rw [(List.append_inj' heq rfl).1]
    exact hquoted
  · exact fun h => ⟨s.toList, hrender, h⟩

/-- Only a string stands for a string. -/
theorem kind_of_literal_str {t : Token} {s : String} (h : literal t = .ok (.str s)) :
    t.kind = .string := by
  unfold literal at h
  split at h
  · simp only [Literal.int] at h
    split at h <;> cases h
  · simp only [Literal.float] at h
    split at h <;> cases h
  · assumption
  · split at h
    · cases h
    · split at h <;> cases h
  · cases h

/-- A string token stands for a string. -/
theorem exists_str_of_literal {t : Token} {v : Value} (h : literal t = .ok v)
    (hkind : t.kind = .string) : ∃ s, v = .str s := by
  simp only [literal, hkind, Literal.string] at h
  split at h
  · split at h
    · cases h
      exact ⟨_, rfl⟩
    · cases h
  · cases h

/-- The exit of a literal remembers its value. -/
theorem value_of_exit_literal {n leaf : Node} {u u' : Lowering} (hkind : n.kind = .literal)
    (hleaf : n.child? 0 = some leaf) (h : (Lower.exit n).run u = .ok ((), u')) :
    ∃ v, literal leaf.token = .ok v ∧ u'.value n.id = some v := by
  have hrun : (Lower.exitLiteral n).run u = .ok ((), u') := by
    simpa only [Lower.exit, hkind] using h
  obtain ⟨c, hc, hrest⟩ := Lower.of_bind_child hrun
  rw [hleaf] at hc
  cases hc
  split at hrest
  · rename_i v hv
    cases hrest
    refine ⟨v, hv, ?_⟩
    show { u with values := u.values.insert n.id v }.value n.id = some v
    rw [value_insert, Function.update_self]
  · cases hrest

section Programs

variable {src : Source} {root : Node} (hparse : parse src = .ok root)

include hparse

/-- What is known of the literals of a program that parses. -/
theorem quoted_of_literal {n c : Node} {s : String} (hn : n ∈ root.nodesOnto [])
    (hc : n.child? 0 = some c) (hs : literal c.token = .ok (.str s)) :
    ∃ mark inside, c.token.Quoted mark inside ∧ s.toList =
      if mark = '\'' then Literal.escapeQuotes (Literal.plainQuotes inside) else inside := by
  have hkind := kind_of_literal_str hs
  obtain ⟨hmem, habsent⟩ := Node.child?_eq_some.mp hc
  have hnode := Node.mem_nodes_child hn (List.mem_of_getElem? hmem) habsent
  have htoken : c.token ∈ (lex src).tokens :=
    (token_of_parse hparse c hnode).resolve_right (by rw [hkind]; decide)
  obtain ⟨mark, inside, hquoted⟩ := (sound_of_mem_tokens src htoken).quoted hkind
  rw [literal_of_quoted hquoted hkind] at hs
  cases hs
  exact ⟨mark, inside, hquoted, String.toList_ofList⟩

/-- No literal leaves a backslash to the closing quote. -/
theorem closed_of_literal {n c : Node} {v : Value} (hn : n ∈ root.nodesOnto [])
    (hc : n.child? 0 = some c) (hv : literal c.token = .ok v) :
    v.Holds fun s => backslashes s % 2 = 0 := by
  cases v with
  | str s =>
    obtain ⟨mark, inside, ⟨-, -, hquoted⟩, hs⟩ := quoted_of_literal hparse hn hc hv
    have hclosed := (not_escapes_iff inside).mpr hquoted.closed
    show backslashes s.toList % 2 = 0
    rw [hs, ← not_escapes_iff]
    split
    · rw [Literal.after_escapeQuotes, Literal.after_plainQuotes, hclosed]
    · exact hclosed
  | int | float | dynamic => trivial

/-- A literal is well quoted, unless it escapes a double quote between single ones. -/
theorem wellQuoted_of_literal {n c : Node} {s : String} (hn : n ∈ root.nodesOnto [])
    (hc : n.child? 0 = some c) (hs : literal c.token = .ok (.str s)) :
    WellQuoted '"' s.toList ↔ ¬ c.token.EscapesQuote := by
  obtain ⟨mark, inside, hquoted, heq⟩ := quoted_of_literal hparse hn hc hs
  rw [hquoted.escapesQuote_iff (kind_of_literal_str hs), heq]
  obtain ⟨hmark, -, hinside⟩ := hquoted
  rcases hmark with rfl | rfl
  · rw [if_pos rfl, Literal.escapedQuotes_iff ((not_escapes_iff inside).mpr hinside.closed)]
    simp
  · rw [if_neg (by decide)]
    simpa using hinside

end Programs

/-- The strings that are remembered for a program never end in an escape, and each of them is rendered
as one literal exactly if no literal in single quotes has an escaped double quote in it. -/
theorem strings_wellQuoted_iff {src : Source} {root : Node} (hparse : parse src = .ok root)
    (label stdlib : String) :
    ∃ final, lower root label stdlib = .ok final ∧
      (∀ i s, final.value i = some (.str s) → backslashes s.toList % 2 = 0) ∧
      ((∀ i s, final.value i = some (.str s) → IsQuotedLiteral (Value.str s).render) ↔
        ∀ n ∈ root.nodesOnto [], n.kind = .literal → ¬ n.token.EscapesQuote) := by
  obtain ⟨script, E, s, hroot, -, hnodup, -, hlowers⟩ := exists_lowers hparse label stdlib
  subst hroot
  have hwalk := hlowers.visits.run
  have hempty : ∀ P, (Lowering.started label stdlib).Holds P := fun P i v hv => by cases hv
  -- each literal is entered by the walk, and was made of one token
  have hleaf : ∀ n ∈ script.node.nodesOnto [], n.kind = .literal →
      ∃ leaf, n.child? 0 = some leaf ∧ leaf.token = n.token := by
    intro n hn hkind
    obtain ⟨t, hentered⟩ := exists_entered hwalk hn
    exact leaf_of_fits (hlowers.visits.fits n t hentered) hkind
  refine ⟨_, lower_eq_of_walk hnodup hwalk, fun i str hstr => ?_, fun hquoted n hn hkind hescapes => ?_,
    fun hplain i str hstr => ?_⟩
  · exact holds_of_walk additive_closed
      (fun n hn _ c v hc hv => closed_of_literal hparse hn hc hv) hwalk (hempty _) i (.str str) hstr
  · -- the value of a literal is remembered to the end
    obtain ⟨leaf, hleaf, htoken⟩ := hleaf n hn hkind
    obtain ⟨u, u', hexited⟩ := exists_exited hnodup hwalk hn
    have ⟨_, _, _, _, _, hexit⟩ := hexited
    obtain ⟨v, hv, hvalue⟩ := value_of_exit_literal hkind hleaf hexit
    rw [← htoken] at hescapes
    obtain ⟨str, rfl⟩ := exists_str_of_literal hv hescapes.1
    have hid : n.id ∈ n.ids := n.id_mem_ids (by rintro rfl; cases hkind)
    rw [← hexited.value_eq hnodup hwalk n.id hid] at hvalue
    refine (wellQuoted_of_literal hparse hn hleaf hv).mp ?_ hescapes
    exact isQuotedLiteral_render.mp (hquoted n.id str hvalue)
  · rw [isQuotedLiteral_render]
    refine holds_of_walk (additive_wellQuoted '"') (fun n hn hkind c v hc hv => ?_) hwalk (hempty _) i
      (.str str) hstr
    cases v with
    | str text =>
      obtain ⟨leaf, hleaf, htoken⟩ := hleaf n hn hkind
      rw [hc] at hleaf
      cases hleaf
      refine (wellQuoted_of_literal hparse hn hc hv).mpr ?_
      rw [htoken]
      exact hplain n hn hkind
    | int | float | dynamic => trivial

/-- A program with a string in single quotes that is put together with one in double quotes. -/
def quoting : Source := .ofString "x = 'it\\'s \"hi\"' * 2 + \"\\\\\"
"

theorem strings_wellQuoted_quoting :
    ∃ root final, parse quoting = .ok root ∧ lower root "quoting" defaultStdlib = .ok final ∧
      (∀ i s, final.value i = some (.str s) → backslashes s.toList % 2 = 0) ∧
      ((∀ i s, final.value i = some (.str s) → IsQuotedLiteral (Value.str s).render) ↔
        ∀ n ∈ root.nodesOnto [], n.kind = .literal → ¬ n.token.EscapesQuote) := by
  have hok : (parse quoting).isOk = true := by decide +kernel
  cases hparse : parse quoting with
  | error e => rw [hparse] at hok; cases hok
  | ok root =>
    obtain ⟨final, hrest⟩ := strings_wellQuoted_iff hparse "quoting" defaultStdlib
    exact ⟨root, final, rfl, hrest⟩

/-- A program with a string in single quotes that has an escaped double quote in it. -/
def overescaped : Source := .ofString "x = '\\\"'
"

/-- The backslash that is put in front of the double quote only escapes the one that was there. -/
theorem not_wellQuoted_overescaped :
    ∃ root final i s, parse overescaped = .ok root ∧
      lower root "overescaped" defaultStdlib = .ok final ∧ final.value i = some (.str s) ∧
      ¬ IsQuotedLiteral (Value.str s).render := by
  -- evaluated: the literal has the id 3, and its value is two backslashes and a quote
  have hcheck : ((parse overescaped).toOption.any fun root =>
      (lower root "overescaped" defaultStdlib).toOption.any fun final =>
        (final.value 3).any fun v => v.kind = .string && v.text = "\\\\\"") = true := by
    decide +kernel
  obtain ⟨root, final, hparse, hlower, hfinal⟩ := exists_of_any hcheck
  obtain ⟨v, hvalue, hv⟩ := (Option.any_eq_true _ _).mp hfinal
  simp only [Bool.and_eq_true, decide_eq_true_eq] at hv
  obtain ⟨hkind, htext⟩ := hv
  cases v with
  | str s =>
    refine ⟨root, final, 3, s, hparse, hlower, hvalue, fun h => ?_⟩
    have hs : s = "\\\\\"" := htext
    have hodd := (isQuotedLiteral_render.mp h).escaped ['\\', '\\'] [] (by rw [hs]; rfl)
    exact absurd hodd (by decide)
  | int | float | dynamic => cases hkind

end ScriptPir
