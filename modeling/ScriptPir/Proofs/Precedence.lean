import ScriptPir.Proofs.ExpressionParsing
import ScriptPir.Proofs.Unambiguous

/-!
# Precedence climbing is exact

Main statement: `binary_exact`. An expression parsed within a limit is written by the tokens that were
taken, it is grouped, nothing that could still belong to it was left over, and it is the only expression
that these tokens could mean.

The proof is done before: that the tree is written by the tokens and grouped is read off the parser
(`readsWithin_binary`), and that nothing else is written by them is a fact about trees alone
(`Expr.alike_of_spells`). Here both meet.
-/

namespace ScriptPir

open Shape

/-- What makes an expression a reading of some tokens: without line feeds they are its tokens, its
operators have only operands they admit, and none outside brackets is looser than the limit. -/
structure Groups (limit : Nat) (used : List Token) (e : Expr) : Prop where
  spells : e.Spells (used.filter (!·.isNewline))
  grouped : e.Grouped
  within : e.Within limit

/-- Two readings of the same tokens are alike, up to ids and places. -/
theorem Groups.alike {limit : Nat} {used : List Token} {e e' : Expr} (h : Groups limit used e)
    (h' : Groups limit used e') : e.Alike e' :=
  Expr.alike_of_spells h.grouped h'.grouped h.spells h'.spells

/-- If an expression is parsed within a limit, then the tokens taken group to it and to no other, and
the next token is no operator within the limit. -/
theorem binary_exact {fuel limit : Nat} {c c' : Cursor} {n : Node} (hc : c.Closed)
    (h : (Parser.binary fuel limit).run c = .ok (n, c')) :
    ∃ (e : Expr) (used : List Token), n = e.node ∧ c.rest = used ++ c'.rest ∧
      Groups limit used e ∧ Bounded limit c' ∧ ∀ e', Groups limit used e' → e.Alike e' := by
  obtain ⟨e, rfl, he, hwithin, hbounded⟩ := Parser.readsWithin_binary fuel limit c hc n c' h
  obtain ⟨sig, hread, hspells⟩ := he.read
  obtain ⟨used, hrest, rfl⟩ := hread.used
  have hgroups : Groups limit used e := ⟨hspells, he.grouped, hwithin⟩
  exact ⟨e, used, rfl, hrest, hgroups, hbounded, fun e' he' => hgroups.alike he'⟩

/-- The tokens of `a - -f(k: 2) ** b ** c - x[1]`, and a looser operator behind them. -/
def chain : Cursor where
  rest := [⟨.ident, "a", 1, 1⟩, ⟨.op, "-", 1, 3⟩, ⟨.semi, "\n", 1, 4⟩, ⟨.op, "-", 2, 1⟩,
    ⟨.ident, "f", 2, 2⟩, ⟨.opening, "(", 2, 3⟩, ⟨.ident, "k", 2, 4⟩, ⟨.op, ":", 2, 5⟩,
    ⟨.int, "2", 2, 7⟩, ⟨.closing, ")", 2, 8⟩, ⟨.op, "**", 2, 10⟩, ⟨.ident, "b", 2, 13⟩,
    ⟨.op, "**", 2, 15⟩, ⟨.ident, "c", 2, 18⟩, ⟨.op, "-", 2, 20⟩, ⟨.ident, "x", 2, 22⟩,
    ⟨.opening, "[", 2, 23⟩, ⟨.int, "1", 2, 24⟩, ⟨.closing, "]", 2, 25⟩, ⟨.op, "<", 2, 27⟩,
    ⟨.ident, "d", 2, 29⟩]
  ending := .ok { kind := .eof }

/-- Applied to the tokens above: the parser takes everything in front of the looser operator. -/
theorem binary_exact_chain : ∃ n c', (Parser.binary 9 3).run chain = .ok (n, c') ∧
    ∃ (e : Expr) (used : List Token), n = e.node ∧ chain.rest = used ++ c'.rest ∧
      Groups 3 used e ∧ Bounded 3 c' ∧ ∀ e', Groups 3 used e' → e.Alike e' := by
  have hclosed : chain.Closed := by
    rintro t ⟨rfl⟩
    rfl
  have hok : ((Parser.binary 9 3).run chain).isOk = true := by decide +kernel
  cases hrun : (Parser.binary 9 3).run chain with
  | error e => rw [hrun] at hok; cases hok
  | ok r => exact ⟨r.1, r.2, rfl, binary_exact hclosed hrun⟩

end ScriptPir
