import Mathlib.Data.List.Forall2
import ScriptPir.Proofs.Shape

/-!
# How expressions are written and grouped

An expression is written as a list of tokens, its *yield*. Brackets and commas of calls are not kept
in the tree, so the yield says only of which kind they are. Binary operators are *grouped*: an operator
has no looser operator as an operand, and of equally loose ones only on the side to which it groups.
Two expressions are *alike* if they differ only in what is not written: the ids of their nodes and the
places remembered for argument lists.

What the tokens of an expression are is said once for each production (`spells_paren`,
`spells_operation`, …); nothing after this module looks into a yield.
-/

namespace ScriptPir

/-! ## The operator table

The only facts about single operators that the development needs. They are decided on the table, so
that the proofs on grouping speak of any table with these properties. -/

namespace Operator

/-- An operator that a token stands for is in the table. -/
theorem mem_table {t : Token} {op : Operator} (h : ofToken? t = some op) :
    op ∈ table.map (·.2) := by
  unfold ofToken? at h
  split at h
  · obtain ⟨entry, hfind, rfl⟩ := Option.map_eq_some_iff.mp h
    exact List.mem_map_of_mem (List.mem_of_find?_eq_some hfind)
  · cases h

/-- Such a token is an operator or a word. -/
theorem token_kind {t : Token} {op : Operator} (h : ofToken? t = some op) :
    t.kind = .op ∨ t.kind = .ident := by
  unfold ofToken? at h
  split at h
  · assumption
  · cases h

theorem prec_pos {op : Operator} (h : op ∈ table.map (·.2)) : 0 < op.prec := by
  have hall : ∀ op ∈ table.map (·.2), 0 < op.prec := by decide
  exact hall op h

/-- Operators of one precedence group to the same side. -/
theorem right_eq_of_prec_eq {op₁ op₂ : Operator} (h₁ : op₁ ∈ table.map (·.2))
    (h₂ : op₂ ∈ table.map (·.2)) (h : op₁.prec = op₂.prec) : op₁.right = op₂.right := by
  have hall : ∀ op₁ ∈ table.map (·.2), ∀ op₂ ∈ table.map (·.2),
      op₁.prec = op₂.prec → op₁.right = op₂.right := by decide
  exact hall op₁ h₁ op₂ h₂ h

/-- What may be the root of the left operand of an operator. -/
def AdmitsLeft (op : Operator) (left : Option Operator) : Prop :=
  ∀ q, left = some q → if op.right then q.prec < op.prec else q.prec ≤ op.prec

/-- What may be the root of the right operand of an operator. -/
def AdmitsRight (op : Operator) (right : Option Operator) : Prop :=
  ∀ q, right = some q → if op.right then q.prec ≤ op.prec else q.prec < op.prec

end Operator

namespace Shape

/-! ## Yields

What an expression is written as, with holes where the tree does not keep the token. The lemmas
`spells_…` take a yield apart at its root, one for each production. -/

/-- A part of what an expression is written as. -/
inductive Piece where
  /-- A token that the tree keeps. -/
  | leaf (t : Token)
  /-- The bracket before the arguments of a call. -/
  | opening
  /-- The bracket after the arguments of a call. -/
  | closing
  /-- What stands between two arguments. -/
  | comma
  /-- What stands between the name of an argument and its value. -/
  | colon

/-- Whether a token is a given part. -/
def Piece.Matches : Piece → Token → Prop
  | leaf t, u => t = u
  | opening, u => u.kind = .opening ∧ u.text = "("
  | closing, u => u.kind = .closing ∧ u.text = ")"
  | comma, u => u.kind = .comma
  | colon, u => u.isOp ":" = true

/-- What stands before the value of an argument. -/
def nameYield : Option Name → List Piece
  | none => []
  | some name => [.leaf name.token, .colon]

mutual

/-- What an expression is written as. -/
def Expr.yield : Expr → List Piece
  | .constant _ leaf => [.leaf leaf.token]
  | .var _ name => [.leaf name.token]
  | .global _ name => [.leaf name.token]
  | .paren _ opening inner closing =>
    .leaf opening.token :: (inner.yield ++ [.leaf closing.token])
  | .unary _ sign operand => .leaf sign.token :: operand.yield
  | .operation _ left op right => left.yield ++ .leaf op.token :: right.yield
  | .element parts index =>
    .leaf parts.array.token :: .leaf parts.opening.token ::
      (index.yield ++ [.leaf parts.closing.token])
  | .call parts args =>
    .leaf parts.callee.token :: .opening :: (args.yield ++ [.closing])

/-- What arguments are written as. -/
def Args.yield : Args → List Piece
  | .nil => []
  | .cons _ name value .nil => nameYield name ++ value.yield
  | .cons _ name value (.cons id name' value' rest) =>
    nameYield name ++ (value.yield ++ .comma :: (Args.cons id name' value' rest).yield)

end

attribute [simp] Expr.yield Args.yield

/-- The tokens are those of an expression. -/
def Expr.Spells (e : Expr) (ts : List Token) : Prop := List.Forall₂ Piece.Matches e.yield ts

/-- The tokens are those of arguments. -/
def Args.Spells (a : Args) (ts : List Token) : Prop := List.Forall₂ Piece.Matches a.yield ts

/-- Two parts of a yield are matched one after the other. -/
theorem forall₂_append_left {α β : Type} {R : α → β → Prop} {l m : List α} {ts : List β} :
    List.Forall₂ R (l ++ m) ts ↔
      ∃ u v, ts = u ++ v ∧ List.Forall₂ R l u ∧ List.Forall₂ R m v := by
  constructor
  · intro h
    induction l generalizing ts with
    | nil => exact ⟨[], ts, rfl, .nil, h⟩
    | cons a l ih =>
      obtain ⟨b, ts, hab, hrest, rfl⟩ := List.forall₂_cons_left_iff.mp h
      obtain ⟨u, v, rfl, hu, hv⟩ := ih hrest
      exact ⟨b :: u, v, rfl, .cons hab hu, hv⟩
  · rintro ⟨u, v, rfl, hu, hv⟩
    exact List.rel_append hu hv

/-- One piece is matched by one token. -/
theorem forall₂_singleton_left {α β : Type} {R : α → β → Prop} {a : α} {ts : List β} :
    List.Forall₂ R [a] ts ↔ ∃ b, ts = [b] ∧ R a b := by
  rw [List.forall₂_cons_left_iff]
  constructor
  · rintro ⟨b, u, hab, hu, rfl⟩
    rw [List.forall₂_nil_left_iff] at hu
    exact ⟨b, by rw [hu], hab⟩
  · rintro ⟨b, rfl, hab⟩
    exact ⟨b, [], hab, .nil, rfl⟩

/-- A token that is kept matches itself. -/
theorem forall₂_leaf_cons {t : Token} {l : List Piece} {ts : List Token} :
    List.Forall₂ Piece.Matches (.leaf t :: l) ts ↔
      ∃ u, ts = t :: u ∧ List.Forall₂ Piece.Matches l u := by
  rw [List.forall₂_cons_left_iff]
  constructor
  · rintro ⟨b, u, rfl, hu, rfl⟩
    exact ⟨u, rfl, hu⟩
  · rintro ⟨u, rfl, hu⟩
    exact ⟨t, u, rfl, hu, rfl⟩

section Spells

variable {id : Int} {ts : List Token}

theorem spells_constant {leaf : Constant} :
    (Expr.constant id leaf).Spells ts ↔ ts = [leaf.token] := by
  simp [Expr.Spells, forall₂_leaf_cons]

theorem spells_var {name : Name} : (Expr.var id name).Spells ts ↔ ts = [name.token] := by
  simp [Expr.Spells, forall₂_leaf_cons]

theorem spells_global {name : Global} : (Expr.global id name).Spells ts ↔ ts = [name.token] := by
  simp [Expr.Spells, forall₂_leaf_cons]

/-- An expression in brackets is written between them. -/
theorem spells_paren {o : Bracket .opening "("} {e : Expr} {c : Bracket .closing ")"} :
    (Expr.paren id o e c).Spells ts ↔ ∃ u, ts = o.token :: (u ++ [c.token]) ∧ e.Spells u := by
  rw [Expr.Spells, Expr.yield, forall₂_leaf_cons]
  simp only [forall₂_append_left, forall₂_leaf_cons, List.forall₂_nil_left_iff]
  constructor
  · rintro ⟨_, rfl, u, _, rfl, hu, _, rfl, rfl⟩
    exact ⟨u, rfl, hu⟩
  · rintro ⟨u, rfl, hu⟩
    exact ⟨_, rfl, u, _, rfl, hu, [], rfl, rfl⟩

theorem spells_unary {s : Sign} {e : Expr} :
    (Expr.unary id s e).Spells ts ↔ ∃ u, ts = s.token :: u ∧ e.Spells u := by
  rw [Expr.Spells, Expr.yield, forall₂_leaf_cons]
  rfl

/-- An operator stands between its operands. -/
theorem spells_operation {l r : Expr} {o : BinaryOp} :
    (Expr.operation id l o r).Spells ts ↔
      ∃ u v, ts = u ++ o.token :: v ∧ l.Spells u ∧ r.Spells v := by
  rw [Expr.Spells, Expr.yield]
  simp only [forall₂_append_left, forall₂_leaf_cons]
  constructor
  · rintro ⟨u, _, rfl, hu, v, rfl, hv⟩
    exact ⟨u, v, rfl, hu, hv⟩
  · rintro ⟨u, v, rfl, hu, hv⟩
    exact ⟨u, _, rfl, hu, v, rfl, hv⟩

/-- An element is an array and an index in brackets. -/
theorem spells_element {p : ElementParts} {e : Expr} :
    (Expr.element p e).Spells ts ↔
      ∃ u, ts = p.array.token :: p.opening.token :: (u ++ [p.closing.token]) ∧ e.Spells u := by
  rw [Expr.Spells, Expr.yield]
  simp only [forall₂_append_left, forall₂_leaf_cons, List.forall₂_nil_left_iff]
  constructor
  · rintro ⟨_, rfl, _, rfl, u, _, rfl, hu, _, rfl, rfl⟩
    exact ⟨u, rfl, hu⟩
  · rintro ⟨u, rfl, hu⟩
    exact ⟨_, rfl, _, rfl, u, _, rfl, hu, [], rfl, rfl⟩

/-- A call is its callee and arguments in brackets. -/
theorem spells_call {p : CallParts} {a : Args} :
    (Expr.call p a).Spells ts ↔
      ∃ o u c, ts = p.callee.token :: o :: (u ++ [c]) ∧ Piece.opening.Matches o ∧ a.Spells u ∧
        Piece.closing.Matches c := by
  rw [Expr.Spells, Expr.yield, forall₂_leaf_cons]
  simp only [List.forall₂_cons_left_iff, forall₂_append_left, List.forall₂_nil_left_iff]
  constructor
  · rintro ⟨_, rfl, o, _, ho, ⟨u, _, rfl, hu, c, _, hc, rfl, rfl⟩, rfl⟩
    exact ⟨o, u, c, rfl, ho, hu, hc⟩
  · rintro ⟨o, u, c, rfl, ho, hu, hc⟩
    exact ⟨_, rfl, o, _, ho, ⟨u, _, rfl, hu, c, [], hc, rfl, rfl⟩, rfl⟩

/-- The tokens are those of the arguments after the first, with the comma before them. -/
def Args.SpellsMore (a : Args) (ts : List Token) : Prop :=
  match a with
  | .nil => ts = []
  | .cons .. => ∃ c u, ts = c :: u ∧ c.kind = .comma ∧ a.Spells u

theorem spells_nil : Args.nil.Spells ts ↔ ts = [] := by
  simp [Args.Spells]

/-- An argument is written as its name, its value and the arguments after it. -/
theorem spells_cons {n : Option Name} {e : Expr} {a : Args} :
    (Args.cons id n e a).Spells ts ↔
      ∃ w u v, ts = w ++ (u ++ v) ∧ List.Forall₂ Piece.Matches (nameYield n) w ∧ e.Spells u ∧
        a.SpellsMore v := by
  -- a comma follows the value exactly if there are more arguments
  cases a with
  | nil =>
    rw [Args.Spells, Args.yield, forall₂_append_left]
    simp only [Args.SpellsMore, Expr.Spells]
    constructor
    · rintro ⟨w, u, rfl, hw, hu⟩
      exact ⟨w, u, [], by simp, hw, hu, rfl⟩
    · rintro ⟨w, u, _, rfl, hw, hu, rfl⟩
      exact ⟨w, u, by simp, hw, hu⟩
  | cons i m f b =>
    rw [Args.Spells, Args.yield]
    simp only [forall₂_append_left, List.forall₂_cons_left_iff, Args.SpellsMore, Expr.Spells,
      Args.Spells]
    constructor
    · rintro ⟨w, _, rfl, hw, u, _, rfl, hu, c, v, hc, hv, rfl⟩
      exact ⟨w, u, _, rfl, hw, hu, c, v, rfl, hc, hv⟩
    · rintro ⟨w, u, _, rfl, hw, hu, c, v, rfl, hc, hv⟩
      exact ⟨w, _, rfl, hw, u, _, rfl, hu, c, v, hc, hv, rfl⟩

/-- An argument without a name has nothing in front of its value. -/
theorem spells_name_none {w : List Token} :
    List.Forall₂ Piece.Matches (nameYield none) w ↔ w = [] := by
  simp [nameYield]

/-- An argument with a name has the name and a colon in front of its value. -/
theorem spells_name_some {n : Name} {w : List Token} :
    List.Forall₂ Piece.Matches (nameYield (some n)) w ↔
      ∃ k, w = [n.token, k] ∧ k.isOp ":" = true := by
  rw [nameYield, forall₂_leaf_cons]
  simp only [forall₂_singleton_left]
  constructor
  · rintro ⟨_, rfl, k, rfl, hk⟩
    exact ⟨k, rfl, hk⟩
  · rintro ⟨k, rfl, hk⟩
    exact ⟨_, rfl, k, rfl, hk⟩

end Spells

/-! ## Grouping

What the table says about trees: an operand of an operator is as tight as the operator wants it on
that side. -/

/-- The operator at the root of an expression, if there is one. -/
def Expr.op? : Expr → Option Operator
  | operation _ _ op _ => some op.op
  | _ => none

mutual

/-- Every operator of an expression has only operands that it admits. -/
def Expr.Grouped : Expr → Prop
  | .constant .. | .var .. | .global .. => True
  | .paren _ _ inner _ => inner.Grouped
  | .unary _ _ operand => operand.op? = none ∧ operand.Grouped
  | .operation _ left op right =>
    op.op.AdmitsLeft left.op? ∧ op.op.AdmitsRight right.op? ∧ left.Grouped ∧ right.Grouped
  | .element _ index => index.Grouped
  | .call _ args => args.Grouped

/-- Every operator of some arguments has only operands that it admits. -/
def Args.Grouped : Args → Prop
  | .nil => True
  | .cons _ _ value rest => value.Grouped ∧ rest.Grouped

end

/-- No operator outside brackets is looser than a limit. -/
def Expr.Within (limit : Nat) : Expr → Prop
  | operation _ left op right => op.op.prec ≤ limit ∧ left.Within limit ∧ right.Within limit
  | unary _ _ operand => operand.Within limit
  | _ => True

/-! ## Trees that differ only in what is not written

Equality of trees is too much to ask for, since ids depend on what was parsed before. -/

mutual

/-- Two expressions are the same but for the ids of their nodes and the tokens that argument lists
remember as their places. -/
inductive Expr.Alike : Expr → Expr → Prop where
  | constant {i j : Int} {a b : Constant} (h : a.token = b.token) :
      Expr.Alike (.constant i a) (.constant j b)
  | var {i j : Int} {a b : Name} (h : a.token = b.token) : Expr.Alike (.var i a) (.var j b)
  | global {i j : Int} {a b : Global} (h : a.token = b.token) : Expr.Alike (.global i a) (.global j b)
  | paren {i j : Int} {o p : Bracket .opening "("} {c d : Bracket .closing ")"} {e f : Expr}
      (ho : o.token = p.token) (h : Expr.Alike e f) (hc : c.token = d.token) :
      Expr.Alike (.paren i o e c) (.paren j p f d)
  | unary {i j : Int} {s t : Sign} {e f : Expr} (hs : s.token = t.token) (h : Expr.Alike e f) :
      Expr.Alike (.unary i s e) (.unary j t f)
  | operation {i j : Int} {l m r s : Expr} {o p : BinaryOp} (hl : Expr.Alike l m)
      (ho : o.token = p.token) (hr : Expr.Alike r s) :
      Expr.Alike (.operation i l o r) (.operation j m p s)
  | element {p q : ElementParts} {e f : Expr} (ha : p.array.token = q.array.token)
      (ho : p.opening.token = q.opening.token) (h : Expr.Alike e f)
      (hc : p.closing.token = q.closing.token) : Expr.Alike (.element p e) (.element q f)
  | call {p q : CallParts} {a b : Args} (hn : p.callee.token = q.callee.token)
      (h : Args.Alike a b) : Expr.Alike (.call p a) (.call q b)

inductive Args.Alike : Args → Args → Prop where
  | nil : Args.Alike .nil .nil
  | cons {i j : Int} {m n : Option Name} {e f : Expr} {a b : Args}
      (hn : m.map (·.token) = n.map (·.token)) (he : Expr.Alike e f) (h : Args.Alike a b) :
      Args.Alike (.cons i m e a) (.cons j n f b)

end

end Shape

end ScriptPir
