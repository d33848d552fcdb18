import ScriptPir.Proofs.Grouping

/-!
# Grouped expressions are determined by their tokens

Main statement: if two grouped expressions are written by the same tokens, they are alike
(`Expr.alike_of_spells`).

* The outer operators of an expression, with the operands between them, are its *spine*. Grouping
  makes an expression the only one with its spine (`Expr.alike_of_spine`): its root is the last of the
  loosest operators, or the first if they group to the right.
* The operands of a spine can be told from the tokens one after the other, since no operand is the
  beginning of another unless a bracket follows (`uniqueOperand_succ`, `uniqueExpr_of_uniqueOperand`).
-/

namespace ScriptPir

namespace Shape

/-! ## Spines

The spine is read off an expression without regard to its grouping. Its operands are the parts that
the grouping cannot break, so an induction on spines has them as one case (`Expr.spine_induction`). -/

/-- The leftmost operand of an expression. -/
def Expr.first : Expr → Expr
  | operation _ left _ _ => left.first
  | e => e

/-- The operators of an expression outside brackets, each with the operand after it. -/
def Expr.tail : Expr → List (BinaryOp × Expr)
  | operation _ left op right => left.tail ++ (op, right.first) :: right.tail
  | _ => []

/-- What the operators of a spine, each with the operand after it, are written as. -/
def tailYield (tail : List (BinaryOp × Expr)) : List Piece :=
  tail.flatMap fun x => .leaf x.1.token :: x.2.yield

/-- Induction along a spine: an expression is an operation, or an operand. -/
theorem Expr.spine_induction {motive : Expr → Prop}
    (operation : ∀ id left op right, motive left → motive right →
      motive (.operation id left op right))
    (operand : ∀ e, e.op? = none → motive e) (e : Expr) : motive e := by
  induction e using Expr.tail.induct with
  | case1 id left op right ihl ihr => exact operation id left op right ihl ihr
  | case2 e hne =>
    cases e with
    | operation i l o r => exact absurd rfl (hne i l o r)
    | _ => exact operand _ rfl

/-- An operand is its own first one. -/
theorem Expr.first_eq_self {e : Expr} (h : e.op? = none) : e.first = e := by
  cases e with
  | operation => cases h
  | _ => rfl

/-- An operand has no operators outside brackets. -/
theorem Expr.tail_eq_nil {e : Expr} (h : e.op? = none) : e.tail = [] := by
  cases e with
  | operation => cases h
  | _ => rfl

/-- The leftmost operand is no operation. -/
theorem Expr.op?_first (e : Expr) : e.first.op? = none := by
  induction e using Expr.spine_induction with
  | operation _ left _ _ ihl _ => rw [Expr.first]; exact ihl
  | operand e h => rw [Expr.first_eq_self h]; exact h

/-- The operands of a spine are no operations. -/
theorem Expr.op?_of_mem_tail {e : Expr} {x : BinaryOp × Expr} (h : x ∈ e.tail) :
    x.2.op? = none := by
  induction e using Expr.spine_induction with
  | operation _ left op right ihl ihr =>
    rw [Expr.tail, List.mem_append, List.mem_cons] at h
    obtain h | rfl | h := h
    · exact ihl h
    · exact right.op?_first
    · exact ihr h
  | operand e hop => rw [Expr.tail_eq_nil hop] at h; cases h

/-- An expression is written as its spine. -/
theorem Expr.yield_eq_spine (e : Expr) : e.yield = e.first.yield ++ tailYield e.tail := by
  induction e using Expr.spine_induction with
  | operation _ left op right ihl ihr =>
    rw [Expr.yield, ihl, ihr, Expr.first, Expr.tail]
    simp [tailYield]
  | operand e h =>
    rw [Expr.first_eq_self h, Expr.tail_eq_nil h]
    simp [tailYield]

/-- The operands of a grouped expression are grouped. -/
theorem Expr.grouped_spine {e : Expr} (h : e.Grouped) :
    e.first.Grouped ∧ ∀ x ∈ e.tail, x.2.Grouped := by
  induction e using Expr.spine_induction with
  | operation _ left op right ihl ihr =>
    rw [Expr.Grouped] at h
    obtain ⟨-, -, hl, hr⟩ := h
    rw [Expr.first, Expr.tail]
    refine ⟨(ihl hl).1, fun x hx => ?_⟩
    rw [List.mem_append, List.mem_cons] at hx
    obtain hx | rfl | hx := hx
    · exact (ihl hl).2 x hx
    · exact (ihr hr).1
    · exact (ihr hr).2 x hx
  | operand e hop =>
    rw [Expr.first_eq_self hop, Expr.tail_eq_nil hop]
    exact ⟨h, by simp⟩

/-! ## A spine has one grouping

Where the root of a grouped expression stands in its spine is determined by the precedences alone:
two roots at different places would have to bind both looser than each other (`not_crossed`). -/

/-- In a grouped expression the root is as loose as any operator outside brackets. -/
theorem Expr.prec_tail_le {e : Expr} (h : e.Grouped) {x : BinaryOp × Expr} (hx : x ∈ e.tail) :
    ∃ op, e.op? = some op ∧ x.1.op.prec ≤ op.prec := by
  induction e using Expr.spine_induction with
  | operation _ left op right ihl ihr =>
    rw [Expr.Grouped] at h
    obtain ⟨hleft, hright, hl, hr⟩ := h
    refine ⟨op.op, rfl, ?_⟩
    rw [Expr.tail, List.mem_append, List.mem_cons] at hx
    -- left of the root, the root itself, or right of it
    obtain hx | rfl | hx := hx
    · obtain ⟨q, hq, hle⟩ := ihl hl hx
      have := hleft q hq
      split at this <;> omega
    · exact Nat.le_refl _
    · obtain ⟨q, hq, hle⟩ := ihr hr hx
      have := hright q hq
      split at this <;> omega
  | operand e hop => rw [Expr.tail_eq_nil hop] at hx; cases hx

/-- An operator outside brackets on the left of a root that admits the whole left operand. -/
theorem prec_of_mem_left {op : Operator} {left : Expr} (hadmits : op.AdmitsLeft left.op?)
    (h : left.Grouped) {x : BinaryOp × Expr} (hx : x ∈ left.tail) :
    if op.right then x.1.op.prec < op.prec else x.1.op.prec ≤ op.prec := by
  obtain ⟨q, hq, hle⟩ := Expr.prec_tail_le h hx
  have := hadmits q hq
  split at this <;> rename_i hright <;> simp only [hright] <;> simp <;> omega

/-- An operator outside brackets on the right of a root that admits the whole right operand. -/
theorem prec_of_mem_right {op : Operator} {right : Expr} (hadmits : op.AdmitsRight right.op?)
    (h : right.Grouped) {x : BinaryOp × Expr} (hx : x ∈ right.tail) :
    if op.right then x.1.op.prec ≤ op.prec else x.1.op.prec < op.prec := by
  obtain ⟨q, hq, hle⟩ := Expr.prec_tail_le h hx
  have := hadmits q hq
  split at this <;> rename_i hright <;> simp only [hright] <;> simp <;> omega

/-- Operators with one token are the same. -/
theorem BinaryOp.op_eq {o p : BinaryOp} (h : o.token = p.token) : o.op = p.op := by
  have ho := o.ofToken_eq
  rw [h, p.ofToken_eq] at ho
  exact (Option.some.inj ho).symm

/-- No operator can be on the left of the other and have the other on its right: the one that admits
the other on its left is looser, and both directions together are impossible. -/
theorem not_crossed {o p : BinaryOp}
    (hl : if p.op.right then o.op.prec < p.op.prec else o.op.prec ≤ p.op.prec)
    (hr : if o.op.right then p.op.prec ≤ o.op.prec else p.op.prec < o.op.prec) : False := by
  have hside := Operator.right_eq_of_prec_eq (Operator.mem_table o.ofToken_eq)
    (Operator.mem_table p.ofToken_eq)
  by_cases heq : o.op.prec = p.op.prec
  · rw [hside heq] at hr
    split at hl <;> rename_i hright <;> simp only [hright] at hr <;> simp at hr <;> omega
  · split at hl <;> split at hr <;> omega

/-- In lists related item by item, every item of the first has its partner in the second. -/
theorem forall₂_partner {α β : Type} {R : α → β → Prop} {l : List α} {m : List β}
    (h : List.Forall₂ R l m) {a : α} (ha : a ∈ l) : ∃ b ∈ m, R a b := by
  induction h with
  | nil => cases ha
  | cons hR _ ih =>
    obtain rfl | ha := List.mem_cons.mp ha
    · exact ⟨_, by simp, hR⟩
    · obtain ⟨b, hb, hab⟩ := ih ha
      exact ⟨b, by simp [hb], hab⟩

/-- Two lists related item by item, each cut at one of its items: the cuts are at the same place, or
one cut falls into what the other list has before its own. -/
theorem forall₂_cut {α : Type} {R : α → α → Prop} {a b a' b' : List α} {x x' : α}
    (h : List.Forall₂ R (a ++ x :: b) (a' ++ x' :: b')) :
    (List.Forall₂ R a a' ∧ R x x' ∧ List.Forall₂ R b b') ∨
      ((∃ y ∈ a', R x y) ∧ ∃ y ∈ b, R y x') ∨ ((∃ y ∈ a, R y x') ∧ ∃ y ∈ b', R x y) := by
  induction a generalizing a' with
  | nil =>
    cases a' with
    | nil =>
      obtain ⟨hx, hb⟩ := List.forall₂_cons.mp h
      exact .inl ⟨.nil, hx, hb⟩
    | cons y a' =>
      -- the cut of the first list falls on `y`, and that of the second further on
      obtain ⟨hx, hb⟩ := List.forall₂_cons.mp h
      exact .inr (.inl ⟨⟨y, by simp, hx⟩, forall₂_partner hb.flip (by simp)⟩)
  | cons z a ih =>
    cases a' with
    | nil =>
      obtain ⟨hz, hb⟩ := List.forall₂_cons.mp h
      exact .inr (.inr ⟨⟨z, by simp, hz⟩, forall₂_partner hb (by simp)⟩)
    | cons y a' =>
      obtain ⟨hz, hrest⟩ := List.forall₂_cons.mp h
      obtain ⟨ha, hx, hb⟩ | ⟨⟨u, hu, hxu⟩, hy⟩ | ⟨⟨u, hu, hux⟩, hy⟩ := ih hrest
      · exact .inl ⟨.cons hz ha, hx, hb⟩
      · exact .inr (.inl ⟨⟨u, by simp [hu], hxu⟩, hy⟩)
      · exact .inr (.inr ⟨⟨u, by simp [hu], hux⟩, hy⟩)

/-- Two operators with their operands are the same but for ids. -/
def TailAlike (x y : BinaryOp × Expr) : Prop := x.1.token = y.1.token ∧ x.2.Alike y.2

/-- A spine has one grouping. The roots of two grouped expressions with alike spines are the same
operator: otherwise each root would stand on the left of the other, or each on the right. -/
theorem Expr.alike_of_spine {e e' : Expr} (h : e.Grouped) (h' : e'.Grouped)
    (hfirst : e.first.Alike e'.first) (htail : List.Forall₂ TailAlike e.tail e'.tail) :
    e.Alike e' := by
  induction e using Expr.spine_induction generalizing e' with
  | operand e hop =>
    rw [Expr.tail_eq_nil hop, List.forall₂_nil_left_iff] at htail
    have hop' : e'.op? = none := by
      cases e' with
      | operation j l o r => rw [Expr.tail] at htail; simp at htail
      | _ => rfl
    rwa [Expr.first_eq_self hop, Expr.first_eq_self hop'] at hfirst
  | operation i l o r ihl ihr =>
    cases hop' : e'.op? with
    | none =>
      rw [Expr.tail_eq_nil hop', List.forall₂_nil_right_iff, Expr.tail] at htail
      simp at htail
    | some q =>
      cases e' with
      | operation j l' o' r' =>
        rw [Expr.Grouped] at h h'
        obtain ⟨hleft, hright, hl, hr⟩ := h
        obtain ⟨hleft', hright', hl', hr'⟩ := h'
        rw [Expr.first, Expr.first] at hfirst
        rw [Expr.tail, Expr.tail] at htail
        -- the roots are at the same place of the spine, or one is left of the other
        obtain ⟨htl, ⟨hto, hrf⟩, htr⟩ | ⟨⟨y, hy, hoy, -⟩, z, hz, hzo, -⟩ |
          ⟨⟨y, hy, hyo, -⟩, z, hz, hoz, -⟩ := forall₂_cut htail
        · exact .operation (ihl hl hl' hfirst htl) hto (ihr hr hr' hrf htr)
        · have h₁ := prec_of_mem_left hleft' hl' hy
          have h₂ := prec_of_mem_right hright hr hz
          rw [← BinaryOp.op_eq hoy] at h₁
          rw [BinaryOp.op_eq hzo] at h₂
          exact (not_crossed h₁ h₂).elim
        · have h₁ := prec_of_mem_left hleft hl hy
          have h₂ := prec_of_mem_right hright' hr' hz
          rw [BinaryOp.op_eq hyo] at h₁
          rw [← BinaryOp.op_eq hoz] at h₂
          exact (not_crossed h₁ h₂).elim
      | _ => cases hop'

/-! ## Telling operands apart by their first token

The first token of an operand tells its constructor but for names, behind which the next token
decides. -/

/-- What a token can be the beginning of. -/
inductive Start where
  | constant
  | name
  | global
  | bracket
  | sign
deriving DecidableEq

/-- What a token is the beginning of, if an operand starts with it. -/
def startOf (t : Token) : Start :=
  if Parser.isSign t then .sign
  else if t.isName then .name
  else if t.kind = .global then .global
  else if t.kind = .opening then .bracket
  else .constant

/-- What an expression starts with. -/
def Expr.start : Expr → Start
  | constant .. => .constant
  | var .. | element .. | call .. => .name
  | global .. => .global
  | paren .. => .bracket
  | unary .. => .sign
  | operation _ left _ _ => left.start

/-- A token with a value is a constant. -/
theorem startOf_constant {t : Token} {v : Value} (h : literal t = .ok v) :
    startOf t = .constant := by
  have hkind := literal_kind h
  -- a sign or a name is of another kind, or has another text
  have hsign : ¬Parser.isSign t = true := by
    intro hs
    obtain hop | ⟨hid, hnot⟩ := isSign_kind hs
    · simp [hop] at hkind
    · simp [hid, hnot] at hkind
  have hname : ¬t.isName = true := by
    intro hn
    obtain ⟨hid, htext⟩ := isName_kind hn
    simp only [hid, reduceCtorEq, true_and, false_or] at hkind
    obtain htrue | hfalse := hkind
    · exact htext (by rw [htrue]; decide)
    · exact htext (by rw [hfalse]; decide)
  rw [startOf, if_neg hsign, if_neg hname, if_neg, if_neg] <;>
  · intro hk
    simp [hk] at hkind

/-- The first token of an expression tells what it starts with. -/
theorem Expr.startOf_token (e : Expr) : startOf e.token = e.start := by
  induction e using Expr.spine_induction with
  | operation _ left _ _ ih _ => exact ih
  -- each operand has a token of its own sort in front
  | operand e h =>
    cases e with
    | constant _ leaf => exact startOf_constant leaf.literal_eq
    | var _ name => simp [startOf, Expr.token, Expr.start, isSign_of_isName name.isName, name.isName]
    | element parts _ =>
      simp [startOf, Expr.token, Expr.start, isSign_of_isName parts.array.isName,
        parts.array.isName]
    | call parts _ =>
      simp [startOf, Expr.token, Expr.start, isSign_of_isName parts.callee.isName,
        parts.callee.isName]
    | global _ name =>
      simp [startOf, Expr.token, Expr.start, Parser.isSign, Token.isOp, Token.isKeyword,
        Token.isName, name.kind_eq]
    | paren _ opening _ _ =>
      simp [startOf, Expr.token, Expr.start, Parser.isSign, Token.isOp, Token.isKeyword,
        Token.isName, opening.kind_eq]
    | unary _ sign _ => simp [startOf, Expr.token, Expr.start, sign.isSign]
    | operation => cases h

/-- An expression is written with its token first. -/
theorem Expr.spells_head {e : Expr} {ts : List Token} (h : e.Spells ts) :
    ∃ u, ts = e.token :: u := by
  induction e using Expr.spine_induction generalizing ts with
  | operation _ left op right ih _ =>
    obtain ⟨u, v, rfl, hu, -⟩ := spells_operation.mp h
    obtain ⟨w, rfl⟩ := ih hu
    exact ⟨_, rfl⟩
  | operand e hop =>
    cases e with
    | constant => exact ⟨_, spells_constant.mp h⟩
    | var => exact ⟨_, spells_var.mp h⟩
    | global => exact ⟨_, spells_global.mp h⟩
    | paren => obtain ⟨u, rfl, -⟩ := spells_paren.mp h; exact ⟨_, rfl⟩
    | unary => obtain ⟨u, rfl, -⟩ := spells_unary.mp h; exact ⟨_, rfl⟩
    | element => obtain ⟨u, rfl, -⟩ := spells_element.mp h; exact ⟨_, rfl⟩
    | call => obtain ⟨o, u, c, rfl, -⟩ := spells_call.mp h; exact ⟨_, rfl⟩
    | operation => cases hop

/-! ## Operands, arguments and spines are told by their tokens

The tokens of an expression are followed by others, and two expressions may be followed by different
ones. What follows an operand is no opening bracket, and what follows a whole expression is no binary
operator either. The induction is on the number of tokens. -/

/-- What may follow an operand. -/
def FollowsOperand (r : List Token) : Prop := ∀ t, r.head? = some t → t.kind ≠ .opening

/-- What may follow an expression. -/
def FollowsExpr (r : List Token) : Prop :=
  ∀ t, r.head? = some t → t.kind ≠ .opening ∧ Operator.ofToken? t = none

/-- Operands of at most `n` tokens are told by their tokens. -/
def UniqueOperand (n : Nat) : Prop :=
  ∀ (o o' : Expr) (a b r r' : List Token), a.length ≤ n → b.length ≤ n → o.op? = none →
    o'.op? = none → o.Grouped → o'.Grouped → o.Spells a → o'.Spells b → FollowsOperand r →
    FollowsOperand r' → a ++ r = b ++ r' → o.Alike o' ∧ a = b

/-- Expressions of at most `n` tokens are told by their tokens. -/
def UniqueExpr (n : Nat) : Prop :=
  ∀ (e e' : Expr) (a b r r' : List Token), a.length ≤ n → b.length ≤ n → e.Grouped →
    e'.Grouped → e.Spells a → e'.Spells b → FollowsExpr r → FollowsExpr r' →
    a ++ r = b ++ r' → e.Alike e' ∧ a = b

/-- A closing bracket or a comma may follow an expression. -/
theorem followsExpr_of_kind {t : Token} {r : List Token}
    (h : t.kind = .closing ∨ t.kind = .comma) : FollowsExpr (t :: r) := by
  intro u hu
  obtain rfl : t = u := by simpa using hu
  refine ⟨by obtain h | h := h <;> rw [h] <;> decide, ?_⟩
  cases hop : Operator.ofToken? t with
  | none => rfl
  | some op =>
    have hkind := Operator.token_kind hop
    obtain h | h := h <;> simp [h] at hkind

/-- A colon may follow an expression. -/
theorem followsExpr_colon {t : Token} {r : List Token} (h : t.isOp ":" = true) :
    FollowsExpr (t :: r) := by
  intro u hu
  obtain rfl : t = u := by simpa using hu
  obtain ⟨hkind, htext⟩ : t.kind = .op ∧ t.text = ":" := by simpa [Token.isOp] using h
  refine ⟨by rw [hkind]; decide, ?_⟩
  rw [Operator.ofToken?, htext]
  simp [Operator.table]

theorem FollowsExpr.operand {r : List Token} (h : FollowsExpr r) : FollowsOperand r :=
  fun t ht => (h t ht).1

/-- An operator may follow an operand. -/
theorem followsOperand_op (o : BinaryOp) (r : List Token) : FollowsOperand (o.token :: r) := by
  intro u hu
  obtain rfl : o.token = u := by simpa using hu
  obtain h | h := Operator.token_kind o.ofToken_eq <;> rw [h] <;> decide

/-- What may follow an argument: the next one, or the end of the list. -/
theorem followsExpr_more {a : Args} {v r : List Token} {c : Token} (hv : a.SpellsMore v)
    (hc : c.kind = .closing) : FollowsExpr (v ++ c :: r) := by
  cases a with
  | nil => rw [show v = [] from hv]; exact followsExpr_of_kind (.inl hc)
  | cons =>
    obtain ⟨m, w, rfl, hm, -⟩ := hv
    exact followsExpr_of_kind (.inr hm)

theorem spells_name (n : Name) : (Expr.var 0 n).Spells [n.token] := spells_var.mpr rfl

/-- An expression does not start with a closing bracket. -/
theorem Expr.token_not_closing (e : Expr) : e.token.kind ≠ .closing := by
  intro hkind
  have hstart := e.startOf_token
  induction e using Expr.spine_induction with
  | operation _ left _ _ ih _ => exact ih hkind left.startOf_token
  | operand e h =>
    cases e with
    | constant _ leaf => have := literal_kind leaf.literal_eq; simp_all [Expr.token]
    | var _ name => have := isName_kind name.isName; simp_all [Expr.token]
    | global _ name => have := name.kind_eq; simp_all [Expr.token]
    | paren _ opening _ _ => have := opening.kind_eq; simp_all [Expr.token]
    | unary _ sign _ => have := isSign_kind sign.isSign; simp_all [Expr.token]
    | element parts _ => have := isName_kind parts.array.isName; simp_all [Expr.token]
    | call parts _ => have := isName_kind parts.callee.isName; simp_all [Expr.token]
    | operation => cases h

/-- A value without a name does not start like one with a name: if it did, it would be that name alone
by induction, and a colon would follow it. -/
theorem value_not_named {n : Nat} (ih : UniqueExpr n) {e : Expr} {m : Name} {k : Token}
    {u r s : List Token} (hlen : u.length ≤ n) (he : e.Grouped) (hu : e.Spells u)
    (hr : FollowsExpr r) (hk : k.isOp ":" = true) (heq : u ++ r = m.token :: k :: s)
    (hend : ∀ t, r.head? = some t → t.kind ≠ .op) : False := by
  have hpos : 0 < u.length := by
    obtain ⟨w, rfl⟩ := Expr.spells_head hu
    simp
  obtain ⟨-, rfl⟩ := ih e (.var 0 m) u [m.token] r (k :: s) hlen
    (by rw [List.length_singleton]; omega) he trivial hu (spells_name m) hr
    (followsExpr_colon hk) (by simpa using heq)
  obtain rfl : r = k :: s := by simpa using heq
  obtain ⟨hkind, -⟩ : k.kind = .op ∧ k.text = ":" := by simpa [Token.isOp] using hk
  exact hend k rfl hkind

/-- Behind an argument there is no operator, but a comma or the closing bracket. -/
theorem more_head_kind {a : Args} {v r : List Token} {c : Token} (hv : a.SpellsMore v)
    (hc : c.kind = .closing) : ∀ t, (v ++ c :: r).head? = some t → t.kind ≠ .op := by
  intro t ht
  cases a with
  | nil =>
    rw [show v = [] from hv] at ht
    obtain rfl : c = t := by simpa using ht
    rw [hc]; decide
  | cons =>
    obtain ⟨m, w, rfl, hm, -⟩ := hv
    obtain rfl : m = t := by simpa using ht
    rw [hm]; decide

/-- Some arguments are written with a token first that is no closing bracket. -/
theorem args_head {id : Int} {m : Option Name} {e : Expr} {a : Args} {u : List Token}
    (h : (Args.cons id m e a).Spells u) : ∃ t w, u = t :: w ∧ t.kind ≠ .closing := by
  obtain ⟨w, v, x, rfl, hw, hv, -⟩ := spells_cons.mp h
  cases m with
  | none =>
    obtain ⟨y, rfl⟩ := Expr.spells_head hv
    rw [spells_name_none.mp hw]
    exact ⟨_, _, rfl, e.token_not_closing⟩
  | some m =>
    obtain ⟨k, rfl, -⟩ := spells_name_some.mp hw
    refine ⟨_, _, rfl, ?_⟩
    rw [(isName_kind m.isName).1]
    decide

/-- The value of an argument, with what stands before it, is told by the tokens. -/
theorem arg_unique {n : Nat} (ih : UniqueExpr n) {m m' : Option Name} {e e' : Expr}
    {w w' u u' r r' : List Token} (hlen : u.length ≤ n) (hlen' : u'.length ≤ n)
    (he : e.Grouped) (he' : e'.Grouped) (hw : List.Forall₂ Piece.Matches (nameYield m) w)
    (hw' : List.Forall₂ Piece.Matches (nameYield m') w') (hu : e.Spells u) (hu' : e'.Spells u')
    (hr : FollowsExpr r) (hr' : FollowsExpr r')
    (hend : ∀ t, r.head? = some t → t.kind ≠ .op) (hend' : ∀ t, r'.head? = some t → t.kind ≠ .op)
    (heq : w ++ (u ++ r) = w' ++ (u' ++ r')) :
    m.map (·.token) = m'.map (·.token) ∧ e.Alike e' ∧ w ++ u = w' ++ u' ∧ r = r' := by
  -- a value is not read as a name with a colon, so both have a name or none has
  match m, m' with
  | none, none =>
    obtain rfl := spells_name_none.mp hw
    obtain rfl := spells_name_none.mp hw'
    obtain ⟨halike, rfl⟩ := ih e e' u u' r r' hlen hlen' he he' hu hu' hr hr' heq
    exact ⟨rfl, halike, rfl, List.append_cancel_left heq⟩
  | none, some m' =>
    obtain rfl := spells_name_none.mp hw
    obtain ⟨k, rfl, hk⟩ := spells_name_some.mp hw'
    exact (value_not_named ih hlen he hu hr hk (by simpa using heq) hend).elim
  | some m, none =>
    obtain ⟨k, rfl, hk⟩ := spells_name_some.mp hw
    obtain rfl := spells_name_none.mp hw'
    exact (value_not_named ih hlen' he' hu' hr' hk (by simpa using heq.symm) hend').elim
  | some m, some m' =>
    obtain ⟨k, rfl, hk⟩ := spells_name_some.mp hw
    obtain ⟨k', rfl, hk'⟩ := spells_name_some.mp hw'
    simp only [List.cons_append, List.nil_append, List.cons.injEq] at heq
    obtain ⟨hname, rfl, heq⟩ := heq
    obtain ⟨halike, rfl⟩ := ih e e' u u' r r' hlen hlen' he he' hu hu' hr hr' heq
    exact ⟨by simp [hname], halike, by simp [hname], List.append_cancel_left heq⟩

/-- Arguments are told by their tokens, up to the closing bracket. -/
theorem args_unique {n : Nat} (ih : UniqueExpr n) {u u' r r' : List Token} {c c' : Token}
    (hlen : u.length ≤ n) (hlen' : u'.length ≤ n) (hc : c.kind = .closing)
    (hc' : c'.kind = .closing) (heq : u ++ c :: r = u' ++ c' :: r') :
    ∀ {a a' : Args}, a.Grouped → a'.Grouped → a.Spells u → a'.Spells u' → a.Alike a' ∧ u = u'
  | .nil, .nil, _, _, hu, hu' => by
    rw [spells_nil] at hu hu'
    exact ⟨.nil, by rw [hu, hu']⟩
  | .nil, .cons _ m e b, _, _, hu, hu' => by
    rw [spells_nil] at hu
    obtain ⟨t, w, rfl, ht⟩ := args_head hu'
    rw [hu] at heq
    obtain rfl : c = t := by simpa using congrArg List.head? heq
    exact absurd hc ht
  | .cons _ m e b, .nil, _, _, hu, hu' => by
    rw [spells_nil] at hu'
    obtain ⟨t, w, rfl, ht⟩ := args_head hu
    rw [hu'] at heq
    obtain rfl : t = c' := by simpa using congrArg List.head? heq
    exact absurd hc' ht
  | .cons _ m e b, .cons _ m' e' b', ⟨he, hb⟩, ⟨he', hb'⟩, hu, hu' => by
    obtain ⟨w, x, v, rfl, hw, hx, hv⟩ := spells_cons.mp hu
    obtain ⟨w', x', v', rfl, hw', hx', hv'⟩ := spells_cons.mp hu'
    simp only [List.length_append] at hlen hlen'
    -- the first arguments are alike, and both lists go on or end behind them
    obtain ⟨hname, halike, hwx, hrest⟩ := arg_unique ih (by omega) (by omega) he he' hw hw' hx hx'
      (followsExpr_more hv hc) (followsExpr_more hv' hc') (more_head_kind hv hc)
      (more_head_kind hv' hc') (by simpa using heq)
    rw [← List.append_assoc, ← List.append_assoc, hwx]
    match b, b' with
    | .nil, .nil =>
      rw [show v = [] from hv, show v' = [] from hv']
      exact ⟨.cons hname halike .nil, rfl⟩
    | .nil, .cons .. =>
      obtain ⟨k, y, rfl, hk, -⟩ := hv'
      rw [show v = [] from hv] at hrest
      obtain rfl : c = k := by simpa using congrArg List.head? hrest
      rw [hc] at hk; cases hk
    | .cons .., .nil =>
      obtain ⟨k, y, rfl, hk, -⟩ := hv
      rw [show v' = [] from hv'] at hrest
      obtain rfl : k = c' := by simpa using congrArg List.head? hrest
      rw [hc'] at hk; cases hk
    | .cons i p f d, .cons i' p' f' d' =>
      obtain ⟨k, y, rfl, hk, hy⟩ := hv
      obtain ⟨k', y', rfl, hk', hy'⟩ := hv'
      simp only [List.cons_append, List.cons.injEq] at hrest
      obtain ⟨rfl, hrest⟩ := hrest
      simp only [List.length_cons] at hlen hlen'
      obtain ⟨hmore, rfl⟩ := args_unique ih (by omega) (by omega) hc hc' hrest hb hb' hy hy'
      exact ⟨.cons hname halike hmore, rfl⟩

/-- An expression in brackets is told by the tokens from the opening bracket on. -/
theorem enclosed_unique {n : Nat} (ih : UniqueExpr n) {e e' : Expr} {u v r r' : List Token}
    {c c' : Token} (hlen : u.length ≤ n) (hlen' : v.length ≤ n) (hu : e.Spells u) (hv : e'.Spells v)
    (he : e.Grouped) (he' : e'.Grouped) (hc : c.kind = .closing) (hc' : c'.kind = .closing)
    (heq : u ++ c :: r = v ++ c' :: r') : e.Alike e' ∧ u = v ∧ c = c' := by
  obtain ⟨halike, rfl⟩ := ih e e' u v (c :: r) (c' :: r') hlen hlen' he he' hu hv
    (followsExpr_of_kind (.inl hc)) (followsExpr_of_kind (.inl hc')) heq
  have hrest := List.append_cancel_left heq
  exact ⟨halike, rfl, (List.cons.inj hrest).1⟩

/-- Operands that start with a name are told by their tokens. Behind the name stands a bracket of one
kind or the other, or, for a variable, none. -/
theorem named_unique {n : Nat} (ih : UniqueExpr n) {o o' : Expr} {a b r r' : List Token}
    (hlen : a.length ≤ n + 1) (hlen' : b.length ≤ n + 1) (hop : o.op? = none) (hop' : o'.op? = none)
    (hg : o.Grouped) (hg' : o'.Grouped) (ha : o.Spells a) (hb : o'.Spells b)
    (hr : FollowsOperand r) (hr' : FollowsOperand r') (heq : a ++ r = b ++ r')
    (hname : o.start = .name) (hname' : o'.start = .name) : o.Alike o' ∧ a = b := by
  cases o with
  | operation => cases hop
  | var i m =>
    rw [spells_var] at ha
    subst ha
    cases o' with
    | var j m' =>
      rw [spells_var] at hb
      subst hb
      have htoken := (List.cons.inj heq).1
      exact ⟨.var htoken, by rw [htoken]⟩
    | element p e =>
      obtain ⟨v, rfl, -⟩ := spells_element.mp hb
      simp only [List.cons_append, List.nil_append, List.cons.injEq] at heq
      exact absurd p.opening.kind_eq (hr _ (by rw [heq.2]; rfl))
    | call p e =>
      obtain ⟨k, v, c, rfl, hk, -⟩ := spells_call.mp hb
      simp only [List.cons_append, List.nil_append, List.cons.injEq] at heq
      exact absurd hk.1 (hr _ (by rw [heq.2]; rfl))
    | operation => cases hop'
    | _ => cases hname'
  | element p e =>
    obtain ⟨u, rfl, hu⟩ := spells_element.mp ha
    cases o' with
    | var j m' =>
      rw [spells_var] at hb
      subst hb
      simp only [List.cons_append, List.nil_append, List.cons.injEq] at heq
      exact absurd p.opening.kind_eq (hr' _ (by rw [← heq.2]; rfl))
    | element p' e' =>
      obtain ⟨v, rfl, hv⟩ := spells_element.mp hb
      simp only [List.cons_append, List.append_assoc, List.nil_append, List.cons.injEq] at heq
      simp only [List.length_cons, List.length_append] at hlen hlen'
      obtain ⟨halike, rfl, hc⟩ := enclosed_unique ih (by omega) (by omega) hu hv hg hg'
        p.closing.kind_eq p'.closing.kind_eq heq.2.2
      exact ⟨.element heq.1 heq.2.1 halike hc, by rw [heq.1, heq.2.1, hc]⟩
    | call p' e' =>
      -- the brackets differ
      obtain ⟨k, v, c, rfl, hk, -⟩ := spells_call.mp hb
      simp only [List.cons_append, List.cons.injEq] at heq
      have htext := p.opening.text_eq
      rw [heq.2.1, hk.2] at htext
      exact absurd htext (by decide)
    | operation => cases hop'
    | _ => cases hname'
  | call p as =>
    obtain ⟨k, u, c, rfl, hk, hu, hc⟩ := spells_call.mp ha
    cases o' with
    | var j m' =>
      rw [spells_var] at hb
      subst hb
      simp only [List.cons_append, List.nil_append, List.cons.injEq] at heq
      exact absurd hk.1 (hr' _ (by rw [← heq.2]; rfl))
    | element p' e' =>
      obtain ⟨v, rfl, hv⟩ := spells_element.mp hb
      simp only [List.cons_append, List.cons.injEq] at heq
      have htext := p'.opening.text_eq
      rw [← heq.2.1, hk.2] at htext
      exact absurd htext (by decide)
    | call p' as' =>
      obtain ⟨k', v, c', rfl, hk', hv, hc'⟩ := spells_call.mp hb
      simp only [List.cons_append, List.append_assoc, List.nil_append, List.cons.injEq] at heq
      simp only [List.length_cons, List.length_append] at hlen hlen'
      obtain ⟨halike, rfl⟩ := args_unique ih (by omega) (by omega) hc.1 hc'.1 heq.2.2 hg hg' hu hv
      obtain ⟨hcc, -⟩ : c = c' ∧ r = r' := by simpa using heq.2.2
      exact ⟨.call heq.1 halike, by rw [heq.1, heq.2.1, hcc]⟩
    | operation => cases hop'
    | _ => cases hname'
  | _ => cases hname

/-- Operands of one more token are told by their tokens. They start alike, so they are of one kind,
and what is inside their brackets is shorter. -/
theorem uniqueOperand_succ {n : Nat} (ho : UniqueOperand n) (he : UniqueExpr n) :
    UniqueOperand (n + 1) := by
  intro o o' a b r r' hlen hlen' hop hop' hg hg' ha hb hr hr' heq
  have htoken : o.token = o'.token := by
    obtain ⟨x, rfl⟩ := Expr.spells_head ha
    obtain ⟨y, rfl⟩ := Expr.spells_head hb
    simpa using congrArg List.head? heq
  -- with the first token, all pairs of different kinds but those of names are ruled out
  have hstart : o.start = o'.start := by
    rw [← Expr.startOf_token, ← Expr.startOf_token, htoken]
  cases o with
  | operation => cases hop
  | var | element | call =>
    exact named_unique he hlen hlen' hop hop' hg hg' ha hb hr hr' heq rfl hstart.symm
  | constant i l =>
    cases o' with
    | constant j m =>
      rw [spells_constant] at ha hb
      exact ⟨.constant htoken, by rw [ha, hb]; exact congrArg (fun t => [t]) htoken⟩
    | operation => cases hop'
    | _ => cases hstart
  | global i l =>
    cases o' with
    | global j m =>
      rw [spells_global] at ha hb
      exact ⟨.global htoken, by rw [ha, hb]; exact congrArg (fun t => [t]) htoken⟩
    | operation => cases hop'
    | _ => cases hstart
  | paren i p e c =>
    cases o' with
    | paren j p' e' c' =>
      obtain ⟨u, rfl, hu⟩ := spells_paren.mp ha
      obtain ⟨v, rfl, hv⟩ := spells_paren.mp hb
      simp only [List.cons_append, List.append_assoc, List.cons.injEq, List.nil_append] at heq
      simp only [List.length_cons, List.length_append] at hlen hlen'
      obtain ⟨halike, rfl, hc⟩ := enclosed_unique he (by omega) (by omega) hu hv hg hg' c.kind_eq
        c'.kind_eq heq.2
      exact ⟨.paren htoken halike hc, by rw [heq.1, hc]⟩
    | operation => cases hop'
    | _ => cases hstart
  | unary i s e =>
    cases o' with
    | unary j s' e' =>
      obtain ⟨u, rfl, hu⟩ := spells_unary.mp ha
      obtain ⟨v, rfl, hv⟩ := spells_unary.mp hb
      simp only [List.cons_append, List.cons.injEq] at heq
      simp only [List.length_cons] at hlen hlen'
      -- a sign has an operand behind it, which is followed by the same as the whole
      obtain ⟨halike, rfl⟩ := ho e e' u v r r' (by omega) (by omega) hg.1 hg'.1 hg.2 hg'.2
        hu hv hr hr' heq.2
      exact ⟨.unary htoken halike, by rw [heq.1]⟩
    | operation => cases hop'
    | _ => cases hstart

/-- What may follow an operand of a spine: the operators after it, or what follows the spine. -/
theorem followsOperand_tail {l : List (BinaryOp × Expr)} {s r : List Token}
    (hs : List.Forall₂ Piece.Matches (tailYield l) s) (hr : FollowsExpr r) :
    FollowsOperand (s ++ r) := by
  cases l with
  | nil => rw [List.forall₂_nil_left_iff.mp hs]; exact hr.operand
  | cons x l =>
    obtain ⟨s, rfl, -⟩ := forall₂_leaf_cons.mp hs
    exact followsOperand_op x.1 _

/-- The operators of a spine and their operands are told by their tokens. -/
theorem tail_unique {n : Nat} (ho : UniqueOperand n) {l l' : List (BinaryOp × Expr)}
    {a b r r' : List Token} (hlen : a.length ≤ n) (hlen' : b.length ≤ n)
    (hl : ∀ x ∈ l, x.2.op? = none ∧ x.2.Grouped) (hl' : ∀ x ∈ l', x.2.op? = none ∧ x.2.Grouped)
    (ha : List.Forall₂ Piece.Matches (tailYield l) a)
    (hb : List.Forall₂ Piece.Matches (tailYield l') b) (hr : FollowsExpr r) (hr' : FollowsExpr r')
    (heq : a ++ r = b ++ r') : List.Forall₂ TailAlike l l' ∧ a = b := by
  induction l generalizing l' a b with
  | nil =>
    obtain rfl := List.forall₂_nil_left_iff.mp ha
    cases l' with
    | nil => exact ⟨.nil, (List.forall₂_nil_left_iff.mp hb).symm⟩
    | cons y l' =>
      -- what follows the first spine would start with an operator of the second
      obtain ⟨v, rfl, -⟩ := forall₂_leaf_cons.mp hb
      have := (hr y.1.token (by rw [show r = _ from heq]; rfl)).2
      rw [y.1.ofToken_eq] at this
      cases this
  | cons x l ih =>
    obtain ⟨u, rfl, hu⟩ := forall₂_leaf_cons.mp ha
    cases l' with
    | nil =>
      obtain rfl := List.forall₂_nil_left_iff.mp hb
      have := (hr' x.1.token (by rw [show r' = _ from heq.symm]; rfl)).2
      rw [x.1.ofToken_eq] at this
      cases this
    | cons y l' =>
      obtain ⟨v, rfl, hv⟩ := forall₂_leaf_cons.mp hb
      obtain ⟨u₁, u₂, rfl, hu₁, hu₂⟩ := forall₂_append_left.mp hu
      obtain ⟨v₁, v₂, rfl, hv₁, hv₂⟩ := forall₂_append_left.mp hv
      simp only [List.cons_append, List.append_assoc, List.cons.injEq] at heq
      simp only [List.length_cons, List.length_append] at hlen hlen'
      obtain ⟨hx, hxg⟩ := hl x (by simp)
      obtain ⟨hy, hyg⟩ := hl' y (by simp)
      obtain ⟨halike, rfl⟩ := ho x.2 y.2 u₁ v₁ (u₂ ++ r) (v₂ ++ r') (by omega) (by omega) hx hy hxg
        hyg hu₁ hv₁ (followsOperand_tail hu₂ hr) (followsOperand_tail hv₂ hr') heq.2
      obtain ⟨htail, rfl⟩ := ih (by omega) (by omega) (fun z hz => hl z (by simp [hz]))
        (fun z hz => hl' z (by simp [hz])) hu₂ hv₂ (List.append_cancel_left heq.2)
      exact ⟨.cons ⟨heq.1, halike⟩ htail, by rw [heq.1]⟩

/-- Expressions are told by their tokens as soon as operands are: their spines are alike, and a spine
has one grouping. -/
theorem uniqueExpr_of_uniqueOperand {n : Nat} (ho : UniqueOperand n) : UniqueExpr n := by
  intro e e' a b r r' hlen hlen' hg hg' ha hb hr hr' heq
  rw [Expr.Spells, Expr.yield_eq_spine] at ha hb
  obtain ⟨a₁, a₂, rfl, ha₁, ha₂⟩ := forall₂_append_left.mp ha
  obtain ⟨b₁, b₂, rfl, hb₁, hb₂⟩ := forall₂_append_left.mp hb
  obtain ⟨hfirst, htail⟩ := Expr.grouped_spine hg
  obtain ⟨hfirst', htail'⟩ := Expr.grouped_spine hg'
  simp only [List.append_assoc] at heq
  simp only [List.length_append] at hlen hlen'
  obtain ⟨halike, rfl⟩ := ho e.first e'.first a₁ b₁ (a₂ ++ r) (b₂ ++ r') (by omega) (by omega)
    e.op?_first e'.op?_first hfirst hfirst' ha₁ hb₁ (followsOperand_tail ha₂ hr)
    (followsOperand_tail hb₂ hr') heq
  obtain ⟨htails, rfl⟩ := tail_unique ho (by omega) (by omega)
    (fun x hx => ⟨Expr.op?_of_mem_tail hx, htail x hx⟩)
    (fun x hx => ⟨Expr.op?_of_mem_tail hx, htail' x hx⟩) ha₂ hb₂ hr hr'
    (List.append_cancel_left heq)
  exact ⟨Expr.alike_of_spine hg hg' halike htails, rfl⟩

/-- Operands are told by their tokens, however many. -/
theorem uniqueOperand (n : Nat) : UniqueOperand n := by
  induction n with
  | zero =>
    intro o _ a _ _ _ hlen _ _ _ _ _ ha
    obtain ⟨u, rfl⟩ := Expr.spells_head ha
    simp at hlen
  | succ n ih => exact uniqueOperand_succ ih (uniqueExpr_of_uniqueOperand ih)

/-- Grouped expressions that are written by the same tokens are alike. -/
theorem Expr.alike_of_spells {e e' : Expr} {ts : List Token} (hg : e.Grouped) (hg' : e'.Grouped)
    (h : e.Spells ts) (h' : e'.Spells ts) : e.Alike e' := by
  have hnothing : FollowsExpr [] := by
    intro t ht
    cases ht
  exact (uniqueExpr_of_uniqueOperand (uniqueOperand ts.length) e e' ts ts [] [] (Nat.le_refl _)
    (Nat.le_refl _) hg hg' h h' hnothing hnothing rfl).1

end Shape

end ScriptPir
