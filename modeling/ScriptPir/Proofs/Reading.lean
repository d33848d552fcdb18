import ScriptPir.Proofs.Shape

/-!
# What a parser does when it succeeds

Facts about parsers are stated as postconditions: `Parser.Yields p c Q` says that whenever `p`
succeeds from the cursor `c`, its result and the cursor it leaves satisfy `Q`. Sequencing, choice and
the primitive parsers have one rule each, and every production is followed step by step through
these rules.

What a production has read is said by `Read c sig ids c'`: between the cursors `c` and `c'` it took
tokens that are `sig` once line feeds are left out, and it made nodes whose ids are exactly the
numbers from `c.nextId` up to `c'.nextId`, each once.
-/

namespace ScriptPir

/-! ## Cursors

A step is described by what lies between its two cursors. Line feeds are left out of the description,
since where they may stand is a matter of its own. -/

/-- The token `i` places ahead, or the fault that stands in its place. -/
def Cursor.ahead (c : Cursor) (i : Nat := 0) : Except SyntaxError Token :=
  match c.rest[i]? with
  | some t => .ok t
  | none => c.ending

/-- The cursor behind the next token. -/
def Cursor.advanced (c : Cursor) : Cursor := { c with rest := c.rest.tail }

/-- What every cursor of a parse keeps: only the end of input stands behind the last token. -/
def Cursor.Closed (c : Cursor) : Prop := ∀ t, c.ending = .ok t → t.kind = .eof

theorem Cursor.ahead_advanced (c : Cursor) : c.advanced.ahead = c.ahead 1 := by
  simp [Cursor.ahead, Cursor.advanced]

/-- The step from `c` to `c'` takes tokens that are `sig` but for line feeds, and makes nodes with
the ids `ids`, which are the numbers in between. -/
structure Read (c : Cursor) (sig : List Token) (ids : List Int) (c' : Cursor) : Prop where
  used : ∃ used, c.rest = used ++ c'.rest ∧ used.filter (!·.isNewline) = sig
  ending_eq : c'.ending = c.ending
  nextId_le : c.nextId ≤ c'.nextId
  count_ids : ∀ i : Int, ids.count i = if (c.nextId : Int) ≤ i ∧ i < c'.nextId then 1 else 0

namespace Read

variable {c c₁ c₂ : Cursor} {sig sig₁ sig₂ : List Token} {ids ids₁ ids₂ : List Int}

theorem refl (c : Cursor) : Read c [] [] c := by
  refine ⟨⟨[], by simp, by simp⟩, rfl, Nat.le_refl _, fun i => ?_⟩
  rw [List.count_nil, if_neg (by omega)]

/-- Steps compose: what they take and what they make is put together. -/
theorem trans (h₁ : Read c sig₁ ids₁ c₁) (h₂ : Read c₁ sig₂ ids₂ c₂) :
    Read c (sig₁ ++ sig₂) (ids₁ ++ ids₂) c₂ := by
  obtain ⟨used₁, hrest₁, hsig₁⟩ := h₁.used
  obtain ⟨used₂, hrest₂, hsig₂⟩ := h₂.used
  have hle₁ := h₁.nextId_le
  have hle₂ := h₂.nextId_le
  refine ⟨⟨used₁ ++ used₂, ?_, ?_⟩, ?_, by omega, fun i => ?_⟩
  · rw [hrest₁, hrest₂, List.append_assoc]
  · rw [List.filter_append, hsig₁, hsig₂]
  · rw [h₂.ending_eq, h₁.ending_eq]
  · rw [List.count_append, h₁.count_ids, h₂.count_ids]
    -- the two ranges of ids are next to each other
    split <;> split <;> split <;> omega

/-- Only how often each id was made matters, not where it stands in the tree. -/
theorem reorder (h : Read c sig₁ ids₁ c₁) (hsig : sig₂ = sig₁)
    (hcount : ∀ i, ids₂.count i = ids₁.count i) : Read c sig₂ ids₂ c₁ :=
  ⟨hsig ▸ h.used, h.ending_eq, h.nextId_le, fun i => (hcount i).trans (h.count_ids i)⟩

/-- A list of tokens that ends properly does so behind a step. -/
theorem closed (h : Read c sig ids c₁) (hc : c.Closed) : c₁.Closed :=
  fun t ht => hc t (h.ending_eq ▸ ht)

/-- Behind a step there are no tokens that were not there before. -/
theorem mem_rest (h : Read c sig ids c₁) {t : Token} (ht : t ∈ c₁.rest) : t ∈ c.rest := by
  obtain ⟨used, hrest, -⟩ := h.used
  rw [hrest]
  exact List.mem_append_right _ ht

/-- A step makes no id twice. -/
theorem nodup (h : Read c sig ids c₁) : ids.Nodup := by
  rw [List.nodup_iff_count]
  intro i
  rw [h.count_ids i]
  split <;> omega

/-- The ids of a step are not below the next one before it. -/
theorem le_of_mem (h : Read c sig ids c₁) {i : Int} (hi : i ∈ ids) : (c.nextId : Int) ≤ i := by
  have hpos := List.count_pos_iff.mpr hi
  rw [h.count_ids i] at hpos
  split at hpos <;> omega

end Read

/-- Taking the next token reads it, unless it is the end of input or a separator. -/
theorem read_advanced {c : Cursor} {t : Token} (hc : c.Closed) (ht : c.ahead = .ok t)
    (hkind : t.kind ≠ .eof) (hsemi : t.kind ≠ .semi) : Read c [t] [] c.advanced := by
  have hline : t.isNewline = false := by simp [Token.isNewline, hsemi]
  unfold Cursor.ahead at ht
  cases hrest : c.rest with
  | nil =>
    rw [hrest] at ht
    exact absurd (hc t ht) hkind
  | cons u rest =>
    rw [hrest] at ht
    cases ht
    refine ⟨⟨[t], by simp [Cursor.advanced, hrest], by simp [hline]⟩, rfl, Nat.le_refl _, ?_⟩
    exact (Read.refl c).count_ids

/-- Taking the next token, whatever it is, makes no node. -/
theorem exists_read_advanced (c : Cursor) : ∃ sig, Read c sig [] c.advanced := by
  refine ⟨(c.rest.take 1).filter (!·.isNewline), ⟨c.rest.take 1, ?_, rfl⟩, rfl, Nat.le_refl _,
    (Read.refl c).count_ids⟩
  cases hrest : c.rest <;> simp [Cursor.advanced, hrest]

namespace Parser

variable {α β : Type}

/-! ## Postconditions

A postcondition says nothing of a parser that fails; errors are treated in modules of their own. The
rules below are those of a program logic, one for each way to put parsers together. -/

/-- Whenever `p` succeeds from `c`, its result and the cursor it leaves satisfy `Q`. -/
def Yields (p : Parser α) (c : Cursor) (Q : α → Cursor → Prop) : Prop :=
  ∀ a c', p.run c = .ok (a, c') → Q a c'

variable {c : Cursor} {Q : β → Cursor → Prop}

theorem Yields.mono {p : Parser α} {P R : α → Cursor → Prop} (h : p.Yields c P)
    (hle : ∀ a c', P a c' → R a c') : p.Yields c R :=
  fun a c' hrun => hle a c' (h a c' hrun)

theorem Yields.and {p : Parser α} {P R : α → Cursor → Prop} (hP : p.Yields c P)
    (hR : p.Yields c R) : p.Yields c fun a c' => P a c' ∧ R a c' :=
  fun a c' hrun => ⟨hP a c' hrun, hR a c' hrun⟩

/-- A result without a parser has what is known of it. -/
theorem yields_pure {a : β} (h : Q a c) : (pure a : Parser β).Yields c Q := by
  intro b c' hrun
  cases hrun
  exact h

/-- A result known already can be kept beside what the rest of the parse yields. -/
theorem yields_bind {p : Parser α} {f : α → Parser β} {P : α → Cursor → Prop} (hp : p.Yields c P)
    (hf : ∀ a c', P a c' → (f a).Yields c' Q) : (p >>= f).Yields c Q := by
  intro b c'' hrun
  rw [StateT.run_bind] at hrun
  cases hpc : p.run c with
  | error e => rw [hpc] at hrun; cases hrun
  | ok r =>
    rw [hpc] at hrun
    exact hf r.1 r.2 (hp r.1 r.2 hpc) b c'' hrun

/-- A function of the result has what is known of its value. -/
theorem yields_map {p : Parser α} {f : α → β} {P : α → Cursor → Prop} (hp : p.Yields c P)
    (hf : ∀ a c', P a c' → Q (f a) c') : (f <$> p).Yields c Q := by
  rw [map_eq_pure_bind]
  exact yields_bind hp fun a c' ha => yields_pure (hf a c' ha)

theorem yields_fail {t : Token} {fault : SyntaxFault} : (fail t fault : Parser β).Yields c Q := by
  intro b c' hrun
  cases hrun

theorem yields_fail_bind {t : Token} {fault : SyntaxFault} {f : α → Parser β} :
    (fail t fault >>= f).Yields c Q :=
  yields_bind (P := fun _ _ => False) yields_fail fun _ _ h => h.elim

/-- A choice has what both branches have, each under its condition. -/
theorem yields_ite {b : Prop} [Decidable b] {p q : Parser β} (hp : b → p.Yields c Q)
    (hq : ¬b → q.Yields c Q) : (if b then p else q).Yields c Q := by
  split
  · exact hp ‹_›
  · exact hq ‹_›

/-- A choice whose branches go on in the same way. -/
theorem yields_ite_bind {b : Prop} [Decidable b] {p q : Parser α} {f : α → Parser β}
    {P : α → Cursor → Prop} (h : (if b then p else q).Yields c P)
    (hf : ∀ a c', P a c' → (f a).Yields c' Q) : (if b then p >>= f else q >>= f).Yields c Q := by
  by_cases hb : b
  · rw [if_pos hb] at h ⊢
    exact yields_bind h hf
  · rw [if_neg hb] at h ⊢
    exact yields_bind h hf

/-! ## The primitive parsers

Those that depend on the token ahead have an equation besides, for callers that know this token. -/

/-- To look ahead leaves the cursor as it is. -/
theorem run_peek (i : Nat) (c : Cursor) : (peek i).run c = (c.ahead i).map (·, c) := by
  unfold Cursor.ahead
  cases hrest : c.rest[i]? with
  | none => cases hend : c.ending <;> simp [peek, peek.liftExcept, hrest, hend] <;> rfl
  | some t => simp [peek, hrest]; rfl

/-- A token that is looked at stands ahead. -/
theorem yields_peek (i : Nat) (c : Cursor) :
    (peek i).Yields c fun t c' => c = c' ∧ c.ahead i = .ok t := by
  intro t c' hrun
  rw [run_peek] at hrun
  cases hahead : c.ahead i with
  | error e => rw [hahead] at hrun; cases hrun
  | ok u => rw [hahead] at hrun; cases hrun; exact ⟨rfl, rfl⟩

/-- The next token is taken. -/
theorem run_next {t : Token} (h : c.ahead = .ok t) : next.run c = .ok (t, c.advanced) := by
  have hpeek : peek.run c = .ok (t, c) := by rw [run_peek, h]; rfl
  rw [next, StateT.run_bind, hpeek]
  rfl

theorem run_skip {t : Token} (h : c.ahead = .ok t) : skip.run c = .ok ((), c.advanced) := by
  rw [skip, StateT.run_bind, run_next h]
  rfl

/-- A token that is taken stood ahead. -/
theorem yields_next (c : Cursor) :
    next.Yields c fun t c' => c' = c.advanced ∧ c.ahead = .ok t := by
  refine yields_bind (yields_peek 0 c) ?_
  rintro t _ ⟨rfl, ht⟩
  intro a c' hrun
  cases hrun
  exact ⟨rfl, ht⟩

/-- To skip moves the cursor behind the next token. -/
theorem yields_skip (c : Cursor) : skip.Yields c fun _ c' => c' = c.advanced := by
  refine yields_bind (yields_next c) ?_
  rintro t _ ⟨rfl, -⟩
  exact yields_pure rfl

/-- To leave line feeds out reads nothing. -/
theorem yields_skipNewlines (c : Cursor) : skipNewlines.Yields c fun _ c' => Read c [] [] c' := by
  intro a c' hrun
  cases hrun
  refine ⟨⟨c.rest.takeWhile Token.isNewline, ?_, ?_⟩, rfl, Nat.le_refl _, (Read.refl c).count_ids⟩
  · exact (List.takeWhile_append_dropWhile ..).symm
  · rw [List.filter_eq_nil_iff]
    intro t ht
    simp [List.all_eq_true.mp (List.all_takeWhile ..) t ht]

/-- A number is taken, and no token. -/
theorem yields_fresh (c : Cursor) : fresh.Yields c fun id c' => Read c [] [id] c' := by
  intro id c' hrun
  cases hrun
  refine ⟨⟨[], rfl, rfl⟩, rfl, by simp, fun i => ?_⟩
  rw [List.count_singleton]
  simp only [beq_iff_eq, Int.natCast_add]
  split <;> split <;> omega

/-- A node is made of what is given, with the next id. -/
theorem yields_node (kind : Kind) (t : Token) (children : List Node) (c : Cursor) :
    (node kind t children).Yields c fun n c' =>
      ∃ id, n = .mk id kind t children ∧ Read c [] [id] c' := by
  refine yields_bind (yields_fresh c) ?_
  intro id c' hid
  exact yields_pure ⟨id, rfl, hid⟩

/-- To make a node does not change what stands ahead. -/
theorem ahead_of_node (kind : Kind) (t : Token) (children : List Node) (c : Cursor) :
    (node kind t children).Yields c fun _ c' => c'.ahead = c.ahead := by
  intro n c' hrun
  cases hrun
  rfl

/-- A terminal is a leaf with its token. -/
theorem yields_term (t : Token) (c : Cursor) :
    (term t).Yields c fun n c' =>
      ∃ l : Shape.Leaf, n = l.node ∧ l.token = t ∧ Read c [] [l.id] c' := by
  refine (yields_node .terminal t [] c).mono ?_
  rintro n c' ⟨id, rfl, hid⟩
  exact ⟨⟨id, t⟩, rfl, rfl, hid⟩

/-- A token that is asked for stood ahead. -/
theorem yields_expect (kind : TokenKind) (text : String) (c : Cursor) :
    (expect kind text).Yields c fun t c' =>
      c' = c.advanced ∧ c.ahead = .ok t ∧ t.kind = kind ∧ t.text = text := by
  refine yields_bind (yields_next c) ?_
  rintro t _ ⟨rfl, ht⟩
  exact yields_ite (fun h => yields_pure ⟨rfl, ht, h⟩) fun _ => yields_fail

/-- A word that is asked for stood ahead. -/
theorem yields_expectKeyword (word : String) (c : Cursor) :
    (expectKeyword word).Yields c fun t c' =>
      c' = c.advanced ∧ c.ahead = .ok t ∧ t.isKeyword word = true := by
  refine yields_bind (yields_next c) ?_
  rintro t _ ⟨rfl, ht⟩
  exact yields_ite (fun h => yields_pure ⟨rfl, ht, h⟩) fun _ => yields_fail

/-- A name that is asked for stood ahead. -/
theorem yields_expectName (what : String) (c : Cursor) :
    (expectName what).Yields c fun t c' =>
      c' = c.advanced ∧ c.ahead = .ok t ∧ t.isName = true := by
  refine yields_bind (yields_next c) ?_
  rintro t _ ⟨rfl, ht⟩
  exact yields_ite (fun h => yields_pure ⟨rfl, ht, h⟩) fun _ => yields_fail

end Parser

end ScriptPir
