import ScriptPir.Proofs.StatementGrowth

/-!
# What parsers take

Every loop and every nesting of the parser takes a token before it comes round. `Parser.Advances` says how many
tokens a parser takes if it succeeds, whatever its fuel is, and how many there have to be if it runs out of
fuel. The tokens are followed by the end of input, as often as it is looked at, or by the fault at which
the source could not be read on.

The productions of expressions are followed here in the order in which they call each other.

* `Advances.bind_add` adds the tokens of two parsers up, which every production is put together by.
* `advances_primary` to `advances_binary` say of each production of expressions that it takes a token if
  it succeeds, and that fuel above the number of tokens is never used up.
-/

namespace ScriptPir

/-- What stands behind the last token is the end of input or a fault of the source, and no bound. -/
structure Cursor.Sealed (c : Cursor) : Prop where
  closed : c.Closed
  fault_ne : ∀ e, c.ending = .error e → e.fault ≠ .tooDeep

/-- What a sealed cursor fails with when it looks ahead is no lack of fuel: only its ending fails. -/
theorem Cursor.Sealed.fault_ahead {c : Cursor} (hc : c.Sealed) {i : Nat} {e : SyntaxError}
    (h : c.ahead i = .error e) : e.fault ≠ .tooDeep := by
  unfold Cursor.ahead at h
  split at h
  · cases h
  · exact hc.fault_ne e h

/-- The step from `c` to `c₁` takes at least `k` tokens off the front. -/
structure Cursor.Passes (k : Nat) (c c₁ : Cursor) : Prop where
  ending_eq : c₁.ending = c.ending
  taken : ∃ taken, k ≤ taken.length ∧ c.rest = taken ++ c₁.rest

variable {c c₁ c₂ : Cursor}

namespace Cursor.Passes

variable {k l : Nat}

theorem refl (c : Cursor) : c.Passes 0 c := ⟨rfl, [], Nat.le_refl _, rfl⟩

/-- What two steps take adds up. -/
theorem trans (h : c.Passes k c₁) (h' : c₁.Passes l c₂) : c.Passes (k + l) c₂ := by
  obtain ⟨taken, hk, hrest⟩ := h.taken
  obtain ⟨taken', hl, hrest'⟩ := h'.taken
  refine ⟨h'.ending_eq.trans h.ending_eq, taken ++ taken', ?_, ?_⟩
  · rw [List.length_append]
    omega
  · rw [hrest, hrest', List.append_assoc]

theorem mono (h : c.Passes k c₁) (hl : l ≤ k) : c.Passes l c₁ := by
  obtain ⟨taken, hk, hrest⟩ := h.taken
  exact ⟨h.ending_eq, taken, Nat.le_trans hl hk, hrest⟩

/-- What was taken is missing from what is left. -/
theorem length_le (h : c.Passes k c₁) : c₁.rest.length + k ≤ c.rest.length := by
  obtain ⟨taken, hk, hrest⟩ := h.taken
  rw [hrest, List.length_append]
  omega

theorem sealed (h : c.Passes k c₁) (hc : c.Sealed) : c₁.Sealed :=
  ⟨fun t ht => hc.closed t (h.ending_eq ▸ ht), fun e he => hc.fault_ne e (h.ending_eq ▸ he)⟩

end Cursor.Passes

/-- To advance takes nothing that is not there: at the end the cursor stays where it is. -/
theorem passes_advanced (c : Cursor) : c.Passes 0 c.advanced :=
  ⟨rfl, c.rest.take 1, Nat.zero_le _, by cases h : c.rest <;> simp [Cursor.advanced, h]⟩

theorem passes_advanced_of_ne (h : c.rest ≠ []) : c.Passes 1 c.advanced := by
  obtain ⟨t, rest, hrest⟩ := List.exists_cons_of_ne_nil h
  exact ⟨rfl, [t], Nat.le_refl _, by simp [Cursor.advanced, hrest]⟩

namespace Parser

variable {α β : Type}

/-- From a cursor, a parser that succeeds takes at least `k` tokens, and one that runs out of fuel had at least
`n` of them. -/
def AdvancesFrom (c : Cursor) (n k : Nat) (p : Parser α) : Prop :=
  match p.run c with
  | .ok (_, c₁) => c.Passes k c₁
  | .error e => e.fault = .tooDeep → n ≤ c.rest.length

/-- A parser advances from all tokens that satisfy `P`. -/
def Advances (P : List Token → Prop) (n k : Nat) (p : Parser α) : Prop :=
  ∀ c, c.Sealed → P c.rest → AdvancesFrom c n k p

section From

variable {n n' k m K : Nat} {p : Parser α} {f : α → Parser β}

/-- A parser that fails advances if it did not fail for lack of fuel, or had the tokens to blame. -/
theorem advancesFrom_of_error {e : SyntaxError} (hrun : p.run c = .error e)
    (he : e.fault = .tooDeep → n ≤ c.rest.length) : AdvancesFrom c n k p := by
  unfold AdvancesFrom
  rw [hrun]
  exact he

/-- A parser that succeeds advances by what it took. -/
theorem advancesFrom_of_ok {a : α} (hrun : p.run c = .ok (a, c₁)) (h : c.Passes k c₁) :
    AdvancesFrom c n k p := by
  unfold AdvancesFrom
  rw [hrun]
  exact h

/-- What comes behind the tokens that were taken runs out of fuel only if there are even more. -/
theorem AdvancesFrom.after {a : α} (hrun : p.run c = .ok (a, c₁)) (h : c.Passes k c₁)
    (hf : AdvancesFrom c₁ n' m (f a)) (hn : n ≤ n' + k) (hK : K ≤ k + m) : AdvancesFrom c n K (p >>= f) := by
  have hlength := h.length_le
  have hbind : (p >>= f).run c = (f a).run c₁ := by
    rw [StateT.run_bind, hrun]
    rfl
  unfold AdvancesFrom at hf
  -- only the run behind the first step can lack fuel, and it had fewer tokens by those that were taken
  cases hrun' : (f a).run c₁ with
  | error e =>
    rw [hrun'] at hf
    apply advancesFrom_of_error (hbind.trans hrun')
    intro hdeep
    have hle := hf hdeep
    omega
  | ok r =>
    rw [hrun'] at hf
    exact advancesFrom_of_ok (hbind.trans hrun') ((h.trans hf).mono hK)

end From

/-- Tokens that satisfy `P`, of which `t` is the one `i` places ahead, unless it is the end of input. -/
def Ahead (P : List Token → Prop) (i : Nat) (t : Token) (l : List Token) : Prop :=
  P l ∧ (l[i]? = some t ∨ t.kind = .eof)

namespace Advances

variable {P Q : List Token → Prop} {n n' k k' : Nat} {p q : Parser α} {f : α → Parser β}

/-- What a parser does with fewer assumptions, with less fuel and with more tokens implies the rest. -/
theorem mono (h : Advances Q n' k' p) (hPQ : ∀ l, P l → Q l) (hn : n ≤ n') (hk : k ≤ k') :
    Advances P n k p := by
  intro c hc hP
  have hfrom := h c hc (hPQ _ hP)
  unfold AdvancesFrom at hfrom
  cases hrun : p.run c with
  | error e =>
    rw [hrun] at hfrom
    exact advancesFrom_of_error hrun fun hdeep => Nat.le_trans hn (hfrom hdeep)
  | ok r =>
    rw [hrun] at hfrom
    exact advancesFrom_of_ok hrun (hfrom.mono hk)

/-- How many tokens are taken need not be told. -/
theorem weak (h : Advances P n k p) : Advances P n 0 p :=
  h.mono (fun _ => id) (Nat.le_refl _) (Nat.zero_le _)

theorem any (h : Advances Any n k p) : Advances P n k p :=
  h.mono (fun _ _ => trivial) (Nat.le_refl _) (Nat.le_refl _)

/-- A parser that needs fuel for `n'` tokens is also good for a bound below. -/
theorem weaken (h : Advances P n' k p) (hn : n ≤ n') : Advances P n k p :=
  h.mono (fun _ => id) hn (Nat.le_refl _)

/-- The rule that the others are read off from: the second parser may need the fuel of what the first
one leaves, and together they take what each of them takes. -/
theorem bind_add {m K : Nat} (hp : Advances P n k p) (hf : ∀ a, Advances Any n' m (f a)) (hn : n ≤ n' + k)
    (hK : K ≤ k + m) : Advances P n K (p >>= f) := by
  intro c hc hP
  have hfrom := hp c hc hP
  unfold AdvancesFrom at hfrom
  -- either the first parser fails, and its bound is that of the whole, or the second one goes on behind
  -- it
  cases hrun : p.run c with
  | error e =>
    rw [hrun] at hfrom
    apply advancesFrom_of_error (e := e) _ hfrom
    rw [StateT.run_bind, hrun]
    rfl
  | ok r =>
    rw [hrun] at hfrom
    exact .after hrun hfrom (hf r.1 r.2 (hfrom.sealed hc) trivial) hn hK

/-- A parser that need not take anything leaves all of the bound to the one behind it. -/
theorem bind (hp : Advances P n 0 p) (hf : ∀ a, Advances Any n k (f a)) : Advances P n k (p >>= f) :=
  bind_add hp hf (Nat.le_refl _) (by omega)

/-- What comes after a parser that takes a token has fewer tokens left. -/
theorem bind_taken (hp : Advances P n 1 p) (hf : ∀ a, Advances Any (n - 1) 0 (f a)) :
    Advances P n 1 (p >>= f) :=
  bind_add hp hf (by omega) (Nat.le_refl _)

theorem pure {a : α} : Advances P n 0 (Pure.pure a) := fun c _ _ => advancesFrom_of_ok rfl (.refl c)

/-- A failure that is no lack of fuel is as good as any progress. -/
theorem fail {t : Token} {fault : SyntaxFault} (h : fault ≠ .tooDeep) :
    Advances P n k (Parser.fail t fault : Parser α) :=
  fun _ _ _ => advancesFrom_of_error rfl fun hdeep => absurd hdeep h

theorem fail_bind {t : Token} {fault : SyntaxFault} (h : fault ≠ .tooDeep) :
    Advances P n k (Parser.fail t fault >>= f) :=
  fun _ _ _ => advancesFrom_of_error rfl fun hdeep => absurd hdeep h

/-- A choice advances if both sides do, each under its condition. -/
theorem ite {b : Prop} [Decidable b] (hp : b → Advances P n k p) (hq : ¬b → Advances P n k q) :
    Advances P n k (if b then p else q) := by
  split
  · exact hp ‹_›
  · exact hq ‹_›

/-- To look ahead takes nothing, but what is seen is one of the tokens or the end of input. -/
theorem peek_bind {i : Nat} {f : Token → Parser β} (hf : ∀ t, Advances (Ahead P i t) n k (f t)) :
    Advances P n k (peek i >>= f) := by
  intro c hc hP
  have hrun : (peek i).run c = (c.ahead i).map (·, c) := run_peek i c
  -- a look ahead fails only with what the source failed with, which is no lack of fuel
  cases hahead : c.ahead i with
  | error e =>
    apply advancesFrom_of_error (e := e)
    · rw [StateT.run_bind, hrun, hahead]
      rfl
    · exact fun hdeep => absurd hdeep (hc.fault_ahead hahead)
  | ok t =>
    rw [hahead] at hrun
    have hthere : c.rest[i]? = some t ∨ t.kind = .eof := by
      unfold Cursor.ahead at hahead
      split at hahead
      · rename_i u hu
        cases hahead
        exact .inl hu
      · exact .inr (hc.closed t hahead)
    exact .after hrun (.refl c) (hf t c hc ⟨hP, hthere⟩) (Nat.le_refl _) (by omega)

/-- Without fuel, there are not fewer tokens than none. -/
theorem tooDeep : Advances P 0 k (do Parser.fail (← Parser.peek) .tooDeep : Parser α) :=
  peek_bind fun _ _ _ _ => advancesFrom_of_error rfl fun _ => Nat.zero_le _

/-- Behind the last token there is nothing but the end of input to look at. -/
theorem peek_bind_end {i : Nat} {f : Token → Parser β} (hf : ∀ e, e.kind = .eof → Advances (· = []) n k (f e)) :
    Advances (· = []) n k (peek i >>= f) := by
  refine peek_bind fun t c hc ht => ?_
  have hnone : c.rest[i]? ≠ some t := by
    rw [ht.1]
    exact nofun
  exact hf t (ht.2.resolve_left hnone) c hc ht.1

/-- At the end, the next token is the end of input, and there is still nothing left behind it. -/
theorem next_bind_end {f : Token → Parser β} (hf : ∀ e, e.kind = .eof → Advances (· = []) n k (f e)) :
    Advances (· = []) n k (next >>= f) := by
  have hnext : (next >>= f) = peek >>= fun t => (modify fun c => { c with rest := c.rest.tail }) >>=
      fun _ => f t := by
    rw [next, bind_assoc]
    rfl
  rw [hnext]
  -- to take the end of input is to look at it and to advance, which leaves the cursor at the end
  refine peek_bind_end fun e he c hc hrest => ?_
  have hrun : (modify fun c => { c with rest := c.rest.tail } : Parser PUnit).run c = .ok (⟨⟩, c.advanced) := rfl
  have hpasses := passes_advanced c
  have hend : c.advanced.rest = [] := by
    rw [Cursor.advanced, hrest]
    rfl
  exact .after hrun hpasses (hf e he _ (hpasses.sealed hc) hend) (Nat.le_refl _) (by omega)

/-- The next token is taken, unless it is the end of input. -/
theorem next_bind {f : Token → Parser β} (hf : ∀ t, Advances Any (n - 1) 0 (f t))
    (hend : ∀ e, e.kind = .eof → Advances (· = []) n 1 (f e)) : Advances P n 1 (next >>= f) := by
  intro c hc _
  by_cases hne : c.rest = []
  · exact next_bind_end hend c hc hne
  · obtain ⟨t, rest, hrest⟩ := List.exists_cons_of_ne_nil hne
    have hrun : next.run c = .ok (t, c.advanced) := run_next (by simp [Cursor.ahead, hrest])
    have hpasses := passes_advanced_of_ne hne
    exact .after hrun hpasses (hf t _ (hpasses.sealed hc) trivial) (by omega) (Nat.le_refl _)

/-- To take a token never needs fuel; that it takes one is `next_bind`, since the end of input is taken
without being used up. -/
theorem next : Advances P n 0 next :=
  peek_bind fun _ c _ _ => advancesFrom_of_ok rfl (passes_advanced c)

theorem skip : Advances P n 0 skip := next.bind fun _ => pure

/-- A token that is known to be there can be left out. -/
theorem skip_of_ne (hP : ∀ l, P l → l ≠ []) : Advances P n 1 Parser.skip := by
  intro c hc hrest
  obtain ⟨t, rest, heq⟩ := List.exists_cons_of_ne_nil (hP _ hrest)
  have hrun : Parser.skip.run c = .ok ((), c.advanced) := run_skip (t := t) (by simp [Cursor.ahead, heq])
  exact advancesFrom_of_ok hrun (passes_advanced_of_ne (hP _ hrest))

/-- Line feeds are passed without fuel, and there may be none. -/
theorem skipNewlines : Advances P n 0 skipNewlines := by
  intro c _ _
  have hsplit : c.rest = c.rest.takeWhile Token.isNewline ++ c.rest.dropWhile Token.isNewline :=
    List.takeWhile_append_dropWhile.symm
  exact advancesFrom_of_ok rfl ⟨rfl, _, Nat.zero_le _, hsplit⟩

theorem fresh : Advances P n 0 fresh :=
  fun _ _ _ => advancesFrom_of_ok rfl ⟨rfl, [], Nat.le_refl _, rfl⟩

theorem node {kind : Kind} {t : Token} {children : List Node} : Advances P n 0 (node kind t children) :=
  fresh.bind fun _ => pure

theorem term {t : Token} : Advances P n 0 (term t) := node

/-- A token that is expected is taken, since the end of input is never expected. -/
theorem expect {kind : TokenKind} {text : String} (hkind : kind ≠ .eof) :
    Advances P n 1 (expect kind text) := by
  refine next_bind (fun t => ite (fun _ => pure) fun _ => fail nofun) fun e he => ?_
  exact ite (fun h => absurd (h.1.symm.trans he) hkind) fun _ => fail nofun

theorem expectKeyword {word : String} : Advances P n 1 (expectKeyword word) := by
  refine next_bind (fun t => ite (fun _ => pure) fun _ => fail nofun) fun e he => ?_
  exact ite (fun h => by simp [Token.isKeyword, he] at h) fun _ => fail nofun

theorem expectName {what : String} : Advances P n 1 (expectName what) := by
  refine next_bind (fun t => ite (fun _ => pure) fun _ => fail nofun) fun e he => ?_
  exact ite (fun h => by simp [Token.isName, he] at h) fun _ => fail nofun

end Advances

/-- A token that is not the end of input is there. -/
theorem ne_nil_of_ahead {P : List Token → Prop} {t : Token} (ht : t.kind ≠ .eof) (l : List Token)
    (h : Ahead P 0 t l) : l ≠ [] := by
  rintro rfl
  exact h.2.elim nofun ht

/-! ## Expressions

In the order in which they call each other: an argument, the arguments of a call, a call, an index, a
primary, a unary expression and the climb over binary operators. `N` stands for the number of tokens
that the expressions inside have fuel for, and a production succeeds only with at least one token
less. -/

/-- To look whether an argument is named takes nothing. -/
theorem advances_isNamed {P : List Token → Prop} {n : Nat} (t : Token) : Advances P n 0 (isNamed t) := by
  unfold isNamed
  refine .ite (fun _ => ?_) fun _ => .pure
  rw [map_eq_pure_bind]
  exact .peek_bind fun _ => .pure

theorem advances_separator {P : List Token → Prop} {n : Nat} (bracketed : Bool) :
    Advances P n 0 (separator bracketed) :=
  .bind .skip fun _ => .ite (fun _ => .skipNewlines) fun _ => .pure

section Expressions

variable {P : List Token → Prop} {expr : Parser Node} {N : Nat}

/-- An argument takes at least the token of its value. -/
theorem advances_argument (hexpr : Advances Any N 1 expr) (t : Token) (named : Bool) :
    Advances Any N 1 (argument expr t named) := by
  have hvalue : ∀ children : Node → List Node,
      Advances Any N 1 (do let value ← expr; node .arg t (children value)) :=
    fun _ => .bind_taken hexpr fun _ => .node
  refine .ite (fun _ => ?_) fun _ => hvalue fun value => [value]
  exact .bind .skip fun _ => .bind .skip fun _ => .bind .term fun name => hvalue fun value => [name, value]

/-- The arguments of a call come round once for each token at most, so fuel for all tokens is enough. -/
theorem advances_arguments (hexpr : Advances Any N 1 expr) (bracketed : Bool) {fuel : Nat} (hN : N ≤ fuel) :
    Advances P N 1 (arguments expr bracketed fuel) := by
  -- on the fuel; `N` goes down with it, as each argument takes a token
  induction fuel generalizing N P with
  | zero =>
    obtain rfl := Nat.le_zero.mp hN
    exact .tooDeep
  | succ fuel ih =>
    have hrest : Advances Any (N - 1) 1 (arguments expr bracketed fuel) :=
      ih (hexpr.weaken (Nat.sub_le N 1)) (by omega)
    rw [arguments_succ]
    refine .peek_bind fun t => .bind (advances_isNamed t) fun named => ?_
    refine .bind_taken (advances_argument hexpr t named) fun arg => .peek_bind fun after => ?_
    refine .ite (fun _ => .pure) fun _ => ?_
    exact .bind (advances_separator bracketed) fun _ => .bind hrest.weak fun _ => .pure

/-- The arguments of a call under one node take at least the token that was looked at. -/
theorem advances_args (hexpr : Advances Any N 1 expr) {fuel : Nat} (hN : N ≤ fuel) (t : Token)
    (bracketed : Bool) : Advances P N 1 (args expr fuel t bracketed) :=
  .bind .fresh fun _ => .bind_taken (advances_arguments hexpr bracketed hN) fun _ => .pure

/-- A call takes its parenthesis first, so that its arguments have a token less. -/
theorem advances_call (hexpr : Advances Any N 1 expr) {fuel : Nat} (hN : N ≤ fuel) (name : Token) :
    Advances P N 1 (call expr fuel name) := by
  have hclose : ∀ args : Node, Advances Any (N - 1) 0
      (do
        skipNewlines
        let _ ← Parser.expect .closing ")"
        let callee ← term name
        node .call name [callee, args]) :=
    fun _ => .bind .skipNewlines fun _ => .bind (.weak (.expect (by decide))) fun _ =>
      .bind .term fun _ => .node
  -- the opening parenthesis pays for the fuel of the arguments
  refine .bind_taken (.expect (by decide)) fun _ => .bind .skipNewlines fun _ => .peek_bind fun t => ?_
  refine .ite (fun _ => .bind .node fun args => hclose args) fun _ => ?_
  exact .bind ((advances_args hexpr hN t true).weaken (Nat.sub_le N 1)).weak fun args => hclose args

/-- An index takes its bracket and is closed by another one. -/
theorem advances_index (hexpr : Advances Any N 1 expr) (name : Token) : Advances P N 1 (index expr name) := by
  refine .bind .term fun _ => .bind .node fun _ => .bind_taken (.expect (by decide)) fun _ => ?_
  refine .bind .skipNewlines fun _ => .bind (hexpr.weaken (Nat.sub_le N 1)).weak fun e => ?_
  cases e.nonIntegral? with
  | some bad => exact .fail_bind nofun
  | none =>
    refine .bind .skipNewlines fun _ => .bind (.weak (.expect (by decide))) fun _ => ?_
    exact .bind .term fun _ => .bind .term fun _ => .node

/-- A primary takes its first token and goes by the kind of it; fuel for one token more than the
expressions inside is enough. -/
theorem advances_primary (hexpr : Advances Any N 1 expr) {fuel : Nat} (hN : N ≤ fuel) :
    Advances P (N + 1) 1 (primary expr fuel) := by
  have hsingle : ∀ (Q : List Token → Prop) (kind : Kind) (t : Token),
      Advances Q N 0 (do node kind t [← term t] : Parser Node) :=
    fun _ _ _ => .bind .term fun _ => .node
  -- all cases begin with a token, which is the one that `N + 1` has more
  refine .next_bind (fun t => ?_) fun e he => by rw [he]; exact .fail nofun
  show Advances Any N 0 _
  cases t.kind with
  | int | float | string =>
    cases literal t with
    | error e => exact .fail_bind nofun
    | ok v => exact hsingle _ _ t
  | global => exact hsingle _ _ t
  | opening =>
    refine .ite (fun _ => .fail_bind nofun) fun _ => ?_
    refine .bind .skipNewlines fun _ => .bind hexpr.weak fun _ => .bind .skipNewlines fun _ => ?_
    refine .bind (.weak (.expect (by decide))) fun _ => ?_
    exact .bind .term fun _ => .bind .term fun _ => .node
  | ident =>
    refine .ite (fun _ => hsingle _ _ t) fun _ => .ite (fun _ => .fail nofun) fun _ => ?_
    refine .peek_bind fun ahead => .ite (fun _ => (advances_call hexpr hN t).weak) fun _ => ?_
    exact .ite (fun _ => (advances_index hexpr t).weak) fun _ => hsingle _ _ t
  | _ => exact .fail nofun

/-- A sign is a token. -/
theorem kind_of_isSign {t : Token} (h : isSign t = true) : t.kind ≠ .eof := by
  intro he
  simp [isSign, Token.isOp, Token.isKeyword, he] at h

/-- A unary expression takes its signs, and each of them is a token. -/
theorem advances_unary {operand : Parser Node} (h : Advances Any N 1 operand) {fuel : Nat} (hN : N ≤ fuel) :
    Advances P N 1 (unary operand fuel) := by
  induction fuel generalizing N P with
  | zero =>
    obtain rfl := Nat.le_zero.mp hN
    exact .tooDeep
  | succ fuel ih =>
    have hrest : Advances Any (N - 1) 1 (unary operand fuel) := ih (h.weaken (Nat.sub_le N 1)) (by omega)
    refine .peek_bind fun t => .ite (fun hsign => ?_) fun _ => h.any
    refine .bind_taken (.skip_of_ne (ne_nil_of_ahead (kind_of_isSign hsign))) fun _ => ?_
    exact .bind .term fun _ => .bind hrest.weak fun _ => .node

/-- An operator is a token. -/
theorem kind_of_ofToken? {t : Token} {op : Operator} (h : Operator.ofToken? t = some op) : t.kind ≠ .eof := by
  intro he
  rw [ofToken?_of_kind (by rw [he]; decide) (by rw [he]; decide)] at h
  cases h

/-- The climb takes an operator in each round. It need not find one, and then takes nothing. -/
theorem advances_climb {right : Nat → Parser Node} (h : ∀ limit, Advances Any N 1 (right limit)) (limit : Nat)
    {fuel : Nat} (hN : N ≤ fuel) (left : Node) : Advances P N 0 (climb right limit fuel left) := by
  induction fuel generalizing N P left with
  | zero =>
    obtain rfl := Nat.le_zero.mp hN
    exact .tooDeep
  | succ fuel ih =>
    have hright : ∀ limit, Advances Any (N - 1) 1 (right limit) :=
      fun limit => (h limit).weaken (Nat.sub_le N 1)
    refine .peek_bind fun t => ?_
    cases hop : Operator.ofToken? t with
    | none => exact .pure
    | some op =>
      -- the operator is taken before the climb goes on
      have htaken := ne_nil_of_ahead (P := P) (kind_of_ofToken? hop)
      refine .ite (fun _ => .pure) fun _ => .weak (.bind_taken (.skip_of_ne htaken) fun _ => ?_)
      refine .bind .skipNewlines fun _ => .bind (hright _).weak fun r => .bind .term fun opTerm => ?_
      exact .bind .node fun whole => ih hright (by omega) whole

end Expressions

/-- A binary expression takes a token, whatever its limit is, and runs out of fuel only if there are as
many tokens as fuel. -/
theorem advances_binary {P : List Token → Prop} (fuel limit : Nat) : Advances P fuel 1 (binary fuel limit) := by
  -- an operand takes its first token before an expression in it is parsed with less fuel
  induction fuel generalizing limit P with
  | zero => exact .tooDeep
  | succ fuel ih =>
    have hprimary : Advances Any (fuel + 1) 1 (primary (binary fuel Operator.loosest) (fuel + 1)) :=
      advances_primary (ih _) (Nat.le_succ fuel)
    refine .bind_taken (advances_unary hprimary (Nat.le_refl _)) fun left => ?_
    exact advances_climb (fun limit => ih limit) limit (Nat.le_succ fuel) left

end Parser

end ScriptPir
