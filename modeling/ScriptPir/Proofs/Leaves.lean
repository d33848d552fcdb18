import ScriptPir.Proofs.ExpressionParsing
import ScriptPir.Tree.Statement

/-!
# What the tree keeps of the tokens

The terminals of a tree, read from left to right, are tokens of the program in their order. `Retains` says
which tokens have none: separators, commas, the words that statements are made of, the colon behind the name
of an argument, and the brackets around the arguments of a call, around parameters, around the header of a
loop and of an empty array.

* `Left` says it of a part of a parse: the tokens taken between two cursors leave these terminals.
* Every production is followed in the order in which it calls others, as in the module on expressions.

Main statement: `leaves_of_parse`.
-/

namespace ScriptPir

/-! ## Terminals

`Retains` is a relation and no function of the tokens: whether a bracket is kept depends on what it
stands around, and the same bracket stands around arguments and around an expression. -/

mutual

/-- The tokens of the terminals in a tree, from left to right. -/
def Node.leaves : Node → List Token
  | .absent => []
  | .mk _ kind token children => if kind = .terminal then [token] else leavesAll children

/-- The tokens of the terminals in some trees, from left to right. -/
def Node.leavesAll : List Node → List Token
  | [] => []
  | n :: ns => n.leaves ++ leavesAll ns

end

@[simp] theorem Node.leavesAll_nil : Node.leavesAll [] = [] := rfl

/-- The terminals of a tree stand before those of the trees behind it. -/
@[simp] theorem Node.leavesAll_cons (n : Node) (ns : List Node) :
    Node.leavesAll (n :: ns) = n.leaves ++ Node.leavesAll ns := rfl

/-- The terminals of some trees stand before those of the trees behind them. -/
@[simp] theorem Node.leavesAll_append (ms ns : List Node) :
    Node.leavesAll (ms ++ ns) = Node.leavesAll ms ++ Node.leavesAll ns := by
  induction ms with
  | nil => rfl
  | cons m ms ih => simp [ih]

/-- The terminals of a tree that is none itself are those of its children. -/
theorem Node.leaves_mk {kind : Kind} (hkind : kind ≠ .terminal) (id : Int) (t : Token)
    (children : List Node) : (Node.mk id kind t children).leaves = Node.leavesAll children := by
  rw [Node.leaves, if_neg hkind]

namespace Token

/-- The keywords that are operands or operators. -/
def operandWords : List String := ["true", "false", "and", "or", "not"]

/-- Whether a token is an operand or an operator, or names something. -/
def isKept (t : Token) : Bool :=
  match t.kind with
  | .global | .int | .float | .string | .pir => true
  | .op => t.text ≠ ":"
  | .ident => t.text ∉ keywords || t.text ∈ operandWords
  | _ => false

/-- Whether a token is a bracket. -/
def isBracket (t : Token) : Bool := t.kind = .opening || t.kind = .closing

/-- Whether a token is the given closing bracket. -/
def isClosing (t : Token) (bracket : String) : Bool := t.kind = .closing && t.text = bracket

/-- Whether a token is a word that statements are made of. -/
def isStatementWord (t : Token) : Bool :=
  t.kind = .ident && t.text ∈ keywords && t.text ∉ operandWords

/-- Whether a token separates others or is a word that statements are made of. -/
def isMute (t : Token) : Bool := t.kind = .semi || t.kind = .comma || t.isStatementWord

end Token

/-- Some tokens are read, and a tree has terminals for these of them. Every rule but the first two is about
a token that has a terminal or says why it has none. -/
inductive Retains : List Token → List Token → Prop
  | nil : Retains [] []
  | append {ts us ls ms : List Token} (h : Retains ts ls) (h' : Retains us ms) :
      Retains (ts ++ us) (ls ++ ms)
  | kept {t : Token} (h : t.isKept = true) : Retains [t] [t]
  /-- Separators, commas and the words of statements. -/
  | mute {t : Token} (h : t.isMute = true) : Retains [t] []
  /-- The colon behind the name of an argument. -/
  | named {name colon : Token} (hname : name.isName = true) (hcolon : colon.isOp ":" = true) :
      Retains [name, colon] [name]
  /-- An expression in brackets, which are kept. -/
  | paren {o d : Token} {ts ls : List Token} (ho : o.isOpening "(" = true) (hd : d.isClosing ")" = true)
      (h : Retains ts ls) : Retains (o :: (ts ++ [d])) (o :: (ls ++ [d]))
  /-- An element of an array, whose brackets are kept. -/
  | element {name o d : Token} {ts ls : List Token} (hname : name.isName = true)
      (ho : o.isOpening "[" = true) (hd : d.isClosing "]" = true) (h : Retains ts ls) :
      Retains (name :: o :: (ts ++ [d])) (name :: o :: (ls ++ [d]))
  /-- A call with its arguments, or a function with its parameters. -/
  | listed {name o d : Token} {ts ls : List Token} (hname : name.isName = true)
      (ho : o.isOpening "(" = true) (hd : d.isClosing ")" = true) (h : Retains ts ls) :
      Retains (name :: o :: (ts ++ [d])) (name :: ls)
  /-- The header of a loop. -/
  | header {word o d : Token} {ts ls : List Token} (hword : word.isKeyword "for" = true)
      (ho : o.isOpening "(" = true) (hd : d.isClosing ")" = true) (h : Retains ts ls) :
      Retains (word :: o :: (ts ++ [d])) ls
  /-- An empty array that is assigned. -/
  | emptyArray {equals o d : Token} (hequals : equals.isOp "=" = true) (ho : o.isOpening "[" = true)
      (hd : d.isClosing "]" = true) : Retains [equals, o, d] [equals]

/-! ## What a token is decides whether it is kept

The parser tests tokens by `isName`, `isOp`, `isKeyword` and others. Each test settles whether the
token is kept, mute or a bracket, and these three exclude each other. -/

namespace Token

variable {t : Token}

theorem isKept_of_isName (h : t.isName = true) : t.isKept = true := by
  obtain ⟨hkind, htext⟩ := Shape.isName_kind h
  simp [isKept, hkind, htext]

/-- Operators are kept, with the exception of the colon. -/
theorem isKept_of_isOp {op : String} (h : t.isOp op = true) (hop : op ≠ ":") : t.isKept = true := by
  simp only [isOp, Bool.and_eq_true, decide_eq_true_eq] at h
  simp [isKept, h, hop]

/-- Assignment operators are kept. -/
theorem isKept_of_isAssign (h : t.isAssign = true) : t.isKept = true := by
  simp only [isAssign, Bool.and_eq_true, decide_eq_true_eq] at h
  have hne : t.text ≠ ":" := by
    rintro heq
    rw [heq] at h
    exact absurd h.2 (by decide)
  simp [isKept, h.1, hne]

/-- Signs are kept, also the word `not`. -/
theorem isKept_of_isSign (h : Parser.isSign t = true) : t.isKept = true := by
  simp only [Parser.isSign, Bool.or_eq_true] at h
  obtain (h | h) | h := h
  · exact isKept_of_isOp h (by decide)
  · exact isKept_of_isOp h (by decide)
  · simp only [isKeyword, Bool.and_eq_true, decide_eq_true_eq] at h
    simp [isKept, h, operandWords]

/-- Operators of the table are kept, also those that are words. -/
theorem isKept_of_operator {op : Operator} (h : Operator.ofToken? t = some op) : t.isKept = true := by
  unfold Operator.ofToken? at h
  split at h
  · rename_i hkind
    obtain ⟨entry, hfind, -⟩ := Option.map_eq_some_iff.mp h
    have htext : entry.1 = t.text := by simpa using List.find?_some hfind
    have hmem : t.text ∈ Operator.table.map (·.1) :=
      htext ▸ List.mem_map_of_mem (List.mem_of_find?_eq_some hfind)
    -- the table is finite, so its texts are gone through
    have hall : ∀ s ∈ Operator.table.map (·.1), s ≠ ":" ∧ (s ∉ keywords ∨ s ∈ operandWords) := by decide
    obtain ⟨hcolon, hword⟩ := hall _ hmem
    rcases hkind with hkind | hkind <;> simp [isKept, hkind, hcolon, hword]
  · cases h

theorem isMute_of_isKeyword {word : String} (h : t.isKeyword word = true)
    (hword : word ∈ keywords ∧ word ∉ operandWords) : t.isMute = true := by
  simp only [isKeyword, Bool.and_eq_true, decide_eq_true_eq] at h
  simp [isMute, isStatementWord, h, hword]

theorem isMute_of_isNewline (h : t.isNewline = true) : t.isMute = true := by
  simp only [isNewline, Bool.and_eq_true, decide_eq_true_eq] at h
  simp [isMute, h.1]

/-- No mute token is kept. -/
theorem isKept_of_mute (h : t.isMute = true) : t.isKept = false := by
  simp only [isMute, isStatementWord, Bool.or_eq_true, Bool.and_eq_true, decide_eq_true_eq] at h
  obtain (h | h) | ⟨⟨hkind, hkey⟩, hword⟩ := h
  · simp [isKept, h]
  · simp [isKept, h]
  · simp [isKept, hkind, hkey, hword]

theorem isKept_of_colon (h : t.isOp ":" = true) : t.isKept = false := by
  simp only [isOp, Bool.and_eq_true, decide_eq_true_eq] at h
  simp [isKept, h]

theorem isBracket_of_isOpening {bracket : String} (h : t.isOpening bracket = true) :
    t.isBracket = true := by
  simp only [isOpening, Bool.and_eq_true, decide_eq_true_eq] at h
  simp [isBracket, h.1]

theorem isBracket_of_isClosing {bracket : String} (h : t.isClosing bracket = true) :
    t.isBracket = true := by
  simp only [isClosing, Bool.and_eq_true, decide_eq_true_eq] at h
  simp [isBracket, h.1]

/-- No bracket counts as kept: those with a terminal are told by the rules of `Retains`. -/
theorem isKept_of_isBracket (h : t.isBracket = true) : t.isKept = false := by
  simp only [isBracket, Bool.or_eq_true, decide_eq_true_eq] at h
  rcases h with h | h <;> simp [isKept, h]

/-- No kept token is a bracket. -/
theorem isBracket_of_kept (h : t.isKept = true) : t.isBracket = false := by
  unfold isKept at h
  unfold isBracket
  split at h <;> simp_all

/-- The end of input is not kept. -/
theorem ne_eof_of_kept (h : t.isKept = true) : t.kind ≠ .eof := by
  intro heof
  rw [isKept, heof] at h
  cases h

theorem ne_eof_of_mute (h : t.isMute = true) : t.kind ≠ .eof := by
  intro heof
  simp [isMute, isStatementWord, heof] at h

theorem ne_eof_of_isBracket (h : t.isBracket = true) : t.kind ≠ .eof := by
  intro heof
  simp [isBracket, heof] at h

theorem ne_eof_of_isOp {op : String} (h : t.isOp op = true) : t.kind ≠ .eof := by
  intro heof
  simp [isOp, heof] at h

end Token

namespace Retains

variable {ts ls : List Token}

/-- What is kept is kept in order. -/
theorem sublist (h : Retains ts ls) : ls.Sublist ts := by
  induction h with
  | nil => exact .refl []
  | append _ _ ih ih' => exact ih.append ih'
  | kept => exact .refl _
  | mute => exact List.nil_sublist _
  | named => simp
  | paren _ _ _ ih => exact (ih.append_right _).cons_cons _
  | element _ _ _ _ ih => exact ((ih.append_right _).cons_cons _).cons_cons _
  | listed _ _ _ _ ih => exact ((ih.trans (List.sublist_append_left ..)).cons _).cons_cons _
  | header _ _ _ _ ih => exact ((ih.trans (List.sublist_append_left ..)).cons _).cons _
  | emptyArray => simp

/-- Brackets around some tokens do not matter where they are left out. -/
theorem filter_brackets {p : Token → Bool} {o d : Token} (ho : p o = false) (hd : p d = false)
    (ts : List Token) : (o :: (ts ++ [d])).filter p = ts.filter p := by
  simp [List.filter_append, ho, hd]

/-- Brackets aside, every token that can be kept is kept, once. -/
theorem filter_eq (h : Retains ts ls) : ls.filter (!·.isBracket) = ts.filter Token.isKept := by
  -- brackets are left out on both sides
  have hbrackets : ∀ {o d : Token} {s s' : String} (ts : List Token), o.isOpening s = true →
      d.isClosing s' = true → (o :: (ts ++ [d])).filter Token.isKept = ts.filter Token.isKept ∧
        (o :: (ts ++ [d])).filter (!·.isBracket) = ts.filter (!·.isBracket) := by
    intro o d s s' ts ho hd
    have ho := Token.isBracket_of_isOpening ho
    have hd := Token.isBracket_of_isClosing hd
    exact ⟨filter_brackets (Token.isKept_of_isBracket ho) (Token.isKept_of_isBracket hd) ts,
      filter_brackets (by simp [ho]) (by simp [hd]) ts⟩
  -- and a token that is kept stands on both sides
  have hkept : ∀ {t : Token} {ts ls : List Token}, t.isKept = true →
      ls.filter (!·.isBracket) = ts.filter Token.isKept →
        (t :: ls).filter (!·.isBracket) = (t :: ts).filter Token.isKept := by
    intro t ts ls ht h
    rw [List.filter_cons, List.filter_cons, h, ht, Token.isBracket_of_kept ht]
    rfl
  -- one case for each way to keep tokens
  induction h with
  | nil => rfl
  | append _ _ ih ih' => rw [List.filter_append, List.filter_append, ih, ih']
  | kept h => exact hkept h rfl
  | mute h => simp [Token.isKept_of_mute h]
  | named hname hcolon =>
    exact hkept (Token.isKept_of_isName hname) (by simp [Token.isKept_of_colon hcolon])
  | paren ho hd _ ih => rw [(hbrackets _ ho hd).1, (hbrackets _ ho hd).2, ih]
  | element hname ho hd _ ih =>
    refine hkept (Token.isKept_of_isName hname) ?_
    rw [(hbrackets _ ho hd).1, (hbrackets _ ho hd).2, ih]
  | listed hname ho hd _ ih =>
    refine hkept (Token.isKept_of_isName hname) ?_
    rw [(hbrackets _ ho hd).1, ih]
  | header hword ho hd _ ih =>
    have hmute := Token.isMute_of_isKeyword hword (by decide)
    rw [List.filter_cons, Token.isKept_of_mute hmute, (hbrackets _ ho hd).1, ih]
    rfl
  | emptyArray hequals ho hd =>
    refine hkept (Token.isKept_of_isOp hequals (by decide)) ?_
    rw [show ∀ a b : Token, [a, b] = a :: ([] ++ [b]) from fun _ _ => rfl, (hbrackets [] ho hd).1]
    rfl

/-- None of the tokens is the end of input. -/
theorem ne_eof (h : Retains ts ls) : ∀ t ∈ ts, t.kind ≠ .eof := by
  -- the rules for brackets have one argument in common
  have hbrackets : ∀ (ts : List Token) {o d : Token} {s s' : String}, o.isOpening s = true →
      d.isClosing s' = true → (∀ t ∈ ts, t.kind ≠ .eof) → ∀ t ∈ o :: (ts ++ [d]), t.kind ≠ .eof := by
    intro ts o d s s' ho hd hts
    refine List.forall_mem_cons.mpr ⟨Token.ne_eof_of_isBracket (Token.isBracket_of_isOpening ho), ?_⟩
    refine List.forall_mem_append.mpr ⟨hts, List.forall_mem_singleton.mpr ?_⟩
    exact Token.ne_eof_of_isBracket (Token.isBracket_of_isClosing hd)
  have hname : ∀ {t : Token}, t.isName = true → t.kind ≠ .eof :=
    fun h => Token.ne_eof_of_kept (Token.isKept_of_isName h)
  induction h with
  | nil => nofun
  | append _ _ ih ih' => exact List.forall_mem_append.mpr ⟨ih, ih'⟩
  | kept h => exact List.forall_mem_singleton.mpr (Token.ne_eof_of_kept h)
  | mute h => exact List.forall_mem_singleton.mpr (Token.ne_eof_of_mute h)
  | named h hcolon =>
    exact List.forall_mem_cons.mpr
      ⟨hname h, List.forall_mem_singleton.mpr (Token.ne_eof_of_isOp hcolon)⟩
  | paren ho hd _ ih => exact hbrackets _ ho hd ih
  | element h ho hd _ ih => exact List.forall_mem_cons.mpr ⟨hname h, hbrackets _ ho hd ih⟩
  | listed h ho hd _ ih => exact List.forall_mem_cons.mpr ⟨hname h, hbrackets _ ho hd ih⟩
  | header hword ho hd _ ih =>
    have hmute := Token.isMute_of_isKeyword hword (by decide)
    exact List.forall_mem_cons.mpr ⟨Token.ne_eof_of_mute hmute, hbrackets _ ho hd ih⟩
  | emptyArray hequals ho hd =>
    exact List.forall_mem_cons.mpr ⟨Token.ne_eof_of_isOp hequals, hbrackets [] ho hd nofun⟩

/-- Tokens that are all mute leave nothing. -/
theorem of_mute (h : ∀ t ∈ ts, t.isMute = true) : Retains ts [] := by
  induction ts with
  | nil => exact .nil
  | cons t ts ih =>
    rw [List.forall_mem_cons] at h
    exact .append (.mute h.1) (ih h.2)

end Retains

/-! ## Cursors

`Took` says which tokens lie between two cursors, and `Left` which terminals they leave. A production
that starts behind a token it did not take itself is stated with `LeftBehind`. -/

/-- Between two cursors some tokens are taken. -/
structure Took (c : Cursor) (ts : List Token) (c' : Cursor) : Prop where
  rest_eq : c.rest = ts ++ c'.rest
  ending_eq : c'.ending = c.ending

theorem Took.refl (c : Cursor) : Took c [] c := ⟨rfl, rfl⟩

theorem Took.trans {c c₁ c₂ : Cursor} {ts us : List Token} (h₁ : Took c ts c₁) (h₂ : Took c₁ us c₂) :
    Took c (ts ++ us) c₂ :=
  ⟨by rw [h₁.rest_eq, h₂.rest_eq, List.append_assoc], h₂.ending_eq.trans h₁.ending_eq⟩

/-- A list of tokens that ends properly does so after some are taken. -/
theorem Took.closed {c c' : Cursor} {ts : List Token} (h : Took c ts c') (hc : c.Closed) : c'.Closed :=
  fun t ht => hc t (h.ending_eq ▸ ht)

/-- Taking the next token takes just that, unless it is the end of input. -/
theorem took_advanced {c : Cursor} {t : Token} (hc : c.Closed) (ht : c.ahead = .ok t)
    (hkind : t.kind ≠ .eof) : Took c [t] c.advanced := by
  unfold Cursor.ahead at ht
  cases hrest : c.rest with
  | nil =>
    rw [hrest] at ht
    exact absurd (hc t ht) hkind
  | cons u rest =>
    rw [hrest] at ht
    cases ht
    exact ⟨by simp [Cursor.advanced, hrest], rfl⟩

/-- The tokens taken between two cursors leave some terminals. -/
def Left (c : Cursor) (ls : List Token) (c' : Cursor) : Prop := ∃ ts, Took c ts c' ∧ Retains ts ls

/-- The tokens taken between two cursors, with one token taken before them, leave some terminals. -/
def LeftBehind (t : Token) (c : Cursor) (ls : List Token) (c' : Cursor) : Prop :=
  ∃ ts, Took c ts c' ∧ Retains (t :: ts) ls

namespace Left

variable {c c₁ c₂ : Cursor} {ls ms : List Token}

theorem refl (c : Cursor) : Left c [] c := ⟨[], .refl c, .nil⟩

/-- What two steps leave stands one behind the other. -/
theorem trans (h₁ : Left c ls c₁) (h₂ : Left c₁ ms c₂) : Left c (ls ++ ms) c₂ := by
  obtain ⟨ts, hts, hls⟩ := h₁
  obtain ⟨us, hus, hms⟩ := h₂
  exact ⟨ts ++ us, hts.trans hus, hls.append hms⟩

/-- A list of tokens that ends properly does so behind a step. -/
theorem closed (h : Left c ls c₁) (hc : c.Closed) : c₁.Closed := by
  obtain ⟨_, hts, -⟩ := h
  exact hts.closed hc

theorem of_none (h : Took c [] c₁) : Left c [] c₁ := ⟨[], h, .nil⟩

/-- A mute token leaves nothing. -/
theorem of_mute {t : Token} (h : Took c [t] c₁) (ht : t.isMute = true) : Left c [] c₁ := ⟨[t], h, .mute ht⟩

theorem of_kept {t : Token} (h : Took c [t] c₁) (ht : t.isKept = true) : Left c [t] c₁ := ⟨[t], h, .kept ht⟩

/-- What is behind a token is taken after it. -/
theorem of_behind {t : Token} (h : Took c [t] c₁) (hls : LeftBehind t c₁ ls c₂) : Left c ls c₂ := by
  obtain ⟨ts, hts, hretains⟩ := hls
  exact ⟨t :: ts, h.trans hts, hretains⟩

end Left

/-- What a further step leaves stands behind the rest. -/
theorem LeftBehind.trans {t : Token} {c c₁ c₂ : Cursor} {ls ms : List Token} (h₁ : LeftBehind t c ls c₁)
    (h₂ : Left c₁ ms c₂) : LeftBehind t c (ls ++ ms) c₂ := by
  obtain ⟨ts, hts, hls⟩ := h₁
  obtain ⟨us, hus, hms⟩ := h₂
  exact ⟨ts ++ us, hts.trans hus, hls.append hms⟩

/-- A list of tokens that ends properly does so behind such a step. -/
theorem LeftBehind.closed {t : Token} {c c₁ : Cursor} {ls : List Token} (h : LeftBehind t c ls c₁)
    (hc : c.Closed) : c₁.Closed := by
  obtain ⟨_, hts, -⟩ := h
  exact hts.closed hc

namespace Parser

/-! ## The primitive parsers

What each of them takes, and what the nodes that they build have for terminals. -/

/-- The next token is taken, unless it is the end of input. -/
theorem took_next {c : Cursor} (hc : c.Closed) :
    next.Yields c fun t c' => c.ahead = .ok t ∧ (t.kind ≠ .eof → Took c [t] c') := by
  refine (yields_next c).mono ?_
  rintro t _ ⟨rfl, ht⟩
  exact ⟨ht, took_advanced hc ht⟩

/-- To skip takes the token ahead. -/
theorem took_skip {c : Cursor} (hc : c.Closed) {t : Token} (ht : c.ahead = .ok t)
    (hkind : t.kind ≠ .eof) : skip.Yields c fun _ c' => Took c [t] c' := by
  refine (yields_skip c).mono ?_
  rintro _ _ rfl
  exact took_advanced hc ht hkind

/-- Newlines leave nothing. -/
theorem left_skipNewlines (c : Cursor) : skipNewlines.Yields c fun _ c' => Left c [] c' := by
  intro a c' hrun
  cases hrun
  refine ⟨c.rest.takeWhile Token.isNewline, ⟨List.takeWhile_append_dropWhile.symm, rfl⟩, ?_⟩
  refine .of_mute fun t ht => Token.isMute_of_isNewline ?_
  exact List.all_eq_true.mp (List.all_takeWhile ..) t ht

/-- A number takes no token. -/
theorem took_fresh (c : Cursor) : fresh.Yields c fun _ c' => Took c [] c' := by
  intro id c' hrun
  cases hrun
  exact ⟨rfl, rfl⟩

/-- The token ahead stays when a number is taken. -/
theorem ahead_of_fresh (c : Cursor) : fresh.Yields c fun _ c' => c'.ahead = c.ahead := by
  intro id c' hrun
  cases hrun
  rfl

/-- A node has the terminals of its children, and takes no token. -/
theorem took_node (kind : Kind) (t : Token) (children : List Node) (c : Cursor)
    (hkind : kind ≠ .terminal) :
    (node kind t children).Yields c fun n c' => n.leaves = Node.leavesAll children ∧ Took c [] c' := by
  refine yields_bind (took_fresh c) ?_
  intro id c' htook
  exact yields_pure ⟨Node.leaves_mk hkind id t children, htook⟩

/-- A terminal has its token, and takes none: it was taken before. -/
theorem took_term (t : Token) (c : Cursor) :
    (term t).Yields c fun n c' => n.leaves = [t] ∧ Took c [] c' := by
  refine yields_bind (took_fresh c) ?_
  intro id c' htook
  exact yields_pure ⟨rfl, htook⟩

theorem left_fresh (c : Cursor) : fresh.Yields c fun _ c' => Left c [] c' :=
  (took_fresh c).mono fun _ _ h => .of_none h

/-- A node has the terminals of its children, and leaves nothing besides. -/
theorem left_node (kind : Kind) (t : Token) (children : List Node) (c : Cursor)
    (hkind : kind ≠ .terminal) :
    (node kind t children).Yields c fun n c' => n.leaves = Node.leavesAll children ∧ Left c [] c' :=
  (took_node kind t children c hkind).mono fun _ _ h => ⟨h.1, .of_none h.2⟩

theorem left_term (t : Token) (c : Cursor) :
    (term t).Yields c fun n c' => n.leaves = [t] ∧ Left c [] c' :=
  (took_term t c).mono fun _ _ h => ⟨h.1, .of_none h.2⟩

/-- A token that is asked for is taken, if it is the one. -/
theorem took_expect (kind : TokenKind) (text : String) {c : Cursor} (hc : c.Closed)
    (hkind : kind ≠ .eof) :
    (expect kind text).Yields c fun t c' => t.kind = kind ∧ t.text = text ∧ Took c [t] c' := by
  refine (yields_expect kind text c).mono ?_
  rintro t _ ⟨rfl, ht, rfl, htext⟩
  exact ⟨rfl, htext, took_advanced hc ht hkind⟩

/-- An opening bracket that is asked for is taken. -/
theorem took_opening (text : String) {c : Cursor} (hc : c.Closed) :
    (expect .opening text).Yields c fun t c' => t.isOpening text = true ∧ Took c [t] c' := by
  refine (took_expect .opening text hc (by decide)).mono ?_
  rintro t c' ⟨hkind, htext, htook⟩
  exact ⟨by simp [Token.isOpening, hkind, htext], htook⟩

/-- A closing bracket that is asked for is taken. -/
theorem took_closing (text : String) {c : Cursor} (hc : c.Closed) :
    (expect .closing text).Yields c fun t c' => t.isClosing text = true ∧ Took c [t] c' := by
  refine (took_expect .closing text hc (by decide)).mono ?_
  rintro t c' ⟨hkind, htext, htook⟩
  exact ⟨by simp [Token.isClosing, hkind, htext], htook⟩

/-- A word that is asked for is taken. -/
theorem took_expectKeyword (word : String) {c : Cursor} (hc : c.Closed) :
    (expectKeyword word).Yields c fun t c' => t.isKeyword word = true ∧ Took c [t] c' := by
  refine (yields_expectKeyword word c).mono ?_
  rintro t _ ⟨rfl, ht, hword⟩
  refine ⟨hword, took_advanced hc ht ?_⟩
  intro heof
  simp [Token.isKeyword, heof] at hword

/-- A name that is asked for is taken. -/
theorem took_expectName (what : String) {c : Cursor} (hc : c.Closed) :
    (expectName what).Yields c fun t c' => t.isName = true ∧ Took c [t] c' := by
  refine (yields_expectName what c).mono ?_
  rintro t _ ⟨rfl, ht, hname⟩
  exact ⟨hname, took_advanced hc ht (Token.ne_eof_of_kept (Token.isKept_of_isName hname))⟩

/-- A parser whose trees have the terminals that the tokens it takes leave. -/
def Leaves (p : Parser Node) : Prop := ∀ c, c.Closed → p.Yields c fun n c' => Left c n.leaves c'

/-! ## Expressions

One lemma for each production, in the order in which they call each other. A production that takes
another one as a parameter is followed for any parser that has the property. -/

/-- An argument has the terminals of its value, behind its name if it is named. -/
theorem left_argument {expr : Parser Node} (hexpr : Leaves expr) {c : Cursor} (hc : c.Closed)
    {t : Token} (ht : c.ahead = .ok t) {named : Bool}
    (hnamed : named = true → t.isName = true ∧ ∃ k, c.ahead 1 = .ok k ∧ k.isOp ":" = true) :
    (argument expr t named).Yields c fun n c' => Left c n.leaves c' := by
  unfold argument
  -- a named argument takes two tokens in front of its value: the name is kept, the colon is not
  refine yields_ite (fun h => ?_) fun _ => ?_
  · obtain ⟨hname, k, hk, hcolon⟩ := hnamed h
    have htook := took_advanced hc ht (Token.ne_eof_of_kept (Token.isKept_of_isName hname))
    have htook' := took_advanced (htook.closed hc) ((c.ahead_advanced).trans hk)
      (Token.ne_eof_of_isOp hcolon)
    have hleft : Left c [t] c.advanced.advanced := ⟨[t, k], htook.trans htook', .named hname hcolon⟩
    refine yields_bind (yields_skip c) ?_
    rintro _ _ rfl
    refine yields_bind (yields_skip _) ?_
    rintro _ _ rfl
    refine yields_bind (left_term t _) ?_
    rintro name c₁ ⟨hterm, hname⟩
    have hleft₁ := hleft.trans hname
    refine yields_bind (hexpr c₁ (hleft₁.closed hc)) ?_
    intro value c₂ hvalue
    refine (left_node .arg t [name, value] c₂ (by decide)).mono ?_
    rintro n c₃ ⟨hn, hnode⟩
    rw [hn]
    simpa [hterm] using (hleft₁.trans hvalue).trans hnode
  · refine yields_bind (hexpr c hc) ?_
    intro e c₁ he
    refine (left_node .arg t [e] c₁ (by decide)).mono ?_
    rintro n c₂ ⟨hn, hnode⟩
    rw [hn]
    simpa using he.trans hnode

/-- A comma between arguments leaves nothing, nor do newlines around it. -/
theorem left_separator (bracketed : Bool) {c : Cursor} (hc : c.Closed) {t : Token}
    (ht : c.ahead = .ok t) (hkind : t.kind = .comma) :
    (separator bracketed).Yields c fun _ c' => Left c [] c' := by
  have hmute : t.isMute = true := by simp [Token.isMute, hkind]
  refine yields_bind (took_skip hc ht (Token.ne_eof_of_mute hmute)) ?_
  intro _ c₁ hskip
  have hleft := Left.of_mute hskip hmute
  refine yields_ite (fun _ => ?_) fun _ => yields_pure hleft
  exact (left_skipNewlines c₁).mono fun _ _ hlines => hleft.trans hlines

/-- The arguments of a call have the terminals that their tokens leave. -/
theorem left_arguments {expr : Parser Node} (hexpr : Leaves expr) (bracketed : Bool) (fuel : Nat)
    {c : Cursor} (hc : c.Closed) :
    (arguments expr bracketed fuel).Yields c fun ns c' => Left c (Node.leavesAll ns) c' := by
  -- on the fuel: one argument, the comma behind it, and the arguments that follow
  induction fuel generalizing c with
  | zero => exact yields_bind (yields_peek 0 c) fun _ _ _ => yields_fail
  | succ fuel ih =>
    rw [arguments_succ]
    refine yields_bind (yields_peek 0 c) ?_
    rintro t _ ⟨rfl, ht⟩
    refine yields_bind (yields_isNamed _ t) ?_
    rintro named _ ⟨rfl, hnamed⟩
    refine yields_bind (left_argument hexpr hc ht hnamed) ?_
    intro n c₁ hn
    refine yields_bind (yields_peek 0 c₁) ?_
    rintro after _ ⟨rfl, hafter⟩
    refine yields_ite (fun _ => yields_pure (by simpa using hn)) fun hcomma => ?_
    refine yields_bind (left_separator bracketed (hn.closed hc) hafter (by simpa using hcomma)) ?_
    intro _ c₂ hsep
    have hleft := hn.trans hsep
    refine yields_bind (ih (hleft.closed hc)) ?_
    intro ns c₃ hns
    exact yields_pure (by simpa using hleft.trans hns)

/-- A list of arguments has the terminals of its arguments. -/
theorem left_args {expr : Parser Node} (hexpr : Leaves expr) (fuel : Nat) (t : Token) (bracketed : Bool)
    {c : Cursor} (hc : c.Closed) :
    (args expr fuel t bracketed).Yields c fun n c' => Left c n.leaves c' := by
  refine yields_bind (left_fresh c) ?_
  intro id c₁ hid
  refine yields_bind (left_arguments hexpr bracketed fuel (hid.closed hc)) ?_
  intro ns c₂ hns
  exact yields_pure (hid.trans hns)

/-- The brackets of a call, with line feeds beside them, are not kept. -/
theorem left_call {expr : Parser Node} (hexpr : Leaves expr) (fuel : Nat) {name : Token}
    (hname : name.isName = true) {c : Cursor} (hc : c.Closed) :
    (call expr fuel name).Yields c fun n c' => LeftBehind name c n.leaves c' := by
  refine yields_bind (took_opening "(" hc) ?_
  rintro o c₁ ⟨ho, hopening⟩
  refine yields_bind (left_skipNewlines c₁) ?_
  intro _ c₂ hlines
  have hc₂ := hlines.closed (hopening.closed hc)
  refine yields_bind (yields_peek 0 c₂) ?_
  rintro t _ ⟨rfl, -⟩
  have hargs : (if t.kind = .closing then node .args t [] else args expr fuel t true).Yields c₂
      fun n c' => Left c₂ n.leaves c' := by
    refine yields_ite (fun _ => ?_) fun _ => left_args hexpr fuel t true hc₂
    refine (left_node .args t [] c₂ (by decide)).mono ?_
    rintro n c' ⟨hn, hnode⟩
    rw [hn]
    exact hnode
  refine yields_ite_bind hargs ?_
  intro args c₃ hargs
  refine yields_bind (left_skipNewlines c₃) ?_
  intro _ c₄ hlines'
  have hinner := (hlines.trans hargs).trans hlines'
  refine yields_bind (took_closing ")" (hinner.closed (hopening.closed hc))) ?_
  rintro d c₅ ⟨hd, hclosing⟩
  refine yields_bind (left_term name c₅) ?_
  rintro callee c₆ ⟨hcallee, hterm⟩
  refine (left_node .call name [callee, args] c₆ (by decide)).mono ?_
  rintro n c₇ ⟨hn, hnode⟩
  obtain ⟨ts, hts, hretains⟩ := hinner
  -- what stands between the brackets stays, the brackets do not
  have hlisted : LeftBehind name c (name :: args.leaves) c₅ :=
    ⟨o :: (ts ++ [d]), hopening.trans (hts.trans hclosing), by simpa using hretains.listed hname ho hd⟩
  rw [hn]
  simpa [hcallee] using hlisted.trans (hterm.trans hnode)

/-- The brackets of an element are kept, and the array is named right before them. -/
theorem left_index {expr : Parser Node} (hexpr : Leaves expr) {name : Token}
    (hname : name.isName = true) {c : Cursor} (hc : c.Closed) :
    (index expr name).Yields c fun n c' => LeftBehind name c n.leaves c' := by
  refine yields_bind (took_term name c) ?_
  rintro nameTerm c₁ ⟨hnameTerm, hterm⟩
  refine yields_bind (took_node .ident name [nameTerm] c₁ (by decide)) ?_
  rintro array c₂ ⟨harray, hnode⟩
  -- making nodes takes no tokens
  have hbefore : Took c [] c₂ := hterm.trans hnode
  have hc₂ := hbefore.closed hc
  refine yields_bind (took_opening "[" hc₂) ?_
  rintro o c₃ ⟨ho, hopening⟩
  have hopening : Took c [o] c₃ := hbefore.trans hopening
  refine yields_bind (left_skipNewlines c₃) ?_
  intro _ c₄ hlines
  have hc₃ := hopening.closed hc
  refine yields_bind (hexpr c₄ (hlines.closed hc₃)) ?_
  intro e c₅ he
  cases e.nonIntegral? with
  | some bad => exact yields_fail_bind
  | none =>
    refine yields_bind (left_skipNewlines c₅) ?_
    intro _ c₆ hlines'
    have hinner := (hlines.trans he).trans hlines'
    refine yields_bind (took_closing "]" (hinner.closed hc₃)) ?_
    rintro d c₇ ⟨hd, hclosing⟩
    refine yields_bind (left_term o c₇) ?_
    rintro openTerm c₈ ⟨hopenTerm, hopened⟩
    refine yields_bind (left_term d c₈) ?_
    rintro closeTerm c₉ ⟨hcloseTerm, hclosed⟩
    refine (left_node .index name [array, openTerm, e, closeTerm] c₉ (by decide)).mono ?_
    rintro n c₁₀ ⟨hn, hwhole⟩
    obtain ⟨ts, hts, hretains⟩ := hinner
    -- the opening bracket becomes a terminal only here, behind the name
    have helement : LeftBehind name c (name :: o :: (e.leaves ++ [d])) c₇ :=
      ⟨o :: (ts ++ [d]), hopening.trans (hts.trans hclosing), by simpa using hretains.element hname ho hd⟩
    rw [hn]
    simpa [harray, hnameTerm, hopenTerm, hcloseTerm] using
      helement.trans ((hopened.trans hclosed).trans hwhole)

/-- A node around one token has that token as its terminal. -/
theorem left_single (kind : Kind) (hkind : kind ≠ .terminal) (t : Token) (c : Cursor) :
    (do node kind t [← term t] : Parser Node).Yields c fun n c' => n.leaves = [t] ∧ Left c [] c' := by
  refine yields_bind (left_term t c) ?_
  rintro leaf c₁ ⟨hleaf, hterm⟩
  refine (left_node kind t [leaf] c₁ hkind).mono ?_
  rintro n c₂ ⟨hn, hnode⟩
  exact ⟨by simp [hn, hleaf], hterm.trans hnode⟩

/-- An expression in brackets keeps both of them. -/
theorem left_paren {expr : Parser Node} (hexpr : Leaves expr) {t : Token}
    (ht : t.isOpening "(" = true) {c : Cursor} (hc : c.Closed) :
    (do
      skipNewlines
      let e ← expr
      skipNewlines
      let closing ← expect .closing ")"
      let openTerm ← term t
      let closeTerm ← term closing
      node .paren t [openTerm, e, closeTerm] : Parser Node).Yields c
      fun n c' => LeftBehind t c n.leaves c' := by
  refine yields_bind (left_skipNewlines c) ?_
  intro _ c₁ hlines
  refine yields_bind (hexpr c₁ (hlines.closed hc)) ?_
  intro e c₂ he
  refine yields_bind (left_skipNewlines c₂) ?_
  intro _ c₃ hlines'
  have hinner := (hlines.trans he).trans hlines'
  refine yields_bind (took_closing ")" (hinner.closed hc)) ?_
  rintro d c₄ ⟨hd, hclosing⟩
  refine yields_bind (left_term t c₄) ?_
  rintro openTerm c₅ ⟨hopenTerm, hopened⟩
  refine yields_bind (left_term d c₅) ?_
  rintro closeTerm c₆ ⟨hcloseTerm, hclosed⟩
  refine (left_node .paren t [openTerm, e, closeTerm] c₆ (by decide)).mono ?_
  rintro n c₇ ⟨hn, hnode⟩
  obtain ⟨ts, hts, hretains⟩ := hinner
  -- both brackets become terminals
  have hparen : LeftBehind t c (t :: (e.leaves ++ [d])) c₄ :=
    ⟨ts ++ [d], hts.trans hclosing, by simpa using hretains.paren ht hd⟩
  rw [hn]
  simpa [hopenTerm, hcloseTerm] using hparen.trans ((hopened.trans hclosed).trans hnode)

/-- A primary expression has the terminals that its tokens leave. -/
theorem left_primary {expr : Parser Node} (hexpr : Leaves expr) (fuel : Nat) :
    Leaves (primary expr fuel) := by
  intro c hc
  refine yields_bind (took_next hc) ?_
  rintro t c₁ ⟨-, htook⟩
  -- an operand of one token
  have hsingle : ∀ kind, kind ≠ .terminal → t.isKept = true →
      (do node kind t [← term t] : Parser Node).Yields c₁ fun n c' => Left c n.leaves c' := by
    intro kind hkind hkept
    refine (left_single kind hkind t c₁).mono ?_
    rintro n c' ⟨hn, hleft⟩
    rw [hn]
    exact (Left.of_kept (htook (Token.ne_eof_of_kept hkept)) hkept).trans hleft
  split
  iterate 3
    rename_i hkind
    cases literal t with
    | error e => exact yields_fail_bind
    | ok v => exact hsingle .literal (by decide) (by simp [Token.isKept, hkind])
  · rename_i hkind
    exact hsingle .globalRef (by decide) (by simp [Token.isKept, hkind])
  · rename_i hkind
    have htook := htook (by rw [hkind]; nofun)
    refine yields_ite (fun _ => yields_fail_bind) fun htext => ?_
    have hopening : t.isOpening "(" = true := by
      simpa [Token.isOpening, hkind] using htext
    exact (left_paren hexpr hopening (htook.closed hc)).mono fun n c' => .of_behind htook
  · rename_i hkind
    have htook := htook (by rw [hkind]; nofun)
    refine yields_ite (fun htext => ?_) fun _ => yields_ite (fun _ => yields_fail) fun hname => ?_
    · refine hsingle .literal (by decide) ?_
      rcases htext with htext | htext <;> simp [Token.isKept, hkind, htext, Token.operandWords]
    have hname : t.isName = true := by simpa using hname
    have hc₁ := htook.closed hc
    refine yields_bind (yields_peek 0 _) ?_
    rintro ahead _ ⟨rfl, -⟩
    refine yields_ite (fun _ => ?_) fun _ => yields_ite (fun _ => ?_) fun _ => ?_
    · exact (left_call hexpr fuel hname hc₁).mono fun n c' => .of_behind htook
    · exact (left_index hexpr hname hc₁).mono fun n c' => .of_behind htook
    · exact hsingle .ident (by decide) (Token.isKept_of_isName hname)
  · exact yields_fail

/-- A signed expression has the terminals that its tokens leave. -/
theorem left_unary {operand : Parser Node} (hoperand : Leaves operand) (fuel : Nat) :
    Leaves (unary operand fuel) := by
  -- on the fuel, which bounds the number of signs
  induction fuel with
  | zero => exact fun c _ => yields_bind (yields_peek 0 c) fun _ _ _ => yields_fail
  | succ fuel ih =>
    intro c hc
    refine yields_bind (yields_peek 0 c) ?_
    rintro t _ ⟨rfl, ht⟩
    refine yields_ite (fun hsign => ?_) fun _ => hoperand c hc
    have hkept := Token.isKept_of_isSign hsign
    refine yields_bind (took_skip hc ht (Token.ne_eof_of_kept hkept)) ?_
    intro _ c₁ hskip
    refine yields_bind (left_term t c₁) ?_
    rintro op c₂ ⟨hop, hterm⟩
    have hleft := (Left.of_kept hskip hkept).trans hterm
    refine yields_bind (ih c₂ (hleft.closed hc)) ?_
    intro e c₃ he
    refine (left_node .unary t [op, e] c₃ (by decide)).mono ?_
    rintro n c₄ ⟨hn, hnode⟩
    rw [hn]
    simpa [hop] using (hleft.trans he).trans hnode

/-- The climb goes on behind the left operand. -/
theorem left_climb {right : Nat → Parser Node} (hright : ∀ limit, Leaves (right limit)) (limit fuel : Nat)
    {c₀ c : Cursor} {left : Node} (hc₀ : c₀.Closed) (h : Left c₀ left.leaves c) :
    (climb right limit fuel left).Yields c fun n c' => Left c₀ n.leaves c' := by
  -- `left` has the terminals of all tokens that were taken so far
  induction fuel generalizing c left with
  | zero => exact yields_bind (yields_peek 0 c) fun _ _ _ => yields_fail
  | succ fuel ih =>
    have hc := h.closed hc₀
    rw [climb]
    refine yields_bind (yields_peek 0 c) ?_
    rintro t _ ⟨rfl, ht⟩
    cases hop : Operator.ofToken? t with
    | none => exact yields_pure h
    | some op =>
      refine yields_ite (fun _ => yields_pure h) fun _ => ?_
      have hkept := Token.isKept_of_operator hop
      have hkind : op.kind ≠ .terminal := by
        have hall : ∀ op ∈ Operator.table.map (·.2), op.kind ≠ .terminal := by decide
        exact hall op (Operator.mem_table hop)
      refine yields_bind (took_skip hc ht (Token.ne_eof_of_kept hkept)) ?_
      intro _ c₁ hskip
      refine yields_bind (left_skipNewlines c₁) ?_
      intro _ c₂ hlines
      have hleft := (h.trans (Left.of_kept hskip hkept)).trans hlines
      refine yields_bind (hright op.limit c₂ (hleft.closed hc₀)) ?_
      intro r c₃ hr
      refine yields_bind (left_term t c₃) ?_
      rintro opTerm c₄ ⟨hopTerm, hterm⟩
      refine yields_bind (left_node op.kind left.token [left, opTerm, r] c₄ hkind) ?_
      rintro whole c₅ ⟨hwhole, hnode⟩
      refine ih ?_
      rw [hwhole]
      simpa [hopTerm] using ((hleft.trans hr).trans hterm).trans hnode

/-- An operation has the terminals that its tokens leave. -/
theorem left_binary (fuel limit : Nat) : Leaves (binary fuel limit) := by
  -- operands are parsed with less fuel
  induction fuel generalizing limit with
  | zero => exact fun c _ => yields_bind (yields_peek 0 c) fun _ _ _ => yields_fail
  | succ fuel ih =>
    intro c hc
    refine yields_bind (left_unary (left_primary (ih _) (fuel + 1)) (fuel + 1) c hc) ?_
    intro left c₁ hleft
    exact left_climb ih limit (fuel + 1) hc hleft

theorem left_expr (fuel : Nat) : Leaves (expr fuel) := left_binary fuel _

end Parser

end ScriptPir
