import ScriptPir.Proofs.Depth
import ScriptPir.Proofs.ExpressionCompletion

/-!
# Completing a program

The productions of statements are completed in the order in which they call each other. A block goes on to
its `end`, a condition has a line of its own, and the header of a loop is filled up: what the words are is
written out where a production may come to the end of the lines.

* `closes_stmts` — a list of statements that came to the end of the lines can be completed by the words
  that its last statement and the constructs around it need;
* `parseFrom_completed` — so a program that came to their end without an error has a completion.

Which words are needed depends on where the lines end. They are computed along the way, from the inside
to the outside, so that each production adds its own behind those of the production inside.
-/

namespace ScriptPir

namespace Parser

variable {α β : Type} {x : FullLines} {S : Token → Prop} {N : Nat}

/-! ## Blocks

A list of statements may be over at the end of the lines, and then no words are needed; or the last
statement is not complete, and its words are. -/

section Statements

variable {P : List Token → Prop} {stmt stmt' : Parser Node}

/-- Where a block ends, a list of statements takes nothing. -/
theorem takes_stmts (stops : List String) (fuel : Nat) :
    Takes (fun t => endsBlock stops t = true) [] (stmts stmt' stops (fuel + 1)) := by
  refine .peek_bind_nil fun t ht => ?_
  have hkind : t.kind ≠ .semi := by
    intro hkind
    simp [endsBlock, hkind] at ht
  rw [if_neg hkind, if_pos ht]
  exact .pure trivial

/-- A list of statements takes a line feed and ends. -/
theorem takes_stmts_newline (stops : List String) (fuel : Nat) :
    Takes (fun t => endsBlock stops t = true) [.newline] (stmts stmt' stops (fuel + 2)) := by
  refine .peek_bind fun t ht => ?_
  have hkind : t.kind = .semi := ht.1
  rw [if_pos hkind]
  exact Finishes.skip.bind (fun _ _ => takes_stmts stops fuel) fun _ => id

/-- A list of statements can be completed if each statement can. -/
theorem closes_stmts (htracks : ∀ y, Tracks y Any False N 1 stmt stmt') (h : Closes x Any Bound N stmt stmt')
    (stops : List String) {fuel fuel' : Nat} (hlt : fuel < fuel') (hN : N ≤ fuel) :
    Closes x P (fun t => endsBlock stops t = true) N (stmts stmt stops fuel) (stmts stmt' stops fuel') := by
  -- on the fuel: a list is completed in its last statement, or by nothing but a line feed
  induction fuel generalizing fuel' N P with
  | zero =>
    obtain rfl := Nat.le_zero.mp hN
    exact .none
  | succ fuel ih =>
    obtain hle | ⟨n, rfl⟩ : N ≤ 1 ∨ ∃ n, N = n + 2 := by
      rcases Nat.lt_or_ge N 2 with hlt | hge
      · exact .inl (by omega)
      · exact .inr ⟨N - 2, by omega⟩
    -- a single token would be the last line feed
    · exact .of_le_one hle
    obtain ⟨fuel', rfl⟩ : ∃ m, fuel' = m + 3 := ⟨fuel' - 3, by omega⟩
    have htracks' : ∀ y, Tracks y Any False (n + 1) 1 stmt stmt' :=
      fun y => (htracks y).weaken (Nat.le_succ _)
    have hrest : ∀ {P}, Closes x P (fun t => endsBlock stops t = true) (n + 1) (stmts stmt stops fuel)
        (stmts stmt' stops (fuel' + 2)) :=
      ih htracks' (h.weaken (Nat.le_succ _)) (by omega) (by omega)
    have hlist : ∀ (P : List Token → Prop) (s : Node), Closes x P (fun t => endsBlock stops t = true) (n + 1)
        (do return s :: (← stmts stmt stops fuel)) (do return s :: (← stmts stmt' stops (fuel' + 2))) := by
      intro P s
      have htracks₁ : ∀ y, Tracks y P True (n + 1) 0 (stmts stmt stops fuel)
          (stmts stmt' stops (fuel' + 2)) := fun y => tracks_stmts (htracks' y) stops (by omega) (by omega)
      exact .bind_nil htracks₁ hrest (fun _ => .pure) fun _ => .pure trivial
    refine .peek_bind_zero fun t _ => .ite (fun _ => ?_) fun _ => .ite (fun _ => .pure) fun _ => ?_
    · exact .leave_bind (W := []) hrest (takes_stmts_newline stops fuel')
    refine .bind_taken (W := [.newline]) (fun y => (htracks y).any) h.any (fun s => ?_) (fun s => ?_)
      fun t ht => .inl ht.1
    · refine .peek_bind_zero fun after hafter => .ite (fun _ => ?_) fun _ => ?_
      · refine (Closes.leave_bind (W := []) (hlist _ s) ?_).weaken (Nat.le_succ _)
        exact (takes_stmts_newline stops fuel').bind (fun _ _ => .pure trivial) fun _ => id
      · exact .ite (fun _ => .fail_bind hafter) fun _ => hlist _ s
    · refine .peek_bind fun t ht => ?_
      have hkind : t.kind = .semi := ht.1
      rw [if_pos hkind]
      refine Finishes.skip.bind (fun _ _ => ?_) fun _ => id
      exact (takes_stmts stops (fuel' + 1)).bind (fun _ _ => .pure trivial) fun _ => id

/-- The body of a construct takes the words of the statements in it. -/
theorem takes_body {words : List Word} (stops : List String) (fuel : Nat)
    (h : Takes S words (stmts stmt' stops fuel)) : Takes S words (body stmt' fuel stops) := by
  have hlist : Takes S words (stmtList stmt' fuel stops) := by
    refine .peek_bind_any fun first => ?_
    have hnode : Takes S (words ++ []) (stmts stmt' stops fuel >>= fun list => node .stmtList first list) :=
      h.bind (fun _ _ => .node) fun _ => id
    rwa [List.append_nil] at hnode
  refine .peek_bind_any fun t => ?_
  have hnode : Takes S (words ++ []) (stmtList stmt' fuel stops >>= fun list => node .body t [list]) :=
    hlist.bind (fun _ _ => .node) fun _ => id
  rwa [List.append_nil] at hnode

/-- The statements of a program or a body can be completed. -/
theorem closes_stmtList (htracks : ∀ y, Tracks y Any False N 1 stmt stmt')
    (h : Closes x Any Bound N stmt stmt') {fuel fuel' : Nat} (hlt : fuel < fuel') (hN : N ≤ fuel)
    (stops : List String) : Closes x P (fun t => endsBlock stops t = true) N (stmtList stmt fuel stops)
      (stmtList stmt' fuel' stops) := by
  refine .peek_bind_zero fun first _ => ?_
  exact .bind_nil (fun y => tracks_stmts (htracks y) stops (Nat.le_of_lt hlt) hN)
    (closes_stmts htracks h stops hlt hN) (fun _ => .node) fun _ => .node

/-- A body can be completed if each statement in it can. -/
theorem closes_body (htracks : ∀ y, Tracks y Any False N 1 stmt stmt') (h : Closes x Any Bound N stmt stmt')
    {fuel fuel' : Nat} (hlt : fuel < fuel') (hN : N ≤ fuel) (stops : List String) :
    Closes x P (fun t => endsBlock stops t = true) N (body stmt fuel stops) (body stmt' fuel' stops) := by
  refine .peek_bind_zero fun first _ => ?_
  exact .bind_nil (fun y => tracks_stmtList (htracks y) (Nat.le_of_lt hlt) hN stops)
    (closes_stmtList htracks h hlt hN stops) (fun _ => .node) fun _ => .node

end Statements

/-! ## Branches and loops

Whatever a construct breaks off in, its `end` is among the words, last of all its own. The words for
what still has to come in between are the same for every point at which it may break off: a
condition, a line feed, and the end. -/

/-- The word for the end ends a block. -/
theorem endsBlock_of_stop {stops : List String} (hstops : "end" ∈ stops) {t : Token}
    (ht : Word.stop.Says t) : endsBlock stops t = true := by
  have hkind : t.kind = .ident := ht.1
  have htext : t.text = "end" := ht.2
  simp [endsBlock, hkind, htext, hstops]

/-- A parser for blocks, and one with more fuel, with which it can be completed. -/
structure RepairsBlock (x : FullLines) (N : Nat) (block block' : List String → Parser Node) : Prop where
  lapses : ∀ ending stops, Lapses ending True (block stops)
  tracks : ∀ y stops, Tracks y Any True N 0 (block stops) (block' stops)
  closes : ∀ stops, Closes x Any (fun t => endsBlock stops t = true) N (block stops) (block' stops)
  empty : ∀ stops, Takes (fun t => endsBlock stops t = true) [] (block' stops)
  blank : ∀ stops, Takes (fun t => endsBlock stops t = true) [.newline] (block' stops)

namespace RepairsBlock

variable {block block' : List String → Parser Node}

/-- With fewer tokens, blocks can be completed as well. -/
theorem weaken {n : Nat} (h : RepairsBlock x N block block') (hn : n ≤ N) :
    RepairsBlock x n block block' :=
  ⟨h.lapses, fun y stops => (h.tracks y stops).weaken hn, fun stops => (h.closes stops).weaken hn, h.empty,
    h.blank⟩

variable {P : List Token → Prop} (h : RepairsBlock x N block block')

include h

/-- A block and what comes behind it, up to the end of a construct. -/
theorem closes_bind {words : List Word} {f f' : Node → Parser α} {stops : List String}
    (hstops : "end" ∈ stops) (hf : ∀ b, Closes x Any S N (f b) (f' b)) (hend : ∀ b, Takes S words (f' b))
    (hleads : Leads Word.stop.Says words S) :
    Closes x P S N (block stops >>= f) (block' stops >>= f') :=
  .bind (fun y => (h.tracks y stops).any) (h.closes stops).any hf hend fun t ht =>
    endsBlock_of_stop hstops (hleads t ht)

/-- An empty block takes no words, in front of those of what follows. -/
theorem takes_bind {words : List Word} {f : Node → Parser α} {stops : List String}
    (hstops : "end" ∈ stops) (hf : ∀ b, Takes S words (f b)) (hleads : Leads Word.stop.Says words S) :
    Takes S words (block' stops >>= f) :=
  (h.empty stops).bind (fun b _ => hf b) fun t ht => endsBlock_of_stop hstops (hleads t ht)

/-- An empty block takes a line feed, in front of the words of what follows. -/
theorem takes_newline_bind {words : List Word} {f : Node → Parser α} {stops : List String}
    (hstops : "end" ∈ stops) (hf : ∀ b, Takes S words (f b)) (hleads : Leads Word.stop.Says words S) :
    Takes S (.newline :: words) (block' stops >>= f) :=
  (h.blank stops).bind (fun b _ => hf b) fun t ht => endsBlock_of_stop hstops (hleads t ht)

end RepairsBlock

theorem takes_end {kind : Kind} {t : Token} {children : List Node} :
    Takes S [.stop] (do let _ ← expectKeyword "end"; node kind t children) :=
  (Finishes.expectKeyword rfl rfl).bind (fun _ _ => .node) fun _ _ => trivial

theorem closes_end {P : List Token → Prop} {kind : Kind} {t : Token} {children : List Node} :
    Closes x P S N (do let _ ← expectKeyword "end"; node kind t children)
      (do let _ ← expectKeyword "end"; node kind t children) :=
  .andThen (fun _ => .weak .expectKeyword) .expectKeyword fun _ => .node

theorem isNewline_of_isKeyword {t : Token} {word : String} (h : t.isKeyword word = true) :
    t.isNewline = false := by
  refine isNewline_of_kind fun hkind => ?_
  simp [Token.isKeyword, hkind] at h

section Blocks

variable {P : List Token → Prop} {expr expr' : Parser Node} {block block' : List String → Parser Node}
  (h : Repairs x N expr expr') (hblock : RepairsBlock x N block block')

include h

omit h in
/-- A condition may end at a separator, which is left to the block. -/
theorem takes_conditionEnd (word : String) (e : Node) (t : Token) :
    Takes (fun t => t.kind = .semi) [] (do
      let after ← peek
      if after.isKeyword word then skip
      else if after.kind ≠ .semi then fail after .conditionEnd
      node .cond t [e]) := by
  refine .peek_bind_nil fun after hafter => ?_
  rw [if_neg (by simp [Token.isKeyword, hafter]), if_neg (by rw [hafter]; decide)]
  exact .node

/-- A condition, and what comes behind its line. -/
theorem closes_condition (word : String) :
    Closes x P (fun t => t.kind = .semi) N (condition expr word) (condition expr' word) := by
  refine .peek_bind_zero fun t _ => ?_
  refine .bind (W := []) (fun y => (h.tracks y).any) h.closes.any (fun e => ?_)
    (fun e => takes_conditionEnd word e t) fun _ => .inl
  refine .peek_bind_zero fun after hafter => .ite (fun hword => ?_) fun _ => ?_
  · refine (Closes.skip_bind Any (fun l hl => ?_) .node).weaken (Nat.le_succ N)
    exact ⟨after, hl.2, isNewline_of_isKeyword hword, trivial⟩
  · exact .ite (fun _ => .fail_bind hafter) fun _ => .node

include hblock

omit h in
/-- The last arm can be completed. -/
theorem closes_elseArm : Closes x P Word.stop.Says N (elseArm block) (elseArm block') := by
  refine .peek_bind_zero fun t _ => .ite (fun hword => ?_) fun _ => .pure
  have htake : ∀ b : Node, Takes Word.stop.Says [] (do return [← node .elseArm t [b]]) :=
    fun b => .bind_nil .node fun _ _ => .pure trivial
  refine (Closes.skip_bind Any (fun l hl => ?_) ?_).weaken (Nat.le_succ N)
  · exact ⟨t, hl.2, isNewline_of_isKeyword hword, trivial⟩
  · exact hblock.closes_bind (by decide) (fun b => .node_bind fun _ => .pure) htake fun _ => id

omit h hblock in
/-- The last arm may be missing. -/
theorem takes_elseArm : Takes Word.stop.Says [] (elseArm block) := by
  refine .peek_bind_nil fun t ht => ?_
  have htext : t.text = "end" := ht.2
  rw [if_neg (by simp [Token.isKeyword, htext])]
  exact .pure trivial

omit h hblock in
/-- Further arms may be missing. -/
theorem takes_elsifArms (fuel : Nat) : Takes Word.stop.Says [] (elsifArms expr block (fuel + 1)) := by
  refine .peek_bind_nil fun t ht => ?_
  have htext : t.text = "end" := ht.2
  rw [if_neg (by simp [Token.isKeyword, htext])]
  exact .pure trivial

/-- Further arms can be completed. -/
theorem closes_elsifArms {fuel fuel' : Nat} (hlt : fuel < fuel') (hN : N ≤ fuel) :
    Closes x P Word.stop.Says N (elsifArms expr block fuel) (elsifArms expr' block' fuel') := by
  induction fuel generalizing fuel' N P with
  | zero =>
    obtain rfl := Nat.le_zero.mp hN
    exact .none
  | succ fuel ih =>
    cases N with
    | zero => exact .none
    | succ n =>
      obtain ⟨fuel', rfl⟩ : ∃ m, fuel' = m + 2 := ⟨fuel' - 2, by omega⟩
      have h' := h.weaken (Nat.le_succ n)
      have hblock' := hblock.weaken (Nat.le_succ n)
      have htracks : ∀ y, Tracks y Any True n 0 (elsifArms expr block fuel)
          (elsifArms expr' block' (fuel' + 1)) := fun y =>
        tracks_elsifArms (h.needs _) (h'.tracks y) (hblock'.tracks y) (by omega) (by omega)
      have htake : ∀ (t : Token) (c b : Node), Takes Word.stop.Says [] (do
          let arm ← node .elsifArm t [c, b]
          return arm :: (← elsifArms expr' block' (fuel' + 1))) := fun t c b =>
        .bind_nil .node fun arm _ => (takes_elsifArms fuel').bind (fun _ _ => .pure trivial) fun _ => id
      refine .peek_bind_zero fun t _ => .ite (fun hword => ?_) fun _ => .pure
      refine .skip_bind Any (fun l hl => ⟨t, hl.2, isNewline_of_isKeyword hword, trivial⟩) ?_
      -- a condition that is cut off needs a line feed and an empty block behind it
      refine .bind (W := [.newline]) (fun y => tracks_condition (h.needs _) (h'.tracks y) _)
        (closes_condition h' _) (fun c => ?_) (fun c => ?_) fun t ht => ht.1
      · refine hblock'.closes_bind (by decide) (fun b => .node_bind fun arm => ?_) (htake t c) fun _ => id
        exact .bind_nil htracks (ih h' hblock' (by omega) (by omega)) (fun _ => .pure) fun _ => .pure trivial
      · exact hblock'.takes_newline_bind (by decide) (htake t c) fun _ => id

omit h hblock in
/-- The arms that may still follow, and the end. -/
theorem takes_armsEnd {kind : Kind} {t : Token} (children : List Node → List Node) :
    Takes S [.stop] (do
      let last ← elseArm block'
      let _ ← expectKeyword "end"
      node kind t (children last)) :=
  takes_elseArm.bind (fun _ _ => takes_end) fun _ => id

/-- A branch can be completed. -/
theorem closes_ifStmt {fuel fuel' : Nat} (hlt : fuel < fuel') (hN : N ≤ fuel) :
    Closes x P S (N + 1) (ifStmt expr block fuel) (ifStmt expr' block' fuel') := by
  obtain ⟨fuel', rfl⟩ : ∃ m, fuel' = m + 1 := ⟨fuel' - 1, by omega⟩
  -- what completes the statement from each of its parts on
  have hlast : ∀ (t : Token) (c b : Node) (arms : List Node), Takes S [.stop] (do
      let last ← elseArm block'
      let _ ← expectKeyword "end"
      node .ifStmt t (c :: b :: arms ++ last)) :=
    fun t c b arms => takes_armsEnd fun last => c :: b :: arms ++ last
  have harms : ∀ (t : Token) (c b : Node), Takes S [.stop] (do
      let arms ← elsifArms expr' block' (fuel' + 1)
      let last ← elseArm block'
      let _ ← expectKeyword "end"
      node .ifStmt t (c :: b :: arms ++ last)) :=
    fun t c b => (takes_elsifArms fuel').bind (fun arms _ => hlast t c b arms) fun _ => id
  refine .expectKeyword_bind fun t _ => ?_
  refine .bind (W := [.newline, .stop]) (fun y => tracks_condition (h.needs _) (h.tracks y) _)
    (closes_condition h _) (fun c => ?_) (fun c => ?_) fun t ht => ht.1
  · refine hblock.closes_bind (by decide) (fun b => ?_) (harms t c) fun _ => id
    refine .bind (fun y => tracks_elsifArms (h.needs _) (h.tracks y) (hblock.tracks y) (Nat.le_of_lt hlt) hN)
      (closes_elsifArms h hblock hlt hN) (fun arms => ?_) (hlast t c b) fun _ => id
    exact .bind (fun y => tracks_elseArm (hblock.lapses _) (hblock.tracks y)) (closes_elseArm hblock)
      (fun _ => closes_end) (fun _ => takes_end) fun _ => id
  · exact hblock.takes_newline_bind (by decide) (harms t c) fun _ => id

/-- A negated branch can be completed. -/
theorem closes_unlessStmt : Closes x P S (N + 1) (unlessStmt expr block) (unlessStmt expr' block') := by
  have hlast : ∀ (t : Token) (c b : Node), Takes S [.stop] (do
      let last ← elseArm block'
      let _ ← expectKeyword "end"
      node .unlessStmt t (c :: b :: last)) :=
    fun t c b => takes_armsEnd fun last => c :: b :: last
  refine .expectKeyword_bind fun t _ => ?_
  refine .bind (W := [.newline, .stop]) (fun y => tracks_condition (h.needs _) (h.tracks y) _)
    (closes_condition h _) (fun c => ?_) (fun c => ?_) fun t ht => ht.1
  · refine hblock.closes_bind (by decide) (fun b => ?_) (hlast t c) fun _ => id
    exact .bind (fun y => tracks_elseArm (hblock.lapses _) (hblock.tracks y)) (closes_elseArm hblock)
      (fun _ => closes_end) (fun _ => takes_end) fun _ => id
  · exact hblock.takes_newline_bind (by decide) (hlast t c) fun _ => id

/-- A loop can be completed. -/
theorem closes_whileLoop : Closes x P S (N + 1) (whileLoop expr block) (whileLoop expr' block') := by
  refine .expectKeyword_bind fun t _ => ?_
  refine .bind (W := [.newline, .stop]) (fun y => tracks_condition (h.needs _) (h.tracks y) _)
    (closes_condition h _) (fun c => ?_) (fun c => ?_) fun t ht => ht.1
  · exact hblock.closes_bind (by decide) (fun _ => closes_end) (fun _ => takes_end) fun _ => id
  · exact hblock.takes_newline_bind (by decide) (fun _ => takes_end) fun _ => id

end Blocks

/-! ## Assignments

An assignment that comes to the end of the lines has a line feed behind its operator, or in its
value. A line feed behind its name would be an error there, and not at the end. -/

/-- The next token is there and no line feed. -/
def Starts (l : List Token) : Prop := ∃ t, l[0]? = some t ∧ t.isNewline = false

theorem isNewline_of_isName {t : Token} (h : t.isName = true) : t.isNewline = false :=
  isNewline_of_kind (by rw [(Shape.isName_kind h).1]; decide)

section Assignments

variable {P : List Token → Prop} {expr expr' : Parser Node} (h : Repairs x N expr expr')

include h

/-- What stands behind the operator of an assignment can be completed. -/
theorem closes_assigned (name op : Token) {t : Token}
    (hhead : t.kind ≠ .op → ∀ l, P l → l[0]? = some t) :
    Closes x P Bound N (assigned expr name op t) (assigned expr' name op t) := by
  -- behind the line feed, the word for a constant is the value
  have htake : ∀ nameTerm opTerm : Node, Takes Bound [.one] (do
      let e ← expr'
      node .assign name [nameTerm, opTerm, e]) :=
    fun _ _ => h.finishes.bind (fun _ _ => .node) fun _ => id
  have hvalue : ∀ P, Closes x P Bound N
      (do
        skipNewlines
        let nameTerm ← term name
        let opTerm ← term op
        let e ← expr
        node .assign name [nameTerm, opTerm, e])
      (do
        skipNewlines
        let nameTerm ← term name
        let opTerm ← term op
        let e ← expr'
        node .assign name [nameTerm, opTerm, e]) := by
    intro P
    refine .skipNewlines_bind (w := .one) (W := []) (by decide) ?_ ?_
    · exact .term_bind fun _ => .term_bind fun _ => closes_value h (fun _ => .node) fun _ => .node
    · exact .bind_nil .term fun _ _ => .bind_nil .term fun _ _ => htake _ _
  unfold assigned
  refine .ite (fun hopening => ?_) fun _ => .ite_bind (fun hkind => ?_) fun _ => ?_
  · have hkind : t.kind = .opening := by
      simp only [Token.isOpening, Bool.and_eq_true, decide_eq_true_eq] at hopening
      exact hopening.1
    refine (Closes.skip_bind Any (fun l hl => ⟨t, hhead (by rw [hkind]; decide) l hl, ?_, trivial⟩)
      (.next_bind (fun closing hclosing _ => ?_) fun closing _ _ _ hnewline => ?_)).weaken (by omega : N ≤ N + 2)
    · exact isNewline_of_kind (by rw [hkind]; decide)
    · exact .ite (fun _ => .fail_bind hclosing) fun _ => .term_bind fun _ => .term_bind fun _ => .node
    · rw [if_pos (by simp [kind_of_isNewline hnewline])]
      exact (refuses_fail hnewline).bind
  · have hline : t.isNewline = false := isNewline_of_kind (by rw [hkind]; decide)
    have hhead' := hhead (by rw [hkind]; decide)
    rw [map_eq_pure_bind, bind_assoc, bind_assoc]
    refine .peek_bind (fun c hc hl => hc.length_lt (hhead' _ hl) hline) fun after _ => ?_
    rw [pure_bind, pure_bind]
    refine .ite (fun _ => ?_) fun _ => hvalue _
    refine (Closes.skip_bind Any (fun l hl => ⟨t, hhead' l hl.1, hline, trivial⟩) ?_).weaken (Nat.le_succ N)
    exact .term_bind fun _ => .term_bind fun _ => .term_bind fun _ => .node
  · rw [pure_bind, pure_bind]
    exact hvalue _

/-- What stands behind the name of an assignment can be completed. -/
theorem closes_assignTo (name : Token) :
    Closes x P Bound N (assignTo expr name) (assignTo expr' name) := by
  refine .peek_bind_zero fun t _ => .ite (fun _ => ?_) fun _ => ?_
  -- an element is completed by a bracket and a value, or by a value behind the equals sign
  · refine .bind (W := [.equals, .one]) (fun y => tracks_index (h.needs _) (h.tracks y) name)
      (closes_index (S := Word.equals.Says) h name) (fun target => ?_) (fun target => ?_) fun _ => id
    · refine (Closes.next_bind (fun op hop _ => ?_) fun op _ _ _ hnewline => ?_).weaken (Nat.le_succ N)
      · refine .ite (fun _ => .fail_bind hop) fun _ => .term_bind fun _ => ?_
        exact closes_value h (fun _ => .node) fun _ => .node
      · rw [if_pos (by simp [Token.isOp, kind_of_isNewline hnewline])]
        exact (refuses_fail hnewline).bind
    · refine .next_bind fun op hop => ?_
      have hequals : op.isOp "=" = true := by simp [Token.isOp, hop.1, hop.2, Word.kind, Word.text]
      rw [if_neg (by rw [hequals]; decide)]
      exact .bind_nil .term fun _ _ => h.finishes.bind (fun _ _ => .node) fun _ => id
  · refine (Closes.next_bind (fun op hop _ => ?_) fun op _ _ _ hnewline => ?_).weaken (Nat.le_succ N)
    · refine .ite (fun _ => .fail_bind hop) fun hassign => .ite_bind (fun _ => ?_) fun _ => ?_
      · exact .peek_bind_zero fun t _ => closes_assigned h name op fun _ l hl => hl.2
      · have hkind : op.kind = .op := by
          simp only [Token.isAssign, Bool.not_eq_true', Bool.not_eq_false, Bool.and_eq_true,
            decide_eq_true_eq] at hassign
          exact hassign.1
        rw [pure_bind, pure_bind]
        exact closes_assigned h name op fun hop => absurd hkind hop
    · rw [if_pos (by simp [Token.isAssign, kind_of_isNewline hnewline])]
      exact (refuses_fail hnewline).bind

/-- An assignment can be completed. -/
theorem closes_assignment (hP : ∀ l, P l → Starts l) :
    Closes x P Bound (N + 1) (assignment expr) (assignment expr') := by
  refine .next_bind (fun name _ _ => closes_assignTo h name) fun t l hl ht hnewline => ?_
  obtain ⟨u, hu, hline⟩ := hP l hl
  rw [ht] at hu
  cases hu
  rw [hnewline] at hline
  cases hline

/-- The assignments in a header can be completed. -/
theorem closes_forAssignments {fuel fuel' : Nat} (hlt : fuel < fuel') (hN : N ≤ fuel) :
    Closes x P Bound N (forAssignments expr fuel) (forAssignments expr' fuel') := by
  induction fuel generalizing fuel' N P with
  | zero =>
    obtain rfl := Nat.le_zero.mp hN
    exact .none
  | succ fuel ih =>
    cases N with
    | zero => exact .none
    | succ n =>
      obtain ⟨fuel', rfl⟩ : ∃ m, fuel' = m + 1 := ⟨fuel' - 1, by omega⟩
      have h' := h.weaken (Nat.le_succ n)
      have htracks : ∀ y, Tracks y Any False n 1 (forAssignments expr fuel) (forAssignments expr' fuel') :=
        fun y => tracks_forAssignments (h.needs _) (h'.tracks y) (by omega) (by omega)
      -- what the two ways to look ahead have in common
      have hgo : ∀ {P : List Token → Prop} {t : Token} {starts : Bool}, t.kind ≠ .eof →
          (starts = true → ∀ l, P l → Starts l) → Closes x P Bound (n + 1)
          (do
            if !starts then Parser.fail t .forHeader
            let a ← assignment expr
            if (← peek).kind ≠ .comma then return [a]
            skip
            return a :: (← forAssignments expr fuel))
          (do
            if !starts then Parser.fail t .forHeader
            let a ← assignment expr'
            if (← peek).kind ≠ .comma then return [a]
            skip
            return a :: (← forAssignments expr' fuel')) := by
        intro P t starts ht hP
        refine .ite (fun _ => .fail_bind ht) fun hstarts => ?_
        have hstarts : starts = true := by simpa using hstarts
        refine .bind_taken_nil (fun y => tracks_assignment (h.needs _) (h'.tracks y))
          (closes_assignment h' (hP hstarts)) (fun a => ?_) fun a => takes_noComma [a] _
        refine .peek_bind_zero fun after _ => .ite (fun _ => .pure) fun hcomma => ?_
        refine (Closes.skip_bind Any (fun l hl => ⟨after, hl.2, ?_, trivial⟩) ?_).weaken (Nat.le_succ n)
        · exact isNewline_of_kind (by rw [not_not.mp hcomma]; decide)
        · exact .bind_nil htracks (ih h' (by omega) (by omega)) (fun _ => .pure) fun _ => .pure trivial
      refine .peek_bind_zero fun t ht => .ite_bind (fun hname => ?_) fun _ => ?_
      · have hline := isNewline_of_isName hname
        rw [map_eq_pure_bind, bind_assoc, bind_assoc]
        refine .peek_bind (fun c hc hl => hc.length_lt hl.2 hline) fun after _ => ?_
        rw [pure_bind, pure_bind]
        exact hgo ht fun _ l hl => ⟨t, hl.1.2, hline⟩
      · rw [pure_bind, pure_bind]
        exact hgo ht fun hfalse => by cases hfalse

/-- A part of a header can be completed. -/
theorem closes_forClause {fuel fuel' : Nat} (hlt : fuel < fuel') (hN : N ≤ fuel) (kind : Kind)
    (close : String) : Closes x P Bound N (forClause expr fuel kind close) (forClause expr' fuel' kind close) := by
  have htracks : ∀ y, Tracks y Any False N 1 (forAssignments expr fuel) (forAssignments expr' fuel') :=
    fun y => tracks_forAssignments (h.needs _) (h.tracks y) (Nat.le_of_lt hlt) hN
  refine .peek_bind_zero fun t _ => .fresh_bind fun id => .ite (fun _ => .pure) fun _ => ?_
  exact .bind_nil (fun y => (htracks y).any) (closes_forAssignments h hlt hN) (fun _ => .pure)
    fun _ => .pure trivial

omit h in
/-- A part of the header that is left out. -/
theorem takes_forClause {w : Word} (fuel : Nat) (kind : Kind) :
    Takes w.Says [] (forClause expr fuel kind w.text) := by
  refine .peek_bind_nil fun t ht => .bind_nil .fresh fun id _ => ?_
  rw [if_pos ht.2]
  exact .pure trivial

end Assignments

section Loops

variable {P : List Token → Prop} {expr expr' : Parser Node} {block block' : List String → Parser Node}
  (h : Repairs x N expr expr') (hblock : RepairsBlock x N block block')

include h hblock

/-- A loop with a header can be completed. -/
theorem closes_forLoop {fuel fuel' : Nat} (hlt : fuel < fuel') (hN : N ≤ fuel) :
    Closes x P S (N + 1) (forLoop expr block fuel) (forLoop expr' block' fuel') := by
  -- the words for what may be missing, from the end of the header backwards
  have htail : ∀ (t : Token) (init c step : Node), Takes S [.round, .stop] (do
      let _ ← Parser.expect .closing ")"
      let b ← block' ["end"]
      let _ ← expectKeyword "end"
      node .forLoop t [init, c, step, b]) := fun t init c step =>
    (Finishes.expect rfl rfl).bind (fun _ _ => hblock.takes_bind (by decide) (fun _ => takes_end) fun _ => id)
      fun _ _ => trivial
  have hstep : ∀ (t condToken : Token) (init e : Node), Takes S [.semicolon, .round, .stop] (do
      let c ← node .cond condToken [e]
      let _ ← Parser.expect .semi ";"
      let step ← forClause expr' fuel' .forStep ")"
      let _ ← Parser.expect .closing ")"
      let b ← block' ["end"]
      let _ ← expectKeyword "end"
      node .forLoop t [init, c, step, b]) := fun t condToken init e =>
    .bind_nil .node fun c _ => (Finishes.expect rfl rfl).bind (fun _ _ =>
      (takes_forClause (w := .round) fuel' .forStep).bind (fun step _ => htail t init c step) fun _ => id)
      fun _ _ => trivial
  have hcond : ∀ (t : Token) (init : Node), Takes S [.semicolon, .one, .semicolon, .round, .stop] (do
      let _ ← Parser.expect .semi ";"
      let condToken ← peek
      let e ← expr'
      let c ← node .cond condToken [e]
      let _ ← Parser.expect .semi ";"
      let step ← forClause expr' fuel' .forStep ")"
      let _ ← Parser.expect .closing ")"
      let b ← block' ["end"]
      let _ ← expectKeyword "end"
      node .forLoop t [init, c, step, b]) := fun t init =>
    (Finishes.expect rfl rfl).bind (fun _ _ => .peek_bind fun condToken _ =>
      h.finishes.bind (fun e _ => hstep t condToken init e) fun _ ht => .inl ht.1) fun _ _ => trivial
  refine .expectKeyword_bind fun t _ => ?_
  refine .andThen (fun _ => (Tracks.expect (by decide)).weak) (.expect (by decide)) fun _ => ?_
  refine .bind (fun y => tracks_forClause (h.needs _) (h.tracks y) (Nat.le_of_lt hlt) hN _ (by decide))
    (closes_forClause h hlt hN _ _) (fun init => ?_) (hcond t) fun _ ht => .inl ht.1
  refine .andThen (fun _ => (Tracks.expect (by decide)).weak) (.expect (by decide)) fun _ => ?_
  refine .peek_bind_zero fun condToken _ => .bind (fun y => (h.tracks y).any) h.closes.any (fun e => ?_)
    (hstep t condToken init) fun _ ht => .inl ht.1
  refine .node_bind fun c => .andThen (fun _ => (Tracks.expect (by decide)).weak) (.expect (by decide)) fun _ => ?_
  refine .bind (fun y => tracks_forClause (h.needs _) (h.tracks y) (Nat.le_of_lt hlt) hN _ (by decide))
    (closes_forClause h hlt hN _ _) (fun step => ?_) (htail t init c) fun _ => .of_closing rfl
  refine .andThen (fun _ => (Tracks.expect (by decide)).weak) (.expect (by decide)) fun _ => ?_
  exact hblock.closes_bind (by decide) (fun _ => closes_end) (fun _ => takes_end) fun _ => id

end Loops

/-! ## Functions

Parameters in brackets may be broken off behind the opening bracket or a comma, where line feeds have
no meaning. -/

section Functions

variable {P : List Token → Prop}

theorem takes_paramNames (fuel : Nat) : Takes Bound [.name] (paramNames (fuel + 1)) :=
  Finishes.expectName.bind (fun _ _ => .bind_nil .term fun p _ => takes_noComma [p] _) fun _ _ => trivial

/-- The names of parameters can be completed. -/
theorem closes_paramNames {fuel fuel' : Nat} (hlt : fuel < fuel') (hN : N ≤ fuel) :
    Closes x P Bound N (paramNames fuel) (paramNames fuel') := by
  induction fuel generalizing fuel' N P with
  | zero =>
    obtain rfl := Nat.le_zero.mp hN
    exact .none
  | succ fuel ih =>
    cases N with
    | zero => exact .none
    | succ n =>
      obtain ⟨fuel', rfl⟩ : ∃ m, fuel' = m + 2 := ⟨fuel' - 2, by omega⟩
      have htracks : ∀ y, Tracks y Any False n 1 (paramNames fuel) (paramNames (fuel' + 1)) :=
        fun y => tracks_paramNames (by omega) (by omega)
      -- behind a comma one more name is enough
      have htake : ∀ p : Node, Takes Bound [.name] (do return p :: (← paramNames (fuel' + 1))) :=
        fun p => (takes_paramNames fuel').bind (fun _ _ => .pure trivial) fun _ => id
      refine .andThen_taken (fun _ => .expectName) .expectName fun t => .term_bind fun p => ?_
      refine .peek_bind_zero fun after _ => .ite (fun _ => .pure) fun hcomma => ?_
      refine (Closes.skip_bind Any (fun l hl => ⟨after, hl.2, ?_, trivial⟩) ?_).weaken (Nat.le_succ n)
      · exact isNewline_of_kind (by rw [not_not.mp hcomma]; decide)
      · refine .skipNewlines_bind (by decide) ?_ (htake p)
        exact .bind_nil htracks (ih (by omega) (by omega)) (fun _ => .pure) fun _ => .pure trivial

/-- The parameters of a function can be completed. -/
theorem closes_params {fuel fuel' : Nat} (hlt : fuel < fuel') (hN : N ≤ fuel) :
    Closes x P Bound N (params fuel) (params fuel') := by
  have htracks : ∀ (P : List Token → Prop) y, Tracks y P False N 1 (paramNames fuel) (paramNames fuel') :=
    fun P y => tracks_paramNames (Nat.le_of_lt hlt) hN
  refine .peek_bind_zero fun t ht => .fresh_bind fun id => ?_
  -- the part from the last name on is the same with names and without
  have hclose : ∀ (P : List Token → Prop) (names : List Node), Closes x P Bound N
      (do
        skipNewlines
        let _ ← Parser.expect .closing ")"
        return Node.mk id .params t names)
      (do
        skipNewlines
        let _ ← Parser.expect .closing ")"
        return Node.mk id .params t names) := fun P names =>
    closes_closing (w := .round) rfl rfl (by decide) (fun _ => .pure) fun _ => .pure trivial
  have htake : ∀ names : List Node, Takes Bound [.round] (do
      skipNewlines
      let _ ← Parser.expect .closing ")"
      return Node.mk id .params t names) := fun names =>
    takes_closing rfl rfl fun _ => .pure trivial
  -- behind the opening bracket the closing one is enough
  have hempty : Takes Bound [.round] (do
      let names ← if (← peek).kind ≠ .closing then paramNames fuel' else pure []
      skipNewlines
      let _ ← Parser.expect .closing ")"
      return Node.mk id .params t names) := by
    refine .peek_bind fun after hafter => ?_
    have hkind : after.kind = .closing := hafter.1
    rw [if_neg (by rw [hkind]; decide), pure_bind]
    exact htake []
  refine .ite (fun hopening => ?_) fun _ => .ite (fun _ => ?_) fun _ => .pure
  · refine (Closes.skip_bind Any (fun l hl => ⟨t, hl.2, ?_, trivial⟩) ?_).weaken (Nat.le_succ N)
    · refine isNewline_of_kind fun hkind => ?_
      simp [Token.isOpening, hkind] at hopening
    · refine .skipNewlines_bind (w := .round) (W := []) (by decide) (.peek_bind_zero fun after _ => ?_) hempty
      exact .ite_bind (fun _ => .bind (htracks _) (closes_paramNames hlt hN) (hclose _) htake
        fun _ => .of_closing rfl) fun _ => hclose _ []
  · exact .bind_nil (htracks _) (closes_paramNames hlt hN) (fun _ => .pure) fun _ => .pure trivial

/-- A function can be completed. -/
theorem closes_funcDef {block block' : List String → Parser Node} (hblock : RepairsBlock x N block block')
    {fuel fuel' : Nat} (hlt : fuel < fuel') (hN : N ≤ fuel) (inBlock : Bool) :
    Closes x P S (N + 1) (funcDef block fuel inBlock) (funcDef block' fuel' inBlock) := by
  have htake : ∀ (t name : Token) (params b : Node), Takes S [.stop] (do
      let _ ← expectKeyword "end"
      let nameTerm ← term name
      node .funcDef t [nameTerm, params, b]) := fun t name params b =>
    (Finishes.expectKeyword rfl rfl).bind (fun _ _ => .bind_nil .term fun _ _ => .node) fun _ _ => trivial
  refine .expectKeyword_bind fun t ht => .ite (fun _ => .fail_bind ht) fun _ => ?_
  refine .andThen (fun _ => Tracks.expectName.weak) .expectName fun name => ?_
  refine .bind (W := [.newline, .stop]) (fun y => tracks_params (Nat.le_of_lt hlt) hN)
    (closes_params hlt hN) (fun params => ?_) (fun params => ?_) fun _ ht => .inl ht.1
  · refine hblock.closes_bind (by decide) (fun b => ?_) (htake t name params) fun _ => id
    exact .andThen (fun _ => .weak .expectKeyword) .expectKeyword fun _ => .term_bind fun _ => .node
  · exact hblock.takes_newline_bind (by decide) (htake t name params) fun _ => id

end Functions

/-! ## Statements that start with a name

The line feed at the end of the lines tells what such a statement is, so the look ahead never fails. -/

section Names

variable {P : List Token → Prop} {expr expr' : Parser Node} (h : Repairs x N expr expr')

include h

/-- A call without brackets can be completed. -/
theorem closes_command {fuel fuel' : Nat} (hlt : fuel < fuel') (hN : N ≤ fuel) (name : Token)
    (argued : Bool) (hP : ∀ l, P l → Starts l) :
    Closes x P Bound (N + 1) (command expr fuel name argued) (command expr' fuel' name argued) := by
  have hskip : ∀ l, P l → ∃ t, l[0]? = some t ∧ t.isNewline = false ∧ Any l.tail := by
    intro l hl
    obtain ⟨t, ht, hline⟩ := hP l hl
    exact ⟨t, ht, hline, trivial⟩
  refine .ite (fun _ => .skip_bind Any hskip ?_) fun _ => .skip_bind Any hskip ?_
  · refine .bind_nil (fun y => tracks_args (h.needs _) (h.tracks y) (Nat.le_of_lt hlt) hN name false)
      (closes_args h hlt hN name false) (fun args => ?_) fun args => ?_
    · exact .term_bind fun _ => .node_bind fun _ => .node
    · exact .bind_nil .term fun _ _ => .bind_nil .node fun _ _ => .node
  · exact .term_bind fun _ => .node_bind fun _ => .node_bind fun _ => .node

/-- A statement that starts with a name can be completed. -/
theorem closes_nameStmt {fuel fuel' : Nat} (hlt : fuel < fuel') (hN : N ≤ fuel) {name : Token}
    (hname : name.isName = true) :
    Closes x (fun l => P l ∧ l[0]? = some name) Bound (N + 1) (nameStmt expr fuel name)
      (nameStmt expr' fuel' name) := by
  have hline := isNewline_of_isName hname
  rw [nameStmt_eq, nameStmt_eq]
  refine .peek_bind (fun c hc hl => hc.length_lt hl.2 hline) fun ahead _ => .ite (fun _ => ?_) fun _ => ?_
  · exact closes_assignment h fun l hl => ⟨name, hl.1.2, hline⟩
  refine .ite (fun _ => ?_) fun _ => ?_
  · refine .skip_bind Any (fun l hl => ⟨name, hl.1.2, hline, trivial⟩) ?_
    exact .bind_nil (fun y => tracks_call (h.needs _) (h.tracks y) (Nat.le_of_lt hlt) hN name)
      (closes_call h hlt hN name) (fun _ => .node) fun _ => .node
  -- the token behind a sign is looked at too
  by_cases hsign : ahead.kind = .op ∧ (ahead.text = "-" ∨ ahead.text = "!")
  · -- the token behind a sign decides whether it starts an argument
    have hstarts : startsArgument name ahead = (do
        let after ← peek 2
        return ahead.line = name.line && ahead.col > name.col + name.text.utf8ByteSize &&
          after.line = ahead.line && after.col = ahead.col + 1) := by
      rw [startsArgument, hsign.1]
      exact if_pos hsign.2
    have hline' : ahead.isNewline = false := isNewline_of_kind (by rw [hsign.1]; decide)
    rw [hstarts, bind_assoc, bind_assoc]
    refine .peek_bind (fun c hc hl => hc.length_lt hl.2 hline') fun after _ => ?_
    rw [pure_bind, pure_bind]
    exact closes_command h hlt hN name _ fun l hl => ⟨name, hl.1.1.2, hline⟩
  · obtain ⟨argued, hargued⟩ := startsArgument_of_not_sign name hsign
    rw [hargued, pure_bind, pure_bind]
    exact closes_command h hlt hN name argued fun l hl => ⟨name, hl.1.2, hline⟩

end Names

/-! ## Programs

By induction on the fuel: a statement is completed with one that has more fuel, as the words may nest
deeper than the lines did. -/

/-- A statement can be completed, in every context. -/
theorem closes_stmt {fuel fuel' : Nat} (hlt : fuel < fuel') (ctx : Context) :
    Closes x Any Bound fuel (stmt fuel ctx) (stmt fuel' ctx) := by
  induction fuel generalizing fuel' ctx with
  | zero => exact .none
  | succ fuel ih =>
    obtain ⟨fuel', rfl⟩ : ∃ m, fuel' = m + 1 := ⟨fuel' - 1, by omega⟩
    have hN := Nat.le_succ fuel
    have hexpr : Repairs x fuel (expr (fuel + 1)) (expr (fuel' + 1)) := (repairs_expr hlt).weaken hN
    -- blocks are completed by induction on the fuel; a `break` in them depends on where they stand
    have hblock : ∀ ctx : Context, RepairsBlock x fuel (body (stmt fuel ctx) (fuel + 1))
        (body (stmt fuel' ctx) (fuel' + 1)) := by
      intro ctx
      obtain ⟨fuel', rfl⟩ : ∃ m, fuel' = m + 1 := ⟨fuel' - 1, by omega⟩
      have htracks : ∀ y, Tracks y Any False fuel 1 (stmt fuel ctx) (stmt (fuel' + 1) ctx) :=
        fun y => tracks_stmt (by omega) ctx
      exact ⟨fun _ => lapses_body _ _, fun y => tracks_body (htracks y) (Nat.le_of_lt hlt) hN,
        closes_body htracks (ih (by omega) ctx) hlt hN, fun stops => takes_body stops _ (takes_stmts stops _),
        fun stops => takes_body stops _ (takes_stmts_newline stops _)⟩
    have hstarts : ∀ {t : Token}, t.isNewline = false → ∀ l, Any l ∧ l[0]? = some t →
        ∃ u, l[0]? = some u ∧ u.isNewline = false ∧ Any l.tail :=
      fun hline l hl => ⟨_, hl.2, hline, trivial⟩
    refine .peek_bind_zero fun t ht => ?_
    cases hkind : t.kind with
    | pir =>
      have hline : t.isNewline = false := isNewline_of_kind (by rw [hkind]; decide)
      exact .skip_bind Any (hstarts hline) (.term_bind fun _ => .node)
    | global =>
      have hline : t.isNewline = false := isNewline_of_kind (by rw [hkind]; decide)
      refine .skip_bind Any (hstarts hline) ((Closes.next_bind (fun op hop _ => ?_)
        fun op _ _ _ hnewline => ?_).weaken hN)
      · refine .ite (fun _ => .fail_bind hop) fun _ => .term_bind fun _ => .term_bind fun _ => ?_
        exact closes_value hexpr (fun _ => .node) fun _ => .node
      · rw [if_pos (by simp [Token.isOp, kind_of_isNewline hnewline])]
        exact (refuses_fail hnewline).bind
    | ident =>
      have hline : t.isNewline = false := isNewline_of_kind (by rw [hkind]; decide)
      dsimp only
      split
      · exact closes_funcDef (hblock _) hlt hN ctx.inBlock
      · exact closes_ifStmt hexpr (hblock _) hlt hN
      · exact closes_unlessStmt hexpr (hblock _)
      · exact closes_whileLoop hexpr (hblock _)
      · exact closes_forLoop hexpr (hblock _) hlt hN
      · exact .skip_bind Any (hstarts hline) (.ite (fun _ => .node) fun _ => .fail ht)
      · refine .skip_bind Any (hstarts hline) (.peek_bind_zero fun after _ => .ite (fun _ => .node) fun _ => ?_)
        exact closes_value hexpr (fun _ => .node) fun _ => .node
      · refine .skip_bind Any (hstarts hline) ((Closes.next_bind (fun name hname _ => ?_)
          fun name _ _ _ hnewline => ?_).weaken hN)
        · exact .ite (fun _ => .fail_bind hname) fun _ => .term_bind fun _ => .node
        · rw [if_pos (by rw [kind_of_isNewline hnewline]; decide)]
          exact (refuses_fail hnewline).bind
      · exact .ite (fun hname => closes_nameStmt hexpr hlt hN hname) fun _ => .fail ht
    | _ => exact .fail ht

/-- A program can be completed, up to the end of input. -/
theorem closes_program {fuel fuel' : Nat} (hlt : fuel < fuel') :
    Closes x Any (fun t => t.kind = .eof) fuel (program fuel) (program fuel') := by
  have htracks : ∀ y, Tracks y Any False fuel 1 (stmt fuel {}) (stmt fuel' {}) :=
    fun y => tracks_stmt (Nat.le_of_lt hlt) {}
  refine .peek_bind_zero fun first _ => ?_
  exact .bind (fun y => tracks_stmtList (htracks y) (Nat.le_of_lt hlt) (Nat.le_refl fuel) [])
    (closes_stmtList htracks (closes_stmt hlt {}) hlt (Nat.le_refl fuel) []) (fun _ => .node)
    (fun _ => .node) fun t ht => endsBlock_of_eof ht []

end Parser

/-- If a parse fails at the end of some full lines, there are words that complete the program behind another
line feed. They may be in vain only because of a constant in an index. -/
theorem parseFrom_completed (x : FullLines) {e : SyntaxError}
    (h : parseFrom ⟨x.tokens, .ok (endToken x.tokens), 0⟩ = .error e) (he : e.token.kind = .eof) :
    ∃ words, ∀ newline tokens, newline.isNewline = true → Spelled words tokens →
      (∃ tree, parseFrom ⟨x.tokens ++ newline :: tokens, .ok (endToken (x.tokens ++ newline :: tokens)), 0⟩ =
        .ok tree) ∨
      ∃ e' what, parseFrom ⟨x.tokens ++ newline :: tokens, .ok (endToken (x.tokens ++ newline :: tokens)), 0⟩ =
        .error e' ∧ e'.fault = .indexLiteral what ∧ e'.token ∈ x.tokens := by
  have hne : x.tokens ≠ [] := by
    obtain ⟨front, newline, htokens, -⟩ := x.closed
    simp [htokens]
  have hwithin : x.Within ⟨x.tokens, .ok (endToken x.tokens), 0⟩ := ⟨List.suffix_refl _, hne, rfl⟩
  have hends : Parser.Ends (Parser.program (x.tokens.length + 1)) ⟨x.tokens, .ok (endToken x.tokens), 0⟩ := by
    unfold Parser.Ends
    unfold parseFrom at h
    cases hrun : (Parser.program (x.tokens.length + 1)).run ⟨x.tokens, .ok (endToken x.tokens), 0⟩ with
    | error e' =>
      rw [hrun] at h
      cases h
      exact he
    | ok r =>
      rw [hrun] at h
      cases h
  -- the words are found with some more fuel; the whole text then has still more
  obtain ⟨words, hwords⟩ := Parser.closes_program (Nat.lt_succ_self (x.tokens.length + 1)) _ hwithin trivial
    (Nat.lt_succ_self _) hends
  refine ⟨words, fun newline tokens hnewline hspelled => ?_⟩
  generalize hc' : (⟨x.tokens ++ newline :: tokens, .ok (endToken (x.tokens ++ newline :: tokens)), 0⟩ : Cursor) = c'
  have hending : c'.ending = .ok (endToken (x.tokens ++ newline :: tokens)) := by rw [← hc']
  have hbehind : Parser.Behind ⟨x.tokens, .ok (endToken x.tokens), 0⟩ c' (tokens ++ []) := by
    rw [← hc', List.append_nil]
    exact ⟨⟨newline, hnewline, rfl⟩, rfl⟩
  have hfuture : Future (fun t => t.kind = .eof) [] c'.ending := by
    rw [hending]
    refine ⟨⟨_, rfl, rfl⟩, fun t ht => ?_, ?_⟩
    · cases ht
    · rintro _ ⟨rfl⟩
      rfl
  have hle : x.tokens.length + 2 ≤ c'.rest.length + 1 := by
    rw [← hc', List.length_append, List.length_cons]
    omega
  have hdeep := Parser.deepens_program hle c' _ hending
  unfold parseFrom
  rcases hwords c' tokens [] hbehind hspelled hfuture with ⟨tree, c₁, hrun, -⟩ | ⟨e', what, hrun, hfault, hmem⟩
  · rw [hrun] at hdeep
    exact .inl ⟨tree, by rw [hdeep.1]; rfl⟩
  · rw [hrun] at hdeep
    refine .inr ⟨e', what, ?_, hfault, hmem⟩
    rw [hdeep.resolve_right (by rw [hfault]; exact nofun)]
    rfl

end ScriptPir
