import ScriptPir.Proofs.Legs

/-!
# What the walk of a statement does

`visits_stmt` — walking a statement writes the lines of its layout and takes the labels of its span, from
every state that can enter it. The conditions, bodies and further arms of a construct are kept under
way, and all of them are placed when it is left. Its legs are passed in the order of the walk.

The induction is on the shape of statements and not on nodes, so each construct is proved from its parts
by one theorem (`visits_branch`, `visits_while`, `visits_for`, …). Each of them enters the node, walks
the children with what is assumed of them, and exits in the state that comes of it. `Inside` is what a
statement may assume about the loop around it.
-/

namespace ScriptPir

open Shape

/-- A state inside a loop with a given exit, or outside all loops, and outside all statements that are
calls. -/
structure Inside (exit : Option Label) (s : Lowering) : Prop where
  call : s.stmtCall = -1
  loops : s.labels.loops.head? = exit

/-- Passages stay inside the loop, since they leave the stack of exits as it was. -/
theorem Inside.passage {exit : Option Label} {s s' : Lowering} {ids : List Int} {lines : List Line}
    {labels : Nat} (h : Inside exit s) (hp : Passage s ids lines labels s') : Inside exit s' := by
  refine ⟨?_, ?_⟩
  · rw [hp.stmtCall, h.call]
  · rw [hp.loops, h.loops]

section Parts

variable {E : Emission} {s s₁ : Lowering} {ids : List Int} {lines : List Line} {labels : Nat}
  {kept : List (Int × List Line)}

/-- A value may be recorded for a node of the tree, whatever is kept. -/
theorem Stage.setValue (h : Stage s ids lines labels kept s₁) {id : Int} (hid : id ∈ ids)
    (v : Value) : Stage s ids lines labels kept { s₁ with values := s₁.values.insert id v } := by
  refine ⟨⟨h.passage.buffers, h.passage.scopes, h.passage.frames, h.passage.loops, h.passage.next,
    h.passage.stmtCall, fun i hi => ?_⟩, ⟨h.holds.nodup, h.holds.free, h.holds.lines, h.holds.rest⟩,
    h.within⟩
  have hne : i ≠ id := fun heq => hi (heq ▸ hid)
  rw [value_insert, Function.update_of_ne hne]
  exact h.passage.value i hi

/-- The walk of an expression writes its lines and finds its value. -/
theorem visits_expr_emitted (e : Expr) (hindexed : e.Indexed) (hready : Ready e.node.ids s)
    (hE : E.Agrees [e.node] s) :
    ∃ s', Visits e.node s s' ∧ Writes s e.node.ids (instrs (E.code e.id)) 0 s' ∧
      s'.value e.node.id = some (E.value e.id) ∧ Threads E [.value e] s s' := by
  obtain ⟨s', hvisits, hcomputes⟩ := visits_expr e hindexed hready
  obtain ⟨hcode, hvalue⟩ := hE.at hready.buffers hvisits (plain_lowered e _) hcomputes
  rw [hcode, hvalue, Expr.node_id]
  exact ⟨s', hvisits, ⟨hcomputes.passage, hcomputes.fragment⟩, hcomputes.value,
    threads_expr hindexed hready hE hvisits hcomputes⟩

/-- The instructions of a condition are kept, and its value is that of its expression. -/
theorem visits_cond (c : Cond) (hindexed : c.expr.Indexed) (hready : Ready c.node.ids s)
    (hE : E.Agrees [c.node] s) :
    ∃ s', Visits c.node s s' ∧ Stage s c.node.ids [] 0 [(c.id, instrs (E.code c.expr.id))] s' ∧
      s'.value c.id = some (E.value c.expr.id) ∧ Threads E [.value c.expr] s s' := by
  have hexpr : Ready c.expr.node.ids s := hready.children.mem (by simp)
  have hinside : E.Agrees [c.expr.node] { s with buffers := s.buffers.push } := hE.inside rfl
  obtain ⟨s₁, hvisits, hwrites, hvalue, hthreads⟩ :=
    visits_expr_emitted c.expr hindexed hexpr.push hinside
  have hsub : c.expr.node.ids ⊆ c.node.ids := fun i hi =>
    List.mem_cons_of_mem _ (List.mem_append_left _ hi)
  have hstage := (Stage.of_writes (hwrites.mono hsub)).stash (n := c.node)
    (hready.fragment _ List.mem_cons_self) List.mem_cons_self
  -- the exit keeps the code as a fragment and hands the value on
  have hexit : (Lower.exit c.node).run s₁ = .ok ((), { s.stashed s₁ c.node (instrs (E.code c.expr.id))
      with values := s₁.values.insert c.id (E.value c.expr.id) }) := by
    refine (Lower.run_bind_of_ok (run_stash hwrites.passage c.node)).trans ?_
    refine (Lower.run_bind_of_ok (Lower.run_child (i := 0) rfl c.expr.node_ne_absent _)).trans ?_
    exact Lower.run_bind_of_ok (Lower.run_valueOf hvalue)
  refine ⟨_, .mk' (.other rfl rfl) rfl (.cons hvisits (.nil s₁)) hexit,
    hstage.setValue List.mem_cons_self _, ?_, .node rfl rfl hthreads hexit⟩
  have hset := value_insert (s.stashed s₁ c.node (instrs (E.code c.expr.id))) c.id
    (E.value c.expr.id)
  exact (congrFun hset c.id).trans (Function.update_self ..)

/-- The walk of a simple statement writes its lines. -/
theorem visits_simple_emitted (x : Simple) (hindexed : x.Indexed) (hready : Ready x.node.ids s)
    (hcall : s.stmtCall = -1) (hE : E.Agrees [x.node] s) :
    ∃ s', Visits x.node s s' ∧ Writes s x.node.ids (instrs (E.code x.node.id)) 0 s' ∧
      Threads E [.simple x] s s' := by
  obtain ⟨s', hvisits, hperforms, hdefined⟩ := visits_simple x hindexed hready hcall
  have hthreads := threads_simple hindexed hready hE hvisits hperforms hdefined
  refine ⟨s', hvisits, ?_, hthreads⟩
  rw [hthreads.emitted.1.1]
  exact hperforms.writes

/-- The walk of some assignments writes the lines of each of them, in their order. -/
theorem visits_assignments (as : List Assignment) (hindexed : ∀ a ∈ as, a.Indexed) {s : Lowering}
    (hready : Ready (Node.idsAll (as.map Assignment.node)) s) (hcall : s.stmtCall = -1)
    (hE : E.Agrees (as.map Assignment.node) s) :
    ∃ s', VisitsAll (as.map Assignment.node) s s' ∧
      Writes s (Node.idsAll (as.map Assignment.node))
        (instrs (as.flatMap fun a => E.code a.node.id)) 0 s' ∧
      Threads E (as.map fun a => .simple (.assignment a)) s s' := by
  induction as generalizing s with
  | nil => exact ⟨s, .nil s, .refl s, .refl E s⟩
  | cons a as ih =>
    obtain ⟨s₁, hvisits₁, hwrites₁, hthreads₁⟩ := visits_simple_emitted (.assignment a)
      (hindexed a List.mem_cons_self) (hready.mem List.mem_cons_self) hcall hE.first
    have hcall₁ : s₁.stmtCall = -1 := hwrites₁.passage.stmtCall.trans hcall
    obtain ⟨s₂, hvisits₂, hwrites₂, hthreads₂⟩ := ih
      (fun b hb => hindexed b (List.mem_cons_of_mem _ hb))
      (hready.after (.of_writes hwrites₁)) hcall₁ (hE.after hvisits₁)
    refine ⟨s₂, .cons hvisits₁ hvisits₂, ?_, hthreads₁.trans hthreads₂⟩
    have hwrites := hwrites₁.trans hwrites₂
    simp only [instrs, ← List.map_append] at hwrites
    exact hwrites

/-- The walk of a clause of a loop header keeps the lines of its assignments as its fragment. -/
theorem visits_clause (c : Clause) {kind : Kind} (hkind : kind = .forInit ∨ kind = .forStep)
    (hindexed : c.Indexed) (hready : Ready (c.node kind).ids s) (hcall : s.stmtCall = -1)
    (hE : E.Agrees [c.node kind] s) :
    ∃ s', Visits (c.node kind) s s' ∧
      Stage s (c.node kind).ids [] 0 [(c.tag.id, instrs (c.code E))] s' ∧
      Threads E c.legs s s' := by
  -- both kinds of clauses are entered and left in the same way
  have henter : (Lower.enter (c.node kind)).run s = .ok ((), { s with buffers := s.buffers.push }) := by
    rcases hkind with rfl | rfl <;> rfl
  have hexit : Lower.exit (c.node kind) = Lower.stash (c.node kind) := by
    rcases hkind with rfl | rfl <;> rfl
  have hother : (c.node kind).kind.isExpr = false ∧ (c.node kind).kind.isSimple = false ∧
      kind.isControl = true := by
    rcases hkind with rfl | rfl <;> exact ⟨rfl, rfl, rfl⟩
  obtain ⟨s₁, hvisits, hwrites, hthreads⟩ :=
    visits_assignments c.assignments hindexed hready.children.push hcall (hE.inside henter)
  have hstage := (Stage.of_writes (hwrites.mono (List.subset_cons_self ..))).stash
    (n := c.node kind) (hready.fragment _ List.mem_cons_self) List.mem_cons_self
  have hrun := run_stash hwrites.passage (c.node kind)
  rw [← hexit] at hrun
  exact ⟨_, .mk' (.other hother.1 hother.2.1) henter hvisits hrun, hstage,
    .node hother.2.2 henter hthreads hrun⟩

/-- A block agrees with an emission as its nodes do, since its own node writes nothing. -/
theorem Emission.Agrees.block {tags : BlockTags} {nodes : List Node}
    (h : E.Agrees [tags.node nodes] s) : E.Agrees nodes { s with buffers := s.buffers.push } := by
  have henter : (Lower.enter (tags.node nodes)).run s =
      .ok ((), { s with buffers := s.buffers.push }) := rfl
  exact (h.inside henter).inside rfl

/-- A state that can enter a block can enter its nodes, with a new buffer on the stack. -/
theorem Ready.block {tags : BlockTags} {nodes : List Node} (h : Ready (tags.node nodes).ids s) :
    Ready (Node.idsAll nodes) { s with buffers := s.buffers.push } := by
  have hlist := h.children.push.mem List.mem_cons_self
  exact hlist.children

/-- The walk of a block keeps what its nodes write as the fragment of the block. -/
theorem visits_block {tags : BlockTags} {nodes : List Node} {legs : List Leg}
    (hready : Ready (tags.node nodes).ids s)
    (hvisits : VisitsAll nodes { s with buffers := s.buffers.push } s₁)
    (hwrites : Writes { s with buffers := s.buffers.push } (Node.idsAll nodes) lines labels s₁)
    (hthreads : Threads E legs { s with buffers := s.buffers.push } s₁) :
    ∃ s', Visits (tags.node nodes) s s' ∧
      Stage s (tags.node nodes).ids [] labels [(tags.body.id, lines)] s' ∧
      Threads E legs s s' := by
  have hsub : Node.idsAll nodes ⊆ (tags.node nodes).ids := by
    intro i hi
    refine List.mem_cons_of_mem _ (List.mem_append_left _ (List.mem_cons_of_mem _ hi))
  have hstage := (Stage.of_writes (hwrites.mono hsub)).stash (n := tags.node nodes)
    (hready.fragment _ List.mem_cons_self) List.mem_cons_self
  have hlist : Visits (.mk tags.list.id .stmtList tags.list.token nodes)
      { s with buffers := s.buffers.push } s₁ := .mk' (.other rfl rfl) rfl hvisits rfl
  have hexit : (Lower.exit (tags.node nodes)).run s₁ =
      .ok ((), s.stashed s₁ (tags.node nodes) lines) := run_stash hwrites.passage _
  exact ⟨_, .mk' (.other rfl rfl) rfl (.cons hlist (.nil s₁)) hexit, hstage,
    .node rfl rfl hthreads hexit⟩

end Parts

/-! ## Leaving a branch or loop

These take fragments of the table and place them. The lines that come of it are those of the layout,
with the labels of the frame. -/

section Exits

variable {E : Emission} {s s₁ : Lowering} {ids : List Int} {lines body step : List Line}
  {labels : Nat} {kept before : List (Int × List Line)} {cond : Cond} {n : Node}

/-- An arm places its condition and its body, with a jump over the body. -/
theorem reaches_arm (hb : s.buffers.stack ≠ []) (negated : Bool) (f : Frame Label)
    (h : Stage s ids lines labels
      ((cond.id, instrs (E.code cond.expr.id)) :: (n.id, body) :: kept) s₁)
    (hvalue : s₁.value cond.id = some (E.value cond.expr.id)) :
    (Lower.arm negated f cond.node n).Reaches s₁
      (Stage s ids (lines ++ armLines E negated cond f.onTrue f.onFalse f.finish body) labels kept) := by
  obtain ⟨kind, onTrue, onFalse, finish⟩ := f
  refine .bind (Lower.run_valueOf (n := cond.node) hvalue) ?_
  refine Stage.reaches_place (n := cond.node) h hb fun s₂ h₂ => ?_
  refine .then (h₂.reaches_emit hb _) fun s₃ h₃ => ?_
  refine .then (h₃.reaches_emit hb _) fun s₄ h₄ => ?_
  refine .then (h₄.reaches_emitLabel hb _) fun s₅ h₅ => ?_
  refine Stage.reaches_place h₅ hb fun s₆ h₆ => ?_
  -- only an arm with others behind it jumps to the end
  cases finish with
  | none =>
    refine (h₆.reaches_emitLabel hb onFalse).mono fun s₇ h₇ => ?_
    simpa [armLines] using h₇
  | some finish =>
    refine .then (h₆.reaches_emit hb (.jump finish)) fun s₇ h₇ => ?_
    refine (h₇.reaches_emitLabel hb onFalse).mono fun s₈ h₈ => ?_
    simpa [armLines] using h₈

/-- A loop is placed, with what follows its body in every round. -/
theorem reaches_loop (hb : s.buffers.stack ≠ []) (f : Frame Label)
    (h : Stage s ids lines labels
      [(cond.id, instrs (E.code cond.expr.id)), (n.id, body)] s₁)
    (hvalue : s₁.value cond.id = some (E.value cond.expr.id)) :
    (Lower.loop f cond.node n step.toArray).Reaches s₁
      (Stage s ids (lines ++ loopLines E cond f.onTrue f.onFalse body step) labels []) := by
  refine .bind (Lower.run_valueOf (n := cond.node) hvalue) ?_
  refine .then (h.reaches_emitLabel hb _) fun s₂ h₂ => ?_
  refine Stage.reaches_place (n := cond.node) h₂ hb fun s₃ h₃ => ?_
  refine .then (h₃.reaches_emit hb _) fun s₄ h₄ => ?_
  refine Stage.reaches_place h₄ hb fun s₅ h₅ => ?_
  refine .then (h₅.reaches_splice hb step) fun s₆ h₆ => ?_
  refine .then (h₆.reaches_emit hb _) fun s₇ h₇ => ?_
  refine (h₇.reaches_emitLabel hb _).mono fun s₈ h₈ => ?_
  simpa [loopLines] using h₈

end Exits

/-! ## Constructs

For each construct it is assumed that its blocks are lowered (`LowersStmts`, `LowersArms`). The
induction that removes this assumption comes last, so every construct is proved by itself. -/

/-- Statements are lowered to their lines, wherever they can be entered. -/
def LowersStmts (E : Emission) (exit : Option Label) (b : Stmts) : Prop :=
  ∀ s, Ready (Node.idsAll b.nodes) s → Inside exit s → E.Agrees b.nodes s →
    ∃ s', VisitsAll b.nodes s s' ∧
      Writes s (Node.idsAll b.nodes) (b.lines E exit s.labels.next) b.span s' ∧
      Threads E b.legs s s'

/-- The fragments kept for the further arms of a branch. -/
def Shape.Arms.kept (E : Emission) (exit finish : Option Label) : Arms → Nat → List (Int × List Line)
  | .none, _ => []
  | .last tag _ body, next => [(tag.id, body.lines E exit next)]
  | .elsif tag cond _ body rest, next =>
    (tag.id, armLines E false cond ⟨next⟩ ⟨next + 1⟩ finish (body.lines E exit (next + 2))) ::
      rest.kept E exit finish (next + 2 + body.span)

/-- Each further arm has its own fragment. -/
theorem Shape.Arms.kept_ids (E : Emission) (exit finish : Option Label) :
    (a : Arms) → (next : Nat) → a.nodes.map Node.id = (a.kept E exit finish next).map Prod.fst
  | .none, _ => rfl
  | .last .., _ => rfl
  | .elsif tag _ _ body rest, next =>
    congrArg (tag.id :: ·) (rest.kept_ids E exit finish (next + 2 + body.span))

/-- The fragments of further arms are the lines of their layout, one arm behind the other. -/
theorem Shape.Arms.kept_lines (E : Emission) (exit finish : Option Label) :
    (a : Arms) → (next : Nat) →
      (a.kept E exit finish next).flatMap Prod.snd = a.lines E exit finish next
  | .none, _ => by rw [Arms.kept, Arms.lines, List.flatMap_nil]
  | .last .., _ => by simp [Arms.kept, Arms.lines]
  | .elsif .., _ => by rw [Arms.kept, Arms.lines, List.flatMap_cons, Arms.kept_lines]

/-- Further arms are kept, wherever they can be entered. All of them end at the same label. -/
def LowersArms (E : Emission) (exit : Option Label) (a : Arms) : Prop :=
  ∀ s f frames, Ready (Node.idsAll a.nodes) s → Inside exit s → E.Agrees a.nodes s →
    s.labels.frames = f :: frames → (a.nodes ≠ [] → ∃ finish, f.finish = some finish) →
    ∃ s', VisitsAll a.nodes s s' ∧
      Stage s (Node.idsAll a.nodes) [] a.span (a.kept E exit f.finish s.labels.next) s' ∧
      Threads E a.legs s s'

section Constructs

variable {E : Emission} {exit : Option Label} {s : Lowering} {cond : Cond} {tags : BlockTags}
  {body : Stmts}

/-- The walk of a body keeps its lines as the fragment of the body. -/
theorem visits_body (hbody : LowersStmts E exit body) (hready : Ready (tags.node body.nodes).ids s)
    (hinside : Inside exit s) (hE : E.Agrees [tags.node body.nodes] s) :
    ∃ s', Visits (tags.node body.nodes) s s' ∧
      Stage s (tags.node body.nodes).ids [] body.span
        [(tags.body.id, body.lines E exit s.labels.next)] s' ∧
      Threads E body.legs s s' := by
  have hpushed : Inside exit { s with buffers := s.buffers.push } := ⟨hinside.call, hinside.loops⟩
  obtain ⟨s₁, hvisits, hwrites, hthreads⟩ := hbody _ hready.block hpushed hE.block
  exact visits_block hready hvisits hwrites hthreads

/-- The condition and the body of an arm or a loop are kept. -/
theorem visits_condBody {ns : List Node} (hbody : LowersStmts E exit body)
    (hindexed : cond.expr.Indexed)
    (hready : Ready (Node.idsAll (cond.node :: tags.node body.nodes :: ns)) s)
    (hinside : Inside exit s) (hE : E.Agrees (cond.node :: tags.node body.nodes :: ns) s) :
    ∃ s₁ s₂, Visits cond.node s s₁ ∧ Visits (tags.node body.nodes) s₁ s₂ ∧
      Stage s (cond.node.ids ++ (tags.node body.nodes).ids) [] body.span
        [(cond.id, instrs (E.code cond.expr.id)), (tags.body.id, body.lines E exit s.labels.next)] s₂ ∧
      s₂.value cond.id = some (E.value cond.expr.id) ∧ Ready (Node.idsAll ns) s₂ ∧ E.Agrees ns s₂ ∧
      Threads E (.value cond.expr :: body.legs) s s₂ := by
  obtain ⟨s₁, hvisits₁, hstage₁, hvalue, hthreads₁⟩ :=
    visits_cond cond hindexed (hready.mem List.mem_cons_self) hE.first
  have hready₁ := hready.after hstage₁
  have hE₁ := hE.after hvisits₁
  obtain ⟨s₂, hvisits₂, hstage₂, hthreads₂⟩ := visits_body hbody (hready₁.mem List.mem_cons_self)
    (hinside.passage hstage₁.passage) hE₁.first
  rw [hstage₁.passage.next] at hstage₂
  have hstage := hstage₁.trans hstage₂
  rw [Nat.zero_add] at hstage
  refine ⟨s₁, s₂, hvisits₁, hvisits₂, hstage, ?_, hready₁.after hstage₂, hE₁.after hvisits₂,
    hthreads₁.trans hthreads₂⟩
  -- the body leaves the value of the condition alone
  rw [hstage₂.passage.value, hvalue]
  intro hmem
  have hdisjoint := (List.nodup_append.mp hready.nodup).2.2
  exact hdisjoint cond.id List.mem_cons_self _ (List.mem_append_left _ hmem) rfl

/-- The state in which a construct was entered: it has taken labels, and stacked its frame and the exit
of a loop. -/
def Lowering.framed (s : Lowering) (own : Nat) (f : Frame Label) (exits : List Label) : Lowering :=
  { s with labels := ⟨s.labels.next + own, f :: s.labels.frames, exits ++ s.labels.loops⟩ }

/-- A state stays ready as frames and exits are stacked and labels are taken. -/
theorem Ready.framed {ids : List Int} (h : Ready ids s) (own : Nat) (f : Frame Label)
    (exits : List Label) : Ready ids (s.framed own f exits) :=
  ⟨h.buffers, h.scopes, h.nodup, h.fragment, h.stmtCall⟩

/-- Behind a passage the frame that was stacked in front of it is on top. -/
theorem run_popFrame_of_framed {own labels : Nat} {f : Frame Label} {exits : List Label}
    {ids : List Int} {lines : List Line} {s₁ : Lowering}
    (h : Passage (s.framed own f exits) ids lines labels s₁) :
    Lower.popFrame.run s₁ =
      .ok (f, { s₁ with labels := { s₁.labels with frames := s.labels.frames } }) :=
  Lower.run_popFrame h.frames

/-- Once its frame and exit are unstacked, only the labels that a construct took are missing. -/
theorem Stage.unframed {own labels : Nat} {f : Frame Label} {exits : List Label} {ids : List Int}
    {lines : List Line} {kept : List (Int × List Line)} {s₁ : Lowering} {L : Labels Label}
    (h : Stage (s.framed own f exits) ids lines labels kept s₁) (hframes : L.frames = s.labels.frames)
    (hloops : L.loops = s.labels.loops) (hnext : L.next = s₁.labels.next) :
    Stage s ids lines (own + labels) kept { s₁ with labels := L } := by
  refine h.relabel hframes hloops ?_
  have htaken : s₁.labels.next = s.labels.next + own + labels := h.passage.next
  omega

/-- A branch takes its labels when it is entered. -/
theorem run_enterBranch {n : Node} {arms : Arms}
    (hlength : n.children.length = 2 + arms.nodes.length) (s : Lowering) :
    (Lower.enterBranch n).run s = .ok ((), s.framed arms.own
      ⟨n.kind, ⟨s.labels.next⟩, ⟨s.labels.next + 1⟩, arms.finish s.labels.next⟩ []) := by
  -- a branch has a label at its end if it has a third child
  cases arms with
  | none =>
    have hshort : ¬n.children.length > 2 := by
      rw [hlength]
      decide
    simp only [Lower.enterBranch, if_neg hshort]
    rfl
  | last tag tags body =>
    have hlong : n.children.length > 2 := by
      rw [hlength]
      exact Nat.lt_add_of_pos_right Nat.one_pos
    simp only [Lower.enterBranch, if_pos hlong]
    rfl
  | elsif tag cond tags body rest =>
    have hlong : n.children.length > 2 := by
      rw [hlength]
      exact Nat.lt_add_of_pos_right (Nat.succ_pos _)
    simp only [Lower.enterBranch, if_pos hlong]
    rfl

/-- A branch with further arms has a label at its end. -/
theorem Shape.Arms.exists_finish (a : Arms) (next : Nat) (h : a.nodes ≠ []) :
    ∃ finish, a.finish next = some finish := by
  cases a with
  | none => exact absurd rfl h
  | last => exact ⟨_, rfl⟩
  | elsif => exact ⟨_, rfl⟩

/-- A branch that is left places its own arm and then the further ones, with the label of its end behind
them if it has one. -/
theorem reaches_exitBranch {own labels : Nat} {f : Frame Label} {ids : List Int} {s₁ : Lowering}
    {id : Int} {kind : Kind} {token : Token} {nodes armNodes : List Node}
    {lines : List Line} {kept : List (Int × List Line)} (hb : s.buffers.stack ≠ [])
    (hvalue : s₁.value cond.id = some (E.value cond.expr.id))
    (harms : armNodes.map Node.id = kept.map Prod.fst)
    (h : Stage (s.framed own f []) ids [] labels
      ((cond.id, instrs (E.code cond.expr.id)) :: (tags.body.id, lines) :: kept) s₁) :
    (Lower.exitBranch (.mk id kind token (cond.node :: tags.node nodes :: armNodes))).Reaches s₁
      (Stage s ids (armLines E (decide (kind = .unlessStmt)) cond f.onTrue f.onFalse f.finish lines ++
        (kept.flatMap Prod.snd ++ f.finish.toList.map .label)) (own + labels) []) := by
  -- the frame is unstacked first, so what follows is as before the branch
  have hstage := h.unframed (L := { s₁.labels with frames := s.labels.frames }) rfl h.passage.loops rfl
  refine .bind (run_popFrame_of_framed h.passage) ?_
  refine .bind (Lower.run_child (i := 0) (c := cond.node) rfl nofun _) ?_
  refine .bind (Lower.run_child (i := 1) (c := tags.node nodes) rfl nofun _) ?_
  refine .then (reaches_arm (n := tags.node nodes) hb (decide (kind = .unlessStmt)) f hstage
    hvalue) fun s₂ h₂ => ?_
  refine .then (h₂.reaches_placeAll hb harms) fun s₃ h₃ => ?_
  rw [List.nil_append] at h₃
  cases hfinish : f.finish with
  | none =>
    rw [hfinish] at h₃
    refine ⟨s₃, rfl, ?_⟩
    simpa using h₃
  | some finish =>
    rw [hfinish] at h₃
    refine (h₃.reaches_emitLabel hb finish).mono fun s₄ h₄ => ?_
    simpa using h₄

/-- The walk of a branch, negated or not, writes its layout. -/
theorem visits_branch {tag : Tag} {kind : Kind} {negated : Bool} {arms : Arms}
    (hkind : (kind = .ifStmt ∧ negated = false) ∨ (kind = .unlessStmt ∧ negated = true))
    (hbody : LowersStmts E exit body) (harms : LowersArms E exit arms) (hindexed : cond.expr.Indexed)
    (hready : Ready (Node.mk tag.id kind tag.token
      (cond.node :: tags.node body.nodes :: arms.nodes)).ids s) (hinside : Inside exit s)
    (hE : E.Agrees [.mk tag.id kind tag.token (cond.node :: tags.node body.nodes :: arms.nodes)] s) :
    ∃ s', Visits (.mk tag.id kind tag.token (cond.node :: tags.node body.nodes :: arms.nodes)) s s' ∧
      Writes s (Node.mk tag.id kind tag.token (cond.node :: tags.node body.nodes :: arms.nodes)).ids
        ((Stmt.branch tag negated cond tags body arms).lines E exit s.labels.next)
        (Stmt.branch tag negated cond tags body arms).span s' ∧
      Threads E (Stmt.branch tag negated cond tags body arms).legs s s' := by
  obtain ⟨n, hn⟩ : ∃ n, n = Node.mk tag.id kind tag.token
    (cond.node :: tags.node body.nodes :: arms.nodes) := ⟨_, rfl⟩
  have hfits : Fits n s := by
    rw [hn]
    refine .other ?_ ?_
    all_goals rcases hkind with ⟨rfl, -⟩ | ⟨rfl, -⟩ <;> rfl
  have hcontrol : kind.isControl = true := by
    rcases hkind with ⟨rfl, -⟩ | ⟨rfl, -⟩ <;> rfl
  have henterEq : Lower.enter n = Lower.enterBranch n := by
    rw [hn]
    rcases hkind with ⟨rfl, -⟩ | ⟨rfl, -⟩ <;> rfl
  have hexitEq : Lower.exit n = Lower.exitBranch n := by
    rw [hn]
    rcases hkind with ⟨rfl, -⟩ | ⟨rfl, -⟩ <;> rfl
  have hnegated : decide (kind = .unlessStmt) = negated := by
    rcases hkind with ⟨rfl, rfl⟩ | ⟨rfl, rfl⟩ <;> rfl
  have hlength : n.children.length = 2 + arms.nodes.length := by
    rw [hn]
    exact Nat.add_comm _ 2
  have henter := run_enterBranch hlength s
  rw [← henterEq] at henter
  subst hn
  have hinside₁ : Inside exit (s.framed arms.own
      ⟨kind, ⟨s.labels.next⟩, ⟨s.labels.next + 1⟩, arms.finish s.labels.next⟩ []) :=
    ⟨hinside.call, hinside.loops⟩
  obtain ⟨s₂, s₃, hvisits₂, hvisits₃, hstage₃, hvalue, hready₃, hE₃, hthreads₃⟩ :=
    visits_condBody hbody hindexed (hready.children.framed ..) hinside₁ (hE.inside henter)
  obtain ⟨s₄, hvisits₄, hstage₄, hthreads₄⟩ :=
    harms s₃ _ _ hready₃ (hinside₁.passage hstage₃.passage) hE₃ hstage₃.passage.frames
      (arms.exists_finish _)
  -- the arms leave the value of the condition alone
  have hvalue₄ : s₄.value cond.id = some (E.value cond.expr.id) := by
    rw [hstage₄.passage.value, hvalue]
    intro hmem
    have hdisjoint := (List.nodup_append.mp hready.children.nodup).2.2
    exact hdisjoint cond.id List.mem_cons_self _ (List.mem_append_right _ hmem) rfl
  obtain ⟨s₅, hexit, hstage⟩ := reaches_exitBranch hready.buffers hvalue₄ (arms.kept_ids ..)
    (hstage₃.trans hstage₄)
  rw [← hexitEq] at hexit
  refine ⟨s₅, .mk' hfits henter (.cons hvisits₂ (.cons hvisits₃ hvisits₄)) hexit, ?_,
    .node hcontrol henter (hthreads₃.trans hthreads₄) hexit⟩
  have hnext : s₃.labels.next = s.labels.next + arms.own + body.span := hstage₃.passage.next
  have hwrites := hstage.writes
  rw [arms.kept_lines, hnegated, hnext, ← Nat.add_assoc] at hwrites
  refine hwrites.mono fun i hi => ?_
  simpa [Node.ids, Node.idsAll] using Or.inr hi

/-- A further arm shares the last label of its branch, and is kept as a whole. -/
theorem visits_elsif {tag : Tag} {f : Frame Label} {frames : List (Frame Label)} {finish : Label}
    (hbody : LowersStmts E exit body) (hindexed : cond.expr.Indexed)
    (hready : Ready (Node.mk tag.id .elsifArm tag.token [cond.node, tags.node body.nodes]).ids s)
    (hinside : Inside exit s)
    (hE : E.Agrees [.mk tag.id .elsifArm tag.token [cond.node, tags.node body.nodes]] s)
    (hframes : s.labels.frames = f :: frames) (hfinish : f.finish = some finish) :
    ∃ s', Visits (.mk tag.id .elsifArm tag.token [cond.node, tags.node body.nodes]) s s' ∧
      Stage s (Node.mk tag.id .elsifArm tag.token [cond.node, tags.node body.nodes]).ids []
        (2 + body.span)
        [(tag.id, armLines E false cond ⟨s.labels.next⟩ ⟨s.labels.next + 1⟩ (some finish)
          (body.lines E exit (s.labels.next + 2)))] s' ∧
      Threads E (.value cond.expr :: body.legs) s s' := by
  let own : Frame Label := ⟨.elsifArm, ⟨s.labels.next⟩, ⟨s.labels.next + 1⟩, some finish⟩
  let pushed : Lowering := { s with buffers := s.buffers.push }
  -- the end of the whole branch is that of the frame below
  have henter : (Lower.enter (.mk tag.id .elsifArm tag.token [cond.node, tags.node body.nodes])).run s =
      .ok ((), pushed.framed 2 own []) := by
    refine (Lower.run_bind_of_ok (Lower.run_topFrame hframes)).trans ?_
    rw [hfinish]
    rfl
  have hinside₁ : Inside exit (pushed.framed 2 own []) := ⟨hinside.call, hinside.loops⟩
  obtain ⟨s₂, s₃, hvisits₂, hvisits₃, hstage₃, hvalue, -, -, hthreads₃⟩ :=
    visits_condBody hbody hindexed (hready.children.push.framed ..) hinside₁ (hE.inside henter)
  have hstage := hstage₃.unframed (L := { s₃.labels with frames := s.labels.frames }) rfl
    hstage₃.passage.loops rfl
  obtain ⟨s₄, harm, hstage₄⟩ := reaches_arm (n := tags.node body.nodes) hready.push.buffers false own
    hstage hvalue
  have hids : cond.node.ids ++ (tags.node body.nodes).ids ⊆
      (Node.mk tag.id .elsifArm tag.token [cond.node, tags.node body.nodes]).ids := by
    intro i hi
    simpa [Node.ids, Node.idsAll] using Or.inr hi
  -- what the arm has written becomes its own fragment
  have hkept := (hstage₄.mono hids).stash
    (n := .mk tag.id .elsifArm tag.token [cond.node, tags.node body.nodes])
    (hready.fragment _ List.mem_cons_self) List.mem_cons_self
  have hexit : (Lower.exit (.mk tag.id .elsifArm tag.token [cond.node, tags.node body.nodes])).run s₃ =
      .ok ((), s.stashed s₄ (.mk tag.id .elsifArm tag.token [cond.node, tags.node body.nodes])
        (armLines E false cond own.onTrue own.onFalse own.finish
          (body.lines E exit (s.labels.next + 2)))) := by
    refine (Lower.run_bind_of_ok (run_popFrame_of_framed hstage₃.passage)).trans ?_
    refine (Lower.run_bind_of_ok (Lower.run_child (i := 0) (c := cond.node) rfl nofun _)).trans ?_
    refine (Lower.run_bind_of_ok
      (Lower.run_child (i := 1) (c := tags.node body.nodes) rfl nofun _)).trans ?_
    refine (Lower.run_bind_of_ok harm).trans ?_
    exact run_stash hstage₄.passage _
  exact ⟨_, .mk' (.other rfl rfl) henter (.cons hvisits₂ (.cons hvisits₃ (.nil s₃))) hexit, hkept,
    .node rfl henter hthreads₃ hexit⟩

/-- The last arm is its body, which is kept for it. -/
theorem visits_else {tag : Tag} (hbody : LowersStmts E exit body)
    (hready : Ready (Node.mk tag.id .elseArm tag.token [tags.node body.nodes]).ids s)
    (hinside : Inside exit s)
    (hE : E.Agrees [.mk tag.id .elseArm tag.token [tags.node body.nodes]] s) :
    ∃ s', Visits (.mk tag.id .elseArm tag.token [tags.node body.nodes]) s s' ∧
      Stage s (Node.mk tag.id .elseArm tag.token [tags.node body.nodes]).ids [] body.span
        [(tag.id, body.lines E exit s.labels.next)] s' ∧
      Threads E body.legs s s' := by
  obtain ⟨s₁, hvisits, hstage, hthreads⟩ :=
    visits_body hbody (hready.children.mem List.mem_cons_self) hinside (hE.inside rfl)
  have hids : (tags.node body.nodes).ids ⊆
      (Node.mk tag.id .elseArm tag.token [tags.node body.nodes]).ids := fun i hi =>
    List.mem_cons_of_mem _ (List.mem_append_left _ hi)
  -- the fragment of the body is taken and kept again under the id of the arm
  have htaken := (hstage.taken (n := tags.node body.nodes) []).mono hids
  have hexit : (Lower.exit (.mk tag.id .elseArm tag.token [tags.node body.nodes])).run s₁ =
      .ok ((), { s₁.taken (tags.node body.nodes) with
        fragments := (s₁.taken (tags.node body.nodes)).fragments.insert tag.id
          (body.lines E exit s.labels.next).toArray }) := by
    refine (Lower.run_bind_of_ok
      (Lower.run_child (i := 0) (c := tags.node body.nodes) rfl nofun _)).trans ?_
    exact Lower.run_bind_of_ok (hstage.run_take (n := tags.node body.nodes) [])
  exact ⟨_, .mk' (.other rfl rfl) rfl (.cons hvisits (.nil s₁)) hexit,
    htaken.keep (hready.fragment _ List.mem_cons_self) List.mem_cons_self,
    .node rfl rfl hthreads hexit⟩

/-- The frame of a loop that is entered in a state. -/
def Lowering.loopFrame (s : Lowering) (kind : Kind) : Frame Label :=
  ⟨kind, ⟨s.labels.next⟩, ⟨s.labels.next + 1⟩, none⟩

/-- The state in which the frame and the exit of a loop were unstacked. -/
def Lowering.unlooped (s s₁ : Lowering) : Lowering :=
  { s₁ with labels := ⟨s₁.labels.next, s.labels.frames, s.labels.loops⟩ }

/-- The first steps of leaving a loop. -/
theorem reaches_unlooped {labels : Nat} {f : Frame Label} {exit : Label} {ids : List Int}
    {lines : List Line} {kept : List (Int × List Line)} {s₁ : Lowering} {p : Frame Label → Lower Unit}
    {Q : Lowering → Prop} (h : Stage (s.framed 2 f [exit]) ids lines labels kept s₁)
    (hrest : Stage s ids lines (2 + labels) kept (s.unlooped s₁) → (p f).Reaches (s.unlooped s₁) Q) :
    (Lower.popFrame >>= fun f => Lower.popLoop >>= fun _ => p f).Reaches s₁ Q := by
  refine .bind (run_popFrame_of_framed h.passage) ?_
  refine .bind (Lower.run_popLoop h.passage.loops) ?_
  exact hrest (h.unframed rfl rfl rfl)

/-- The walk of a loop with a condition writes its layout. -/
theorem visits_while {tag : Tag} (hbody : ∀ exit, LowersStmts E (some exit) body)
    (hindexed : cond.expr.Indexed)
    (hready : Ready (Stmt.whileLoop tag cond tags body).node.ids s) (hinside : Inside exit s)
    (hE : E.Agrees [(Stmt.whileLoop tag cond tags body).node] s) :
    ∃ s', Visits (Stmt.whileLoop tag cond tags body).node s s' ∧
      Writes s (Stmt.whileLoop tag cond tags body).node.ids
        ((Stmt.whileLoop tag cond tags body).lines E exit s.labels.next) (2 + body.span) s' ∧
      Threads E (Stmt.whileLoop tag cond tags body).legs s s' := by
  have henter : (Lower.enter (Stmt.whileLoop tag cond tags body).node).run s =
      .ok ((), s.framed 2 (s.loopFrame .whileLoop) [⟨s.labels.next + 1⟩]) := rfl
  -- breaks in the body jump behind this loop
  have hinside₁ : Inside (some ⟨s.labels.next + 1⟩)
      (s.framed 2 (s.loopFrame .whileLoop) [⟨s.labels.next + 1⟩]) := ⟨hinside.call, rfl⟩
  obtain ⟨s₂, s₃, hvisits₂, hvisits₃, hstage₃, hvalue, -, -, hthreads₃⟩ :=
    visits_condBody (hbody _) hindexed
    (hready.children.framed ..) hinside₁ (hE.inside henter)
  -- the frame and the exit are unstacked, and the loop is placed
  have hexit : (Lower.exit (Stmt.whileLoop tag cond tags body).node).Reaches s₃ (Stage s
      (cond.node.ids ++ (tags.node body.nodes).ids)
      ((Stmt.whileLoop tag cond tags body).lines E exit s.labels.next) (2 + body.span) []) := by
    refine reaches_unlooped hstage₃ fun hstage => ?_
    refine .bind (Lower.run_child (i := 0) (c := cond.node) rfl nofun _) ?_
    refine .bind (Lower.run_child (i := 1) (c := tags.node body.nodes) rfl nofun _) ?_
    exact reaches_loop (n := tags.node body.nodes) hready.buffers (s.loopFrame .whileLoop) hstage hvalue
  obtain ⟨s₄, hexit, hstage₄⟩ := hexit
  refine ⟨s₄, .mk' (.other rfl rfl) henter (.cons hvisits₂ (.cons hvisits₃ (.nil s₃))) hexit, ?_,
    .node rfl henter hthreads₃ hexit⟩
  refine hstage₄.writes.mono fun i hi => ?_
  simpa [Stmt.node, Node.ids, Node.idsAll] using Or.inr hi

/-- A loop with a header that is left places the first clause, and then the loop with the step behind
the body. -/
theorem reaches_exitFor {labels : Nat} {ids : List Int} {id : Int} {token : Token} {f : Frame Label}
    {exit : Label} {init step : Clause} {nodes : List Node} {lines : List Line} {s₁ : Lowering}
    (hb : s.buffers.stack ≠ [])
    (h : Stage (s.framed 2 f [exit]) ids [] labels
      [(init.tag.id, instrs (init.code E)), (cond.id, instrs (E.code cond.expr.id)),
        (step.tag.id, instrs (step.code E)), (tags.body.id, lines)] s₁)
    (hvalue : s₁.value cond.id = some (E.value cond.expr.id)) :
    (Lower.exit (.mk id .forLoop token [init.node .forInit, cond.node, step.node .forStep,
        tags.node nodes])).Reaches s₁
      (Stage s ids (instrs (init.code E) ++ loopLines E cond f.onTrue f.onFalse lines
        (instrs (step.code E))) (2 + labels) []) := by
  refine reaches_unlooped h fun hstage => ?_
  refine .bind (Lower.run_child (i := 0) (c := init.node .forInit) rfl nofun _) ?_
  refine .bind (hstage.run_take (n := init.node .forInit) []) ?_
  have htaken := hstage.taken (n := init.node .forInit) []
  refine .then (reaches_splice (htaken.buffers_ne hb) _) fun s₂ hwrites => ?_
  have hstage₂ := htaken.then_writes hwrites
  have hvalue₂ : s₂.value cond.id = some (E.value cond.expr.id) :=
    (hwrites.passage.value cond.id (by simp)).trans hvalue
  refine .bind (Lower.run_child (i := 1) (c := cond.node) rfl nofun _) ?_
  refine .bind (Lower.run_child (i := 3) (c := tags.node nodes) rfl nofun _) ?_
  refine .bind (Lower.run_child (i := 2) (c := step.node .forStep) rfl nofun _) ?_
  -- the step is taken from between the condition and the body
  refine .bind (hstage₂.run_take (n := step.node .forStep) [(cond.id, _)]) ?_
  have htaken₂ := hstage₂.taken (n := step.node .forStep) [(cond.id, _)]
  exact reaches_loop (n := tags.node nodes) hb f htaken₂ hvalue₂

/-- The step of a loop with a header is walked before its body and placed behind it. -/
theorem visits_for {tag : Tag} {init step : Clause} (hbody : ∀ exit, LowersStmts E (some exit) body)
    (hinit : init.Indexed) (hindexed : cond.expr.Indexed) (hstep : step.Indexed)
    (hready : Ready (Stmt.forLoop tag init cond step tags body).node.ids s) (hinside : Inside exit s)
    (hE : E.Agrees [(Stmt.forLoop tag init cond step tags body).node] s) :
    ∃ s', Visits (Stmt.forLoop tag init cond step tags body).node s s' ∧
      Writes s (Stmt.forLoop tag init cond step tags body).node.ids
        ((Stmt.forLoop tag init cond step tags body).lines E exit s.labels.next)
        (2 + body.span) s' ∧
      Threads E (Stmt.forLoop tag init cond step tags body).legs s s' := by
  have henter : (Lower.enter (Stmt.forLoop tag init cond step tags body).node).run s =
      .ok ((), s.framed 2 (s.loopFrame .forLoop) [⟨s.labels.next + 1⟩]) := rfl
  have hinside₁ : Inside (some ⟨s.labels.next + 1⟩)
      (s.framed 2 (s.loopFrame .forLoop) [⟨s.labels.next + 1⟩]) := ⟨hinside.call, rfl⟩
  have hready₁ := hready.children.framed 2 (s.loopFrame .forLoop) [⟨s.labels.next + 1⟩]
  have hE₁ := hE.inside henter
  -- the four parts, in the order of the walk
  obtain ⟨s₂, hvisits₂, hstage₂, hthreads₂⟩ := visits_clause init (.inl rfl) hinit
    (hready₁.mem List.mem_cons_self) hinside₁.call hE₁.first
  have hready₂ := hready₁.after hstage₂
  have hinside₂ := hinside₁.passage hstage₂.passage
  have hE₂ := hE₁.after hvisits₂
  obtain ⟨s₃, hvisits₃, hstage₃, hvalue, hthreads₃⟩ := visits_cond cond hindexed
    (hready₂.mem List.mem_cons_self) hE₂.first
  have hready₃ := hready₂.after hstage₃
  have hinside₃ := hinside₂.passage hstage₃.passage
  have hE₃ := hE₂.after hvisits₃
  obtain ⟨s₄, hvisits₄, hstage₄, hthreads₄⟩ := visits_clause step (.inr rfl) hstep
    (hready₃.mem List.mem_cons_self) hinside₃.call hE₃.first
  have hready₄ := hready₃.after hstage₄
  have hinside₄ := hinside₃.passage hstage₄.passage
  have hE₄ := hE₃.after hvisits₄
  obtain ⟨s₅, hvisits₅, hstage₅, hthreads₅⟩ := visits_body (hbody _)
    (hready₄.mem List.mem_cons_self) hinside₄ hE₄.first
  have hnext : s₄.labels.next = s.labels.next + 2 := by
    rw [hstage₄.passage.next, hstage₃.passage.next, hstage₂.passage.next]
    rfl
  rw [hnext] at hstage₅
  have hstage := hstage₂.trans (hstage₃.trans (hstage₄.trans hstage₅))
  rw [Nat.zero_add, Nat.zero_add, Nat.zero_add] at hstage
  -- the parts behind the condition leave its value alone
  have hvalue₅ : s₅.value cond.id = some (E.value cond.expr.id) := by
    have hdisjoint := (List.nodup_append.mp hready₂.nodup).2.2
    rw [hstage₅.passage.value, hstage₄.passage.value, hvalue]
    · intro hmem
      exact hdisjoint cond.id List.mem_cons_self _ (List.mem_append_left _ hmem) rfl
    · intro hmem
      exact hdisjoint cond.id List.mem_cons_self _
        (List.mem_append_right _ (List.mem_append_left _ hmem)) rfl
  obtain ⟨s₆, hexit, hstage₆⟩ := reaches_exitFor hready.buffers hstage hvalue₅
  have hthreads := hthreads₂.trans (hthreads₃.trans (hthreads₄.trans hthreads₅))
  refine ⟨s₆, .mk' (.other rfl rfl) henter
    (.cons hvisits₂ (.cons hvisits₃ (.cons hvisits₄ (.cons hvisits₅ (.nil s₅))))) hexit, ?_,
    .node rfl henter hthreads hexit⟩
  refine hstage₆.writes.mono fun i hi => ?_
  simpa [Stmt.node, Node.ids, Node.idsAll] using Or.inr hi

end Constructs

/-! ## Statements

By mutual induction on statements, lists of them and arms. The sections above have one theorem for
each constructor. -/

section Statements

variable {E : Emission}

/-- The walk of a return writes the code of its expression and the return. -/
theorem visits_return {tag : Tag} {value : Option Expr} {exit : Option Label} {s : Lowering}
    (hindexed : ∀ e, value = some e → e.Indexed) (hready : Ready (Stmt.ret tag value).node.ids s)
    (hE : E.Agrees [(Stmt.ret tag value).node] s) :
    ∃ s', Visits (Stmt.ret tag value).node s s' ∧
      Writes s (Stmt.ret tag value).node.ids ((Stmt.ret tag value).lines E exit s.labels.next) 0 s' ∧
      Threads E (Stmt.ret tag value).legs s s' := by
  -- without a value nothing is walked below
  cases value with
  | none =>
    have hreaches : (Lower.exit (Stmt.ret tag none).node).Reaches s (Writes s [] [.instr (.ret none)] 0) :=
      reaches_emit hready.buffers (.ret none)
    obtain ⟨s₁, hexit, hwrites⟩ := hreaches
    exact ⟨s₁, .mk' (.other rfl rfl) rfl (.nil s) hexit, hwrites.mono (List.nil_subset _),
      .node rfl rfl (.refl E s) hexit⟩
  | some e =>
    have he : Ready e.node.ids s := hready.children.mem List.mem_cons_self
    obtain ⟨s₁, hvisits, hwrites₁, hvalue, hthreads⟩ :=
      visits_expr_emitted e (hindexed e rfl) he (hE.inside rfl)
    have hexit : (Lower.exit (Stmt.ret tag (some e)).node).Reaches s₁
        (Writes s₁ [] [.instr (.ret (some (E.value e.id)))] 0) := by
      refine .bind (Lower.run_child (i := 0) rfl e.node_ne_absent s₁) ?_
      exact .bind (Lower.run_valueOf hvalue) (reaches_emit (hwrites₁.buffers_ne he.buffers) _)
    obtain ⟨s₂, hexit, hwrites₂⟩ := hexit
    refine ⟨s₂, .mk' (.other rfl rfl) rfl (.cons hvisits (.nil s₁)) hexit, ?_,
      .node rfl rfl hthreads hexit⟩
    refine (hwrites₁.trans hwrites₂).mono ?_
    rw [List.append_nil]
    exact fun i hi => List.mem_cons_of_mem _ (List.mem_append_left _ hi)

/-- The walk of a break inside a loop writes the jump to the exit of that loop. -/
theorem visits_break {tag : Tag} {exit : Option Label} {s : Lowering} (hexit : exit.isSome = true)
    (hready : Ready (Stmt.brk tag).node.ids s) (hinside : Inside exit s) :
    ∃ s', Visits (Stmt.brk tag).node s s' ∧
      Writes s (Stmt.brk tag).node.ids ((Stmt.brk tag).lines E exit s.labels.next) 0 s' ∧
      Threads E (Stmt.brk tag).legs s s' := by
  obtain ⟨l, rfl⟩ := Option.isSome_iff_exists.mp hexit
  obtain ⟨loops, hloops⟩ := List.head?_eq_some_iff.mp hinside.loops
  have hbreak : (Lower.exit (Stmt.brk tag).node).Reaches s (Writes s [] [.instr (.jump l)] 0) :=
    .bind (Lower.run_loopExit hloops) (reaches_emit hready.buffers _)
  obtain ⟨s₁, hrun, hwrites⟩ := hbreak
  exact ⟨s₁, .mk' (.other rfl rfl) rfl (.nil s) hrun, hwrites.mono (List.nil_subset _),
    .node rfl rfl (.refl E s) hrun⟩

mutual

/-- Walking a statement writes the lines of its layout and passes its legs. -/
theorem visits_stmt (x : Stmt) {exit : Option Label} (hvalid : x.Valid exit.isSome) {s : Lowering}
    (hready : Ready x.node.ids s) (hinside : Inside exit s) (hE : E.Agrees [x.node] s) :
    ∃ s', Visits x.node s s' ∧
      Writes s x.node.ids (x.lines E exit s.labels.next) x.span s' ∧ Threads E x.legs s s' := by
  -- the bodies of loops are lowered for any exit, since the loop has one of its own
  cases x with
  | simple x => exact visits_simple_emitted x hvalid hready hinside.call hE
  | ret tag value => exact visits_return hvalid hready hE
  | brk tag => exact visits_break hvalid hready hinside
  | branch tag negated cond tags body arms =>
    refine visits_branch ?_ (lowers_stmts body hvalid.2.1) (lowers_arms arms hvalid.2.2.1) hvalid.1
      hready hinside hE
    cases negated with
    | false => exact .inl ⟨rfl, rfl⟩
    | true => exact .inr ⟨rfl, rfl⟩
  | whileLoop tag cond tags body =>
    exact visits_while (fun exit => lowers_stmts body hvalid.2) hvalid.1 hready hinside hE
  | forLoop tag init cond step tags body =>
    exact visits_for (fun exit => lowers_stmts body hvalid.2.2.2) hvalid.1 hvalid.2.1 hvalid.2.2.1
      hready hinside hE

/-- Lists of statements are lowered to their lines. -/
theorem lowers_stmts (b : Stmts) {exit : Option Label} (hvalid : b.Valid exit.isSome) :
    LowersStmts E exit b := by
  intro s hready hinside hE
  cases b with
  | nil => exact ⟨s, .nil s, .refl s, .refl E s⟩
  | cons first rest =>
    obtain ⟨s₁, hvisits₁, hwrites₁, hthreads₁⟩ := visits_stmt first hvalid.1
      (hready.mem List.mem_cons_self) hinside hE.first
    obtain ⟨s₂, hvisits₂, hwrites₂, hthreads₂⟩ := lowers_stmts rest hvalid.2 s₁
      (hready.after (.of_writes hwrites₁)) (hinside.passage hwrites₁.passage) (hE.after hvisits₁)
    rw [hwrites₁.passage.next] at hwrites₂
    exact ⟨s₂, .cons hvisits₁ hvisits₂, hwrites₁.trans hwrites₂, hthreads₁.trans hthreads₂⟩

/-- Further arms are kept as their lines. -/
theorem lowers_arms (a : Arms) {exit : Option Label} (hvalid : a.Valid exit.isSome) :
    LowersArms E exit a := by
  intro s f frames hready hinside hE hframes hfinish
  cases a with
  | none => exact ⟨s, .nil s, .of_writes (.refl s), .refl E s⟩
  | last tag tags body =>
    obtain ⟨s₁, hvisits, hstage, hthreads⟩ := visits_else (lowers_stmts body hvalid)
      (hready.mem List.mem_cons_self) hinside hE
    refine ⟨s₁, .cons hvisits (.nil s₁), hstage.mono ?_, hthreads⟩
    exact fun i hi => List.mem_append_left _ hi
  | elsif tag cond tags body rest =>
    -- further arms have a label at their end, which all of them jump to
    obtain ⟨finish, hfinish⟩ := hfinish (List.cons_ne_nil _ _)
    obtain ⟨s₁, hvisits₁, hstage₁, hthreads₁⟩ := visits_elsif (lowers_stmts body hvalid.2.1) hvalid.1
      (hready.mem List.mem_cons_self) hinside hE.first hframes hfinish
    obtain ⟨s₂, hvisits₂, hstage₂, hthreads₂⟩ := lowers_arms rest hvalid.2.2 s₁ f frames
      (hready.after hstage₁) (hinside.passage hstage₁.passage) (hE.after hvisits₁)
      (hstage₁.passage.frames.trans hframes) fun _ => ⟨finish, hfinish⟩
    rw [hstage₁.passage.next, ← Nat.add_assoc, hfinish] at hstage₂
    rw [hfinish]
    exact ⟨s₂, .cons hvisits₁ hvisits₂, hstage₁.trans hstage₂, hthreads₁.trans hthreads₂⟩

end

end Statements

end ScriptPir
