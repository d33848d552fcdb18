import ScriptPir.Expectation

/-!
# Lines in order

`inOrder` goes through a list once and takes every text that is wanted next as soon as it comes. Nothing is
lost by that: a match that starts at a later place of the text can be moved to the first one
(`List.cons_sublist_cons`).

* `inOrder_exact` — texts are found in order exactly if they are a subsequence, and so stand at ascending
  places;
* `holds_linesInOrder_iff` — what it means to expect lines in order.

The search is greedy, and one pass is enough. It fails on a list only if no choice of places would have
worked, since taking the first place for a text leaves more for those behind it.
-/

namespace ScriptPir

/-- One step for each text that is passed: it is the one wanted next, or another one. -/
theorem inOrder_iff_sublist (have' want : List String) :
    inOrder have' want = true ↔ want.Sublist have' := by
  induction have', want using inOrder.induct with
  | case1 rest =>
    rw [inOrder.eq_def]
    exact ⟨fun _ => List.nil_sublist rest, fun _ => rfl⟩
  | case2 w ws =>
    rw [inOrder, List.sublist_nil]
    exact ⟨nofun, nofun⟩
  | case3 hs w ws ih => rw [inOrder, if_pos rfl, ih, List.cons_sublist_cons]
  | case4 h hs w ws hne ih =>
    -- a text that is not wanted next may be left out of the match
    rw [inOrder, if_neg hne, ih, List.sublist_cons_iff]
    constructor
    · exact .inl
    · rintro (hrest | ⟨rest, heq, -⟩)
      · exact hrest
      · cases heq
        exact absurd rfl hne

/-- The texts that are wanted are found in order exactly if they are a subsequence, with all repetitions: they
stand at places that ascend. -/
theorem inOrder_exact (have' want : List String) :
    (inOrder have' want = true ↔ want.Sublist have') ∧
      (inOrder have' want = true ↔
        ∃ places : List (Fin have'.length), places.Pairwise (· < ·) ∧ want = places.map (have'[·])) := by
  refine ⟨inOrder_iff_sublist have' want, (inOrder_iff_sublist have' want).trans ?_⟩
  constructor
  · intro h
    obtain ⟨places, hwant, hascending⟩ := List.sublist_eq_map_getElem h
    exact ⟨places, hascending, hwant⟩
  · rintro ⟨places, hascending, rfl⟩
    exact List.map_getElem_sublist hascending

/-- Lines are expected in order of an output without errors, in which they are a subsequence. -/
theorem holds_linesInOrder_iff (outcome : Except CompileError Compilation) (lines : List String) :
    (Expectation.linesInOrder lines).holds outcome = true ↔
      ∃ have', outputLines? outcome = some have' ∧ lines.Sublist have' := by
  rw [Expectation.holds, Option.any_eq_true]
  simp only [inOrder_iff_sublist]

end ScriptPir
