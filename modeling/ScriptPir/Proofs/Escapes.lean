import Mathlib.Data.List.Induction
import ScriptPir.Token.Lexer

/-!
# Escaped quotes

A backslash takes the meaning of the quote or the backslash after it. So a quote is escaped if it stands
behind an odd number of backslashes, which is what a reader that goes from the left keeps in one bit
(`escapes_iff`). A text is well quoted if it can stand between two quotes: those in it are escaped, and
the closing one is not.

* `takeQuoted_spec` — what the lexer takes of a string is well quoted;
* `WellQuoted.append` — well quoted texts can be put together.

The automaton reads from the left and the condition counts from the right. That both are the same is
proved once, by induction on the text in front of a quote; after that texts are put together by either
of the two.
-/

namespace ScriptPir

namespace Escape

/-- The number of backslashes that a text ends in. -/
def backslashes (s : List Char) : Nat := (s.reverse.takeWhile (· = '\\')).length

/-- Whether the character after `c` is escaped, from whether `c` is. -/
def step (escaped : Bool) (c : Char) : Bool := c = '\\' && !escaped

/-- Whether the character after a text is escaped, from whether its first one is. -/
def after (escaped : Bool) (s : List Char) : Bool := s.foldl step escaped

@[simp] theorem after_nil (e : Bool) : after e [] = e := rfl

@[simp] theorem after_cons (e : Bool) (c : Char) (s : List Char) :
    after e (c :: s) = after (step e c) s := rfl

/-- The bit behind two texts is found from that behind the first one. -/
theorem after_append (e : Bool) (s t : List Char) : after e (s ++ t) = after (after e s) t :=
  List.foldl_append

/-- A backslash at the end counts one more, and any other character starts again. -/
theorem backslashes_concat (s : List Char) (c : Char) :
    backslashes (s ++ [c]) = if c = '\\' then backslashes s + 1 else 0 := by
  unfold backslashes
  rw [List.reverse_append, List.reverse_singleton, List.singleton_append, List.takeWhile_cons]
  by_cases hc : c = '\\' <;> simp [hc]

/-- Going from the left, the bit tells whether the number of backslashes is odd. -/
theorem escapes_iff (s : List Char) : after false s = true ↔ backslashes s % 2 = 1 := by
  induction s using List.reverseRecOn with
  | nil => decide
  | append_singleton s c ih =>
    rw [after_append, backslashes_concat, after_cons, after_nil, step]
    by_cases hc : c = '\\'
    · cases h : after false s <;> simp [h] at ih <;> simp [hc] <;> omega
    · simp [hc]

/-- A plain place stands behind an even number of backslashes. -/
theorem not_escapes_iff (s : List Char) : after false s = false ↔ backslashes s % 2 = 0 := by
  rw [← Bool.not_eq_true, escapes_iff]
  omega

/-! ## Marks

`Marks` carries the bit in front of a text along, so that it can be split anywhere. With `wanted`
set, all marks in the text are escaped, as inside a string; without it none is. -/

/-- All marks in a text that follows an escaped or a plain place are escaped, or none is. -/
def Marks (mark : Char) (wanted escaped : Bool) (s : List Char) : Prop :=
  ∀ before rest, s = before ++ mark :: rest → after escaped before = wanted

variable {mark : Char} {w e : Bool}

theorem marks_nil : Marks mark w e [] := by
  intro before rest h
  cases before <;> cases h

/-- The first character is judged by the bit, and the others by the bit behind it. -/
theorem marks_cons {c : Char} {s : List Char} :
    Marks mark w e (c :: s) ↔ (c = mark → e = w) ∧ Marks mark w (step e c) s := by
  constructor
  · intro h
    refine ⟨?_, fun before rest hs => ?_⟩
    · rintro rfl
      exact h [] s rfl
    · exact h (c :: before) rest (by rw [hs]; rfl)
  · rintro ⟨hhead, htail⟩ before rest hs
    -- a mark is the first character or one of the others
    cases before with
    | nil =>
      cases hs
      exact hhead rfl
    | cons d before =>
      cases hs
      exact htail before rest rfl

/-- The marks of two texts are judged from left to right. -/
theorem marks_append {s t : List Char} :
    Marks mark w e (s ++ t) ↔ Marks mark w e s ∧ Marks mark w (after e s) t := by
  induction s generalizing e with
  | nil => simp [marks_nil]
  | cons c s ih => rw [List.cons_append, marks_cons, marks_cons, ih, after_cons, and_assoc]

end Escape

open Escape

/-- A text can stand between two marks: every mark in it stands behind an odd number of backslashes, and
the mark after it does not. -/
structure WellQuoted (mark : Char) (s : List Char) : Prop where
  escaped : ∀ before rest, s = before ++ mark :: rest → backslashes before % 2 = 1
  closed : backslashes s % 2 = 0

/-- A text is well quoted if its marks are escaped and the bit behind it is not set. -/
theorem wellQuoted_iff {mark : Char} {s : List Char} :
    WellQuoted mark s ↔ Marks mark true false s ∧ after false s = false := by
  constructor
  · intro h
    refine ⟨fun before rest hs => ?_, (not_escapes_iff s).mpr h.closed⟩
    exact (escapes_iff before).mpr (h.escaped before rest hs)
  · rintro ⟨hmarks, hend⟩
    refine ⟨fun before rest hs => ?_, (not_escapes_iff s).mp hend⟩
    exact (escapes_iff before).mp (hmarks before rest hs)

theorem WellQuoted.nil (mark : Char) : WellQuoted mark [] := wellQuoted_iff.mpr ⟨marks_nil, rfl⟩

/-- A text that is closed leaves no backslash to the one behind it. -/
theorem WellQuoted.append {mark : Char} {s t : List Char} (hs : WellQuoted mark s)
    (ht : WellQuoted mark t) : WellQuoted mark (s ++ t) := by
  rw [wellQuoted_iff] at hs ht ⊢
  rw [marks_append, after_append, hs.2]
  exact ⟨⟨hs.1, ht.1⟩, ht.2⟩

/-- Closed texts are closed when they are put together. -/
theorem backslashes_append {s t : List Char} (hs : backslashes s % 2 = 0)
    (ht : backslashes t % 2 = 0) : backslashes (s ++ t) % 2 = 0 := by
  rw [← not_escapes_iff] at hs ht ⊢
  rw [after_append, hs, ht]

namespace Lexer

/-- What is taken of a string ends with the first mark that is not escaped. -/
theorem takeQuoted_marks {mark : Char} (hmark : mark ≠ '\\') {e : Bool} {s body rest : List Glyph}
    (h : takeQuoted mark e s = some (body, rest)) :
    ∃ (front : List Glyph) (last : Glyph), body = front ++ [last] ∧ last.read = mark ∧
      Marks mark true e (front.map Glyph.read) ∧ after e (front.map Glyph.read) = false := by
  induction s generalizing e body with
  | nil => cases h
  | cons g s ih =>
    -- the glyph goes to the body, and the escape bit moves on
    have hinner : (takeQuoted mark (step e g.read) s).map (fun p => (g :: p.1, p.2)) =
        some (body, rest) → (g.read = mark → e = true) →
        ∃ (front : List Glyph) (last : Glyph), body = front ++ [last] ∧ last.read = mark ∧
          Marks mark true e (front.map Glyph.read) ∧ after e (front.map Glyph.read) = false := by
      intro hinner hescaped
      simp only [Option.map_eq_some_iff, Prod.mk.injEq, Prod.exists] at hinner
      obtain ⟨b, r, hb, rfl, rfl⟩ := hinner
      obtain ⟨front, last, rfl, hlast, hmarks, hend⟩ := ih hb
      refine ⟨g :: front, last, rfl, hlast, ?_, hend⟩
      rw [List.map_cons, marks_cons]
      exact ⟨hescaped, hmarks⟩
    unfold takeQuoted at h
    split at h
    · rename_i hbackslash
      refine hinner ?_ fun hread => absurd (hread.symm.trans hbackslash) hmark
      simpa [step, hbackslash] using h
    · rename_i hbackslash
      split at h
      · rename_i hclosing
        cases h
        simp only [Bool.and_eq_true, decide_eq_true_eq, Bool.not_eq_true'] at hclosing
        exact ⟨[], g, rfl, hclosing.1, marks_nil, hclosing.2⟩
      · rename_i hopen
        refine hinner (by simpa [step, hbackslash] using h) fun hread => ?_
        simpa [hread] using hopen

/-- What is taken of a string is a well quoted text and its closing mark. -/
theorem takeQuoted_spec {mark : Char} (hmark : mark ≠ '\\') {s body rest : List Glyph}
    (h : takeQuoted mark false s = some (body, rest)) :
    ∃ inside, body.map Glyph.read = inside ++ [mark] ∧ WellQuoted mark inside := by
  obtain ⟨front, last, rfl, hlast, hquoted⟩ := takeQuoted_marks hmark h
  refine ⟨front.map Glyph.read, ?_, wellQuoted_iff.mpr hquoted⟩
  rw [List.map_append, List.map_singleton, hlast]

end Lexer

end ScriptPir
