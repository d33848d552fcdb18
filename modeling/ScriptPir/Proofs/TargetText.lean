import ScriptPir.Code.Program

/-!
# The text of target code

What is said of instructions elsewhere is said of text here. `Line.Spelled` gives the spelling of the lines
that declare something or control what comes next, word by word, and `Line.spelled_iff` says that they are
written that way. So a line that looks like a label is that label (`Line.eq_label_of_render_eq`), and lines
that look the same jump to the same label (`Line.target_eq_of_render_eq`).

A whole program is one text: its main part, the libraries and the functions, in this order
(`Program.render_eq`).
-/

namespace ScriptPir

/-! ## Labels

A label is written with its number, and numbers that are written alike are equal. -/

/-- The names of two labels tell them apart: a number has one numeral. -/
theorem Label.name_injective : Function.Injective Label.name := by
  rintro ⟨n⟩ ⟨n'⟩ h
  exact congrArg Label.mk (Numeral.ofNat_inj.mp ((String.append_right_inj _).mp h))

/-- The label that a line may jump to. -/
def Line.target? : Line → Option Label
  | .instr (.jump l) | .instr (.branch _ _ l) => some l
  | _ => none

/-! ## Lines

The spelling is a relation of its own, with all words written out. That each structural line has a
spelling, and that it is rendered so, are two theorems. -/

/-- How the lines are written that declare something or control what comes next. Labels stand at the start
of their line, and instructions behind four spaces. -/
inductive Line.Spelled : Line → String → Prop
  | label (n : Nat) : Spelled (.label ⟨n⟩) ("label_" ++ n.repr ++ ":\n")
  | jump (n : Nat) : Spelled (.instr (.jump ⟨n⟩)) ("    goto label_" ++ n.repr ++ "\n")
  | onTrue (v : Value) (n : Nat) :
    Spelled (.instr (.branch false v ⟨n⟩)) ("    if " ++ v.render ++ " goto " ++ "label_" ++ n.repr ++ "\n")
  | onFalse (v : Value) (n : Nat) :
    Spelled (.instr (.branch true v ⟨n⟩)) ("    unless " ++ v.render ++ " goto " ++ "label_" ++ n.repr ++ "\n")
  | leave : Spelled (.instr (.ret none)) "    .return()\n"
  | leaveWith (v : Value) :
    Spelled (.instr (.ret (some v))) ("    .return(" ++ v.render ++ ")" ++ "\n")
  | declare (x : String) : Spelled (.instr (.declare x)) ("    .local pmc " ++ x ++ "\n")
  | param (x : String) : Spelled (.instr (.param x)) ("    .param pmc " ++ x ++ "\n")
  | construct (x : String) (cls : Class) :
    Spelled (.instr (.construct (.name x) cls)) ("    " ++ x ++ " = new \"" ++ cls.name ++ "\"" ++ "\n")

/-- Whether a line declares something or controls what comes next. -/
def Line.isStructural : Line → Bool
  | .label _ => true
  | .instr i =>
    match i with
    | .jump _ | .branch .. | .ret _ | .declare _ | .param _ | .construct (.name _) _ => true
    | _ => false

theorem Line.Spelled.isStructural {l : Line} {text : String} (h : l.Spelled text) :
    l.isStructural = true := by
  cases h <;> rfl

/-- A line has the text that is spelled out for it. -/
theorem Line.Spelled.render_eq {l : Line} {text : String} (h : l.Spelled text) : l.render = text := by
  -- the text is put together in another order: the words of an instruction, and then its line
  have line (first rest : String) : Layout.instruction (first ++ rest) = "    " ++ first ++ rest ++ "\n" := by
    rw [Layout.instruction, ← String.append_assoc]
  cases h with
  | label n => rfl
  | jump n =>
    refine (line "goto " _).trans ?_
    rw [Label.name, ← String.append_assoc]
    rfl
  | onTrue v n =>
    refine (line _ _).trans ?_
    simp only [Label.name, ← String.append_assoc]
    rfl
  | onFalse v n =>
    refine (line _ _).trans ?_
    simp only [Label.name, ← String.append_assoc]
    rfl
  | leave => rfl
  | leaveWith v =>
    refine (line _ _).trans ?_
    rw [← String.append_assoc]
    rfl
  | declare x => exact line ".local pmc " x
  | param x => exact line ".param pmc " x
  | construct x cls =>
    refine (line _ _).trans ?_
    simp only [← String.append_assoc]
    rfl

/-- Every structural line has a spelling. -/
theorem Line.exists_spelled {l : Line} (h : l.isStructural = true) : ∃ text, l.Spelled text := by
  -- one rule of the spelling for each constructor that is structural
  cases l with
  | label l => exact ⟨_, .label l.number⟩
  | instr i =>
    cases i with
    | jump l => exact ⟨_, .jump l.number⟩
    | branch negated v l =>
      cases negated with
      | false => exact ⟨_, .onTrue v l.number⟩
      | true => exact ⟨_, .onFalse v l.number⟩
    | ret v =>
      cases v with
      | none => exact ⟨_, .leave⟩
      | some v => exact ⟨_, .leaveWith v⟩
    | declare x => exact ⟨_, .declare x⟩
    | param x => exact ⟨_, .param x⟩
    | construct place cls =>
      cases place with
      | name x => exact ⟨_, .construct x cls⟩
      | reg | elementAt | elementBy => cases h
    | _ => cases h

/-- Exactly the lines that declare something or control what comes next are spelled out, and their spelling
is their text. -/
theorem Line.spelled_iff {l : Line} {text : String} :
    l.Spelled text ↔ l.isStructural = true ∧ l.render = text := by
  constructor
  · exact fun h => ⟨h.isStructural, h.render_eq⟩
  · rintro ⟨hstructural, rfl⟩
    obtain ⟨text, h⟩ := exists_spelled hstructural
    exact h.render_eq ▸ h

/-! ## What a text says

The other direction: what can be told of a line by looking at its text. -/

/-- No instruction has the text of a label, which is not indented; and different labels have different
texts. -/
theorem Line.eq_label_of_render_eq {l : Line} {a : Label} (h : l.render = (Line.label a).render) :
    l = .label a := by
  cases l with
  | label b =>
    have hname : b.name ++ ":\n" = a.name ++ ":\n" := h
    rw [Label.name_injective ((String.append_left_inj _).mp hname)]
  | instr i =>
    -- one starts with a space, and the other with a letter
    have hfirst := congrArg (fun s : String => s.toList.head?) h
    simp [Line.render, Layout.instruction, Layout.label, Label.name] at hfirst

/-- What is behind the last underscore of a text is the end of it that has none. -/
theorem eq_of_append_underscore {front front' digits digits' : List Char} (h : '_' ∉ digits)
    (h' : '_' ∉ digits') (heq : front ++ '_' :: digits = front' ++ '_' :: digits') :
    digits = digits' := by
  have htail (front : List Char) {digits : List Char} (h : '_' ∉ digits) :
      (front ++ '_' :: digits).reverse.takeWhile (· ≠ '_') = digits.reverse := by
    have hall : ∀ c ∈ digits.reverse, decide (c ≠ '_') = true := by
      intro c hc
      have hne : c ≠ '_' := fun hc' => h (hc' ▸ List.mem_reverse.mp hc)
      exact decide_eq_true hne
    rw [List.reverse_append, List.reverse_cons, List.append_assoc, List.takeWhile_append_of_pos hall]
    simp
  rw [← List.reverse_inj, ← htail front h, heq, htail front' h']

/-- The text of a jump ends with the name of the label that it goes to. -/
theorem Line.exists_render_of_target? {l : Line} {a : Label} (h : l.target? = some a) :
    ∃ front, l.render.toList = front ++ '_' :: (Nat.toDigits 10 a.number ++ ['\n']) := by
  -- jumps and branches have a target, and it is written last
  cases l with
  | label => cases h
  | instr i =>
    cases i with
    | jump b =>
      obtain rfl : b = a := Option.some.inj h
      refine ⟨"    goto label".toList, ?_⟩
      rw [(Spelled.jump b.number).render_eq]
      simp [Nat.repr]
    | branch negated v b =>
      obtain rfl : b = a := Option.some.inj h
      cases negated with
      | false =>
        refine ⟨"    if ".toList ++ v.render.toList ++ " goto label".toList, ?_⟩
        rw [(Spelled.onTrue v b.number).render_eq]
        simp [Nat.repr]
      | true =>
        refine ⟨"    unless ".toList ++ v.render.toList ++ " goto label".toList, ?_⟩
        rw [(Spelled.onFalse v b.number).render_eq]
        simp [Nat.repr]
    | _ => cases h

/-- Lines that look the same jump to the same label, whatever they test. -/
theorem Line.target_eq_of_render_eq {l l' : Line} {a a' : Label} (hl : l.target? = some a)
    (hl' : l'.target? = some a') (h : l.render = l'.render) : a = a' := by
  have hdigits (n : Nat) : '_' ∉ Nat.toDigits 10 n ++ ['\n'] := by
    simp only [List.mem_append, List.mem_singleton, not_or]
    refine ⟨fun hmem => ?_, by decide⟩
    have hdigit := Nat.isDigit_of_mem_toDigits (by decide) (by decide) hmem
    cases hdigit
  obtain ⟨front, hfront⟩ := exists_render_of_target? hl
  obtain ⟨front', hfront'⟩ := exists_render_of_target? hl'
  rw [h, hfront'] at hfront
  have hsame := List.append_cancel_right (eq_of_append_underscore (hdigits _) (hdigits _) hfront)
  have hnumber : Numeral.ofNat a'.number = Numeral.ofNat a.number := congrArg String.ofList hsame
  exact congrArg Label.mk (Numeral.ofNat_inj.mp hnumber).symm

/-! ## Whole programs

A fragment is the texts of its lines, one behind the other. A subroutine puts a header in front of
them and an end behind, and a library is one line. -/

/-- The text of a fragment is that of its lines, one behind the other. -/
theorem Fragment.render_eq_join (f : Fragment) : f.render = String.join (f.toList.map Line.render) := by
  rw [Fragment.render, ← Array.foldl_toList, String.join, List.foldl_map]

/-- The functions are written one behind the other, each behind an empty line. -/
theorem renderFunctions_eq_join {τ : Type} (render : FunctionRecord τ → String)
    (records : List (FunctionRecord τ)) :
    renderFunctions render records = String.join (records.map fun r => "\n" ++ render r) := by
  have hfrom : ∀ s : String, records.foldl (fun s r => s ++ "\n" ++ render r) s =
      s ++ String.join (records.map fun r => "\n" ++ render r) := by
    induction records with
    | nil =>
      intro s
      simp
    | cons r records ih =>
      intro s
      rw [List.foldl_cons, ih]
      simp [String.append_assoc]
  rw [renderFunctions, hfrom]
  simp

/-- A subroutine is written from `.sub` to `.end`, each in a line of its own, with its lines between. -/
theorem renderSub_eq (name : String) (body : Fragment) :
    renderSub name body =
      ".sub " ++ name ++ "\n" ++ String.join (body.toList.map Line.render) ++ ".end\n" := by
  rw [renderSub, Fragment.render_eq_join]
  rfl

/-- A library is included by a line of its own. -/
theorem renderInclude_eq (path : String) : renderInclude path = ".include \"" ++ path ++ "\"\n" := by
  rw [renderInclude, Layout.directive, String.append_assoc]
  rfl

/-- The text of a program: its main part, an empty line, the libraries, and the functions, each behind an
empty line. -/
theorem Program.render_eq (p : Program) :
    p.render =
      ".sub main\n" ++ String.join (p.main.toList.map Line.render) ++ ".end\n" ++
        "\n" ++
        ".include \"" ++ p.stdlib ++ "\"\n" ++
        String.join (p.requires.map fun path => ".include \"" ++ path ++ "\"\n") ++
        String.join (p.functions.map fun r => "\n" ++
          ".sub " ++ r.name ++ "\n" ++ String.join (r.code.toList.map Line.render) ++ ".end\n") := by
  have hrecord (r : FunctionRecord Fragment) : "\n" ++ r.render = "\n" ++ ".sub " ++ r.name ++ "\n" ++
      String.join (r.code.toList.map Line.render) ++ ".end\n" := by
    rw [FunctionRecord.render, renderSub_eq]
    simp only [String.append_assoc]
  rw [Program.render, renderFunctions_eq_join, renderSub_eq, renderInclude_eq,
    funext renderInclude_eq, funext hrecord]
  simp only [String.append_assoc]
  rfl

end ScriptPir
