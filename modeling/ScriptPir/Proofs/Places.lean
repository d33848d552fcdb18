import Mathlib.Data.List.Infix
import Mathlib.Data.List.TakeWhile
import ScriptPir.Build
import ScriptPir.Files.Store

/-!
# Where paths lead

A path is read part by part, from the root or from the directory in which it is used. What its parts say is
enough to know the *place* it leads to, if it leads anywhere (`Path.place`), and the places on the *way*
there (`Path.way`). Both are places below the root, so that paths of all kinds can be compared: `/a/b`, and
`../a/b` used in `/c`, lead to the same place.

The shortest path to a place leads to the same place (`Path.place_clean`). So the program of a source is
written right in the directory for the output, in a file that is named after the source
(`Path.place_outputPath`).
-/

namespace ScriptPir

namespace Text

/-! ## Pieces between separators

Splitting a text and putting it together again, for any separator. -/

/-- There is at least one piece. -/
theorem splitOnChar_ne_nil (sep : Char) (cs : List Char) : splitOnChar sep cs ≠ [] := by
  cases cs with
  | nil => simp [splitOnChar]
  | cons c cs =>
    simp only [splitOnChar]
    split
    · simp
    · split <;> simp

/-- A separator ends a piece, whatever stands on both sides of it. -/
theorem splitOnChar_append (sep : Char) (a b : List Char) :
    splitOnChar sep (a ++ sep :: b) = splitOnChar sep a ++ splitOnChar sep b := by
  induction a with
  | nil => simp [splitOnChar]
  | cons c cs ih =>
    simp only [List.cons_append, splitOnChar, ih]
    cases hcs : splitOnChar sep cs with
    | nil => exact absurd hcs (splitOnChar_ne_nil sep cs)
    | cons piece pieces => split <;> rfl

/-- A text without the separator is one piece. -/
theorem splitOnChar_of_not_mem {sep : Char} {cs : List Char} (h : sep ∉ cs) :
    splitOnChar sep cs = [cs] := by
  induction cs with
  | nil => rfl
  | cons c cs ih =>
    obtain ⟨hc, hcs⟩ : sep ≠ c ∧ sep ∉ cs := by simpa using h
    simp only [splitOnChar, if_neg hc.symm, ih hcs]

/-- No piece has the separator in it. -/
theorem not_mem_of_mem_splitOnChar {sep : Char} {cs piece : List Char}
    (h : piece ∈ splitOnChar sep cs) : sep ∉ piece := by
  induction cs generalizing piece with
  | nil => simp_all [splitOnChar]
  | cons c cs ih =>
    -- a separator opens an empty piece, any other character is put on the first one
    simp only [splitOnChar] at h
    split at h
    · rcases List.mem_cons.mp h with rfl | h
      · simp
      · exact ih h
    · next hc =>
      cases hcs : splitOnChar sep cs with
      | nil => exact absurd hcs (splitOnChar_ne_nil sep cs)
      | cons first pieces =>
        rw [hcs] at h ih
        rcases List.mem_cons.mp h with rfl | h
        · simpa [Ne.symm hc] using ih List.mem_cons_self
        · exact ih (List.mem_cons_of_mem _ h)

end Text

namespace Path

/-! ## Names between slashes

Empty pieces are left out: slashes may stand at the beginning, at the end, and several in a row. -/

/-- The names between the slashes of a text. -/
def names (cs : List Char) : List String :=
  ((Text.splitOnChar '/' cs).filter (· ≠ [])).map String.ofList

theorem parts_eq_names (path : String) : parts path = names path.toList := rfl

@[simp] theorem names_nil : names [] = [] := rfl

@[simp] theorem names_append (a b : List Char) : names (a ++ '/' :: b) = names a ++ names b := by
  simp [names, Text.splitOnChar_append]

@[simp] theorem names_slash (cs : List Char) : names ('/' :: cs) = names cs :=
  names_append [] cs

/-- Slashes at the end add no name. -/
theorem names_append_slashes (cs : List Char) {s : List Char} (h : ∀ c ∈ s, c = '/') :
    names (cs ++ s) = names cs := by
  have hnone (s : List Char) (h : ∀ c ∈ s, c = '/') : names s = [] := by
    induction s with
    | nil => rfl
    | cons c s ih =>
      obtain ⟨rfl, hs⟩ : c = '/' ∧ ∀ c ∈ s, c = '/' := by simpa using h
      rw [names_slash, ih hs]
  cases s with
  | nil => simp
  | cons c s =>
    obtain ⟨rfl, hs⟩ : c = '/' ∧ ∀ c ∈ s, c = '/' := by simpa using h
    rw [names_append, hnone s hs, List.append_nil]

theorem names_of_not_mem {cs : List Char} (h : '/' ∉ cs) (hne : cs ≠ []) :
    names cs = [String.ofList cs] := by
  simp [names, Text.splitOnChar_of_not_mem h, hne]

/-- Whether a text can stand between slashes. -/
def IsName (s : String) : Prop := s ≠ "" ∧ '/' ∉ s.toList

/-- A text that begins with another character than a slash has a name. -/
theorem names_ne_nil {c : Char} (h : c ≠ '/') (cs : List Char) : names (c :: cs) ≠ [] := by
  unfold names Text.splitOnChar
  rw [if_neg h]
  split <;> simp

theorem parts_of_isName {s : String} (h : IsName s) : parts s = [s] := by
  rw [parts_eq_names, names_of_not_mem h.2 (by simpa using h.1), String.ofList_toList]

/-- The parts of a path are names. -/
theorem isName_of_mem_parts {path part : String} (h : part ∈ parts path) : IsName part := by
  obtain ⟨cs, hcs, rfl⟩ := List.mem_map.mp h
  obtain ⟨hmem, hne⟩ := List.mem_filter.mp hcs
  exact ⟨by simpa using hne, by simpa using Text.not_mem_of_mem_splitOnChar hmem⟩

/-- Names with slashes between them make up a path of these parts. -/
theorem parts_intercalate {ps : List String} (h : ∀ p ∈ ps, IsName p) :
    parts ("/".intercalate ps) = ps := by
  induction ps with
  | nil => rfl
  | cons p ps ih =>
    obtain ⟨hp, hps⟩ : IsName p ∧ ∀ p ∈ ps, IsName p := by simpa using h
    cases ps with
    | nil => simpa using parts_of_isName hp
    | cons q qs =>
      have hcut : ("/".intercalate (p :: q :: qs)).toList
          = p.toList ++ '/' :: ("/".intercalate (q :: qs)).toList := by
        simp [String.toList_intercalate]
      rw [parts_eq_names, hcut, names_append, ← parts_eq_names, ← parts_eq_names, parts_of_isName hp,
        ih hps, List.singleton_append]

/-- What stands before the last part of a path has all the other parts. -/
theorem parts_parent (path : String) : parts (parent path) = (parts path).dropLast := by
  -- Read from its end, a path is some slashes, a name, and what stands before that name.
  let end' := path.toList.reverse.takeWhile (· = '/')
  let tail := path.toList.reverse.dropWhile (· = '/')
  let name := tail.takeWhile (· ≠ '/')
  let above := tail.dropWhile (· ≠ '/')
  have hslashes : ∀ c ∈ end'.reverse, c = '/' := by
    intro c hc
    simpa using List.mem_takeWhile_imp (List.mem_reverse.mp hc)
  have hname : '/' ∉ name.reverse := by
    intro hc
    simpa using List.mem_takeWhile_imp (List.mem_reverse.mp hc)
  have hpath : path.toList = above.reverse ++ name.reverse ++ end'.reverse := by
    rw [← List.reverse_append, List.takeWhile_append_dropWhile, ← List.reverse_append,
      List.takeWhile_append_dropWhile, List.reverse_reverse]
  have hparent : parts (parent path) = names above.reverse := by
    rw [parts_eq_names, parent, String.toList_ofList]
  rw [hparent, parts_eq_names, hpath, names_append_slashes _ hslashes]
  cases habove : above with
  | nil =>
    by_cases hempty : name.reverse = []
    · simp [hempty]
    · simp [names_of_not_mem hname hempty]
  | cons c rest =>
    -- What stands before a name ends with a slash.
    have hc : c = '/' := by
      have hhead := List.head?_dropWhile_not (· ≠ '/') tail
      rw [show tail.dropWhile (· ≠ '/') = c :: rest from habove] at hhead
      simpa using hhead
    subst hc
    have hne : name.reverse ≠ [] := by
      intro hempty
      have hhead := List.head?_dropWhile_not (· = '/') path.toList.reverse
      have htail : tail = '/' :: rest := by
        rw [← List.takeWhile_append_dropWhile (p := (· ≠ '/')) (l := tail)]
        exact (congrArg₂ (· ++ ·) (List.reverse_eq_nil_iff.mp hempty) habove).trans rfl
      rw [show path.toList.reverse.dropWhile (· = '/') = '/' :: rest from htail] at hhead
      simp at hhead
    rw [List.reverse_cons, List.append_assoc, List.singleton_append, names_append, names_append,
      names_of_not_mem hname hne]
    simp

/-! ## Places

A place is the list of names from the root. One dot stays where it is, two dots go up, and at the
root they stay as well; no part makes a path fail, so where it leads is a function of its parts. -/

/-- Where a part of a path leads from a place. -/
def enter (place : Place) (part : String) : Place :=
  if part = "." then place else if part = ".." then place.dropLast else place ++ [part]

/-- Where some parts lead from a place. -/
def walk (place : Place) (parts : List String) : Place := parts.foldl enter place

@[simp] theorem walk_nil (place : Place) : walk place [] = place := rfl

@[simp] theorem walk_cons (place : Place) (part : String) (parts : List String) :
    walk place (part :: parts) = walk (enter place part) parts := rfl

/-- What two lists of parts lead to is what the second leads to from the end of the first. -/
theorem walk_append (place : Place) (ps qs : List String) :
    walk place (ps ++ qs) = walk (walk place ps) qs := List.foldl_append

@[simp] theorem walk_concat (place : Place) (ps : List String) (part : String) :
    walk place (ps ++ [part]) = enter (walk place ps) part := by
  rw [walk_append, walk_cons, walk_nil]

/-- A name that is no dots leads to the place of that name. -/
theorem enter_name {place : Place} {name : String} (h : name ≠ ".") (h' : name ≠ "..") :
    enter place name = place ++ [name] := by
  rw [enter, if_neg h, if_neg h']

/-- Where a path leads that is used in some directory, if it leads anywhere. -/
def place (here : Place) (path : String) : Place := walk (start here path) (parts path)

/-- The places that a path leads through, from where it starts to its own place. -/
def way (here : Place) (path : String) : List Place :=
  (parts path).inits.map (walk (start here path))

section

variable {here P : Place} {path : String}

/-- A place is on the way if some of the first parts lead there. -/
theorem mem_way : P ∈ way here path ↔ ∃ ps, ps <+: parts path ∧ walk (start here path) ps = P := by
  simp [way]

theorem place_mem_way (here : Place) (path : String) : place here path ∈ way here path :=
  mem_way.mpr ⟨_, List.prefix_refl _, rfl⟩

/-- Where a path starts depends only on whether it begins at the root. -/
theorem start_eq_of_isRooted_eq {path' : String} (h : isRooted path' = isRooted path) :
    start here path' = start here path := by
  rw [start, start, h]

/-- What stands before the last part starts where the whole path starts, if anything stands there. -/
theorem isRooted_parent (h : parent path ≠ "") : isRooted (parent path) = isRooted path := by
  have hprefix : (parent path).toList <+: path.toList := by
    rw [parent, String.toList_ofList, ← List.reverse_suffix, List.reverse_reverse]
    exact (List.dropWhile_suffix _).trans (List.dropWhile_suffix _)
  obtain ⟨rest, hrest⟩ := hprefix
  unfold isRooted
  rw [← hrest]
  cases hcs : (parent path).toList with
  | nil => exact absurd (by simpa using hcs) h
  | cons c cs => rfl

/-- The way of a path is the way of the path above it, and one place more. -/
theorem mem_way_iff_parent (h : parent path ≠ "") :
    P ∈ way here path ↔ P ∈ way here (parent path) ∨ P = place here path := by
  rw [mem_way, mem_way, parts_parent, place, start_eq_of_isRooted_eq (isRooted_parent h)]
  rcases List.eq_nil_or_concat (parts path) with hparts | ⟨above, name, hparts⟩
  · simp [hparts, eq_comm]
  · simp only [hparts, List.concat_eq_append, List.dropLast_concat, List.prefix_concat_iff]
    constructor
    · rintro ⟨ps, rfl | hps, rfl⟩
      · exact .inr rfl
      · exact .inl ⟨ps, hps, rfl⟩
    · rintro (⟨ps, hps, rfl⟩ | rfl)
      · exact ⟨ps, .inr hps, rfl⟩
      · exact ⟨_, .inl rfl, rfl⟩

end

/-! ## Shortest paths

The shortest path is made on a stack, from which two dots take the part on top. Two dots that find nothing
to take stay at the bottom of the stack, but not at the root, which is above itself. -/

/-- A stack of parts from which no part can be taken: dots for the place above are only at its end, and
not at the root. -/
def Settled (rooted : Bool) : List String → Prop
  | [] => True
  | top :: rest =>
    top ≠ "." ∧ (top = ".." → rooted = false ∧ ∀ part ∈ rest, part = "..") ∧ Settled rooted rest

section

variable {rooted : Bool} {stack : List String}

/-- A stack stays settled when a part is pushed. -/
theorem Settled.push (h : Settled rooted stack) (part : String) :
    Settled rooted (push rooted stack part) := by
  unfold Path.push
  split
  · exact h
  · next hdot =>
    split
    · next hup =>
      cases stack with
      | nil =>
        cases rooted with
        | true => exact h
        | false => exact ⟨hdot, fun _ => ⟨rfl, by simp⟩, trivial⟩
      | cons top rest =>
        -- two dots on top of two dots stay, any other part is taken by them
        by_cases htop : top = ".."
        · simp only [if_pos htop]
          obtain ⟨hrooted, hrest⟩ := h.2.1 htop
          exact ⟨hdot, fun _ => ⟨hrooted, by simpa [htop] using hrest⟩, h⟩
        · simpa only [if_neg htop] using h.2.2
    · next hup => exact ⟨hdot, fun hup' => absurd hup' hup, h⟩

/-- To add a part to a stack is to go there. At the root there is nothing to take, and no place above. -/
theorem walk_push {origin : Place} (horigin : rooted = true → origin = []) (h : Settled rooted stack)
    (part : String) :
    walk origin (push rooted stack part).reverse = enter (walk origin stack.reverse) part := by
  unfold Path.push
  split
  · next hdot => simp [enter, hdot]
  · next hdot =>
    split
    · next hup =>
      -- a step up takes a name off the path, unless the path has gone up already or is at the root
      cases stack with
      | nil =>
        cases rooted with
        | true => simp [horigin rfl, enter, hup]
        | false => simp [hup]
      | cons top rest =>
        by_cases htop : top = ".."
        · simp only [if_pos htop]
          rw [List.reverse_cons, walk_concat]
        · simp [htop, hup, enter, h.1]
    · next hup => simp

/-- To add some parts to a stack is to go there. -/
theorem walk_foldl_push {origin : Place} (horigin : rooted = true → origin = []) (ps : List String)
    (h : Settled rooted stack) :
    walk origin (ps.foldl (push rooted) stack).reverse = walk (walk origin stack.reverse) ps := by
  induction ps generalizing stack with
  | nil => rfl
  | cons part ps ih => rw [List.foldl_cons, ih (h.push part), walk_push horigin h, walk_cons]

end

/-- What is on the stack was there before or is the part that was pushed. -/
theorem mem_push {rooted : Bool} {stack : List String} {part q : String}
    (h : q ∈ push rooted stack part) : q = part ∨ q ∈ stack := by
  unfold Path.push at h
  split at h
  · exact .inr h
  · split at h
    · cases stack with
      | nil => cases rooted <;> simp_all
      | cons top rest =>
        simp only at h
        split at h
        · simpa using h
        · exact .inr (List.mem_cons_of_mem _ h)
    · simpa using h

/-- What is on the stack was there before or is one of the parts. -/
theorem mem_foldl_push {rooted : Bool} (ps : List String) {stack : List String} {q : String}
    (h : q ∈ ps.foldl (push rooted) stack) : q ∈ ps ∨ q ∈ stack := by
  induction ps generalizing stack with
  | nil => exact .inr h
  | cons part ps ih =>
    rcases ih h with h | h
    · exact .inl (List.mem_cons_of_mem _ h)
    · rcases mem_push h with rfl | h
      · exact .inl List.mem_cons_self
      · exact .inr h

/-- Names with slashes between them do not begin at the root. -/
theorem isRooted_intercalate {ps : List String} (h : ∀ p ∈ ps, IsName p) :
    isRooted ("/".intercalate ps) = false := by
  cases ps with
  | nil => rfl
  | cons p ps =>
    obtain ⟨⟨hne, hslash⟩, -⟩ := List.forall_mem_cons.mp h
    -- the first character is that of the first element, and names have no slashes
    have hfirst : ("/".intercalate (p :: ps)).toList.head? = p.toList.head? := by
      cases hcs : p.toList with
      | nil => exact absurd (by simpa using hcs) hne
      | cons c cs => cases ps <;> simp [String.toList_intercalate, hcs]
    unfold isRooted
    rw [hfirst]
    cases hcs : p.toList with
    | nil => rfl
    | cons c cs =>
      rw [hcs] at hslash
      simpa using fun hc : c = '/' => hslash (hc ▸ List.mem_cons_self)

/-- The shortest path to a place starts where the path starts, and leads to the same place. -/
theorem place_clean (here : Place) (path : String) : place here (clean path) = place here path := by
  let stack := (parts path).foldl (push (isRooted path)) []
  have hnames : ∀ p ∈ stack.reverse, IsName p := by
    intro p hp
    rcases mem_foldl_push _ (List.mem_reverse.mp hp) with hp | hp
    · exact isName_of_mem_parts hp
    · cases hp
  have hparts : parts ("/".intercalate stack.reverse) = stack.reverse := parts_intercalate hnames
  have hplace : walk (start here path) stack.reverse = place here path :=
    walk_foldl_push (fun hrooted => if_pos hrooted) _ trivial
  have hclean : clean path = if isRooted path then "/" ++ "/".intercalate stack.reverse
      else if "/".intercalate stack.reverse = "" then "." else "/".intercalate stack.reverse := rfl
  rw [hclean]
  -- at the root a slash stands in front of the parts, elsewhere a dot stands for no parts
  cases hrooted : isRooted path with
  | true =>
    have hstart : start here ("/" ++ "/".intercalate stack.reverse) = start here path := by
      refine start_eq_of_isRooted_eq ?_
      rw [hrooted]
      simp [isRooted]
    have hslash : parts ("/" ++ "/".intercalate stack.reverse) = stack.reverse := by
      rw [parts_eq_names, String.toList_append]
      exact (names_slash _).trans hparts
    rw [if_pos rfl, place, hstart, hslash, hplace]
  | false =>
    rw [if_neg Bool.false_ne_true]
    split
    · next hempty =>
      have hnone : stack.reverse = [] := by rw [← hparts, hempty]; rfl
      rw [← hplace, hnone, start, hrooted]
      rfl
    · rw [place, hparts, ← hplace, start_eq_of_isRooted_eq ((isRooted_intercalate hnames).trans hrooted.symm)]

/-- A path that does not end at the root of a file system has a name at its end. -/
theorem slash_not_mem_base {path : String} (hpath : path ≠ "")
    (hparts : isRooted path = true → parts path ≠ []) : '/' ∉ (base path).toList := by
  unfold base
  split
  · next part hlast => exact (isName_of_mem_parts (List.mem_of_getLast? hlast)).2
  · next hnone =>
    rw [List.getLast?_eq_none_iff] at hnone
    cases hcs : path.toList with
    | nil => exact absurd (by simpa using hcs) hpath
    | cons c cs =>
      have hc : c ≠ '/' := by
        rintro rfl
        exact hparts (by simp [isRooted, hcs]) hnone
      rw [parts_eq_names, hcs] at hnone
      exact absurd hnone (names_ne_nil hc cs)

example : place ["home"] "out/./a/../b/" = ["home", "out", "b"] := by decide

example : place ["home", "user"] "../../../tmp/out" = place [] "/tmp/./out" := by decide

/-- The name of a source without its ending. -/
def stem (path : String) : String := dropEnding (base path) (extension path)

/-- A name joined to a directory is entered from there. -/
theorem place_join (here : Place) {dir name : String} (hdir : dir ≠ "") (hname : IsName name) :
    place here (join dir name) = enter (place here dir) name := by
  have hjoin : join dir name = clean (dir ++ "/" ++ name) := by
    simp [join, hdir, hname.1, String.intercalate_cons_cons]
  have hparts : parts (dir ++ "/" ++ name) = parts dir ++ [name] := by
    rw [parts_eq_names, show (dir ++ "/" ++ name).toList = dir.toList ++ '/' :: name.toList by simp,
      names_append, ← parts_eq_names, ← parts_eq_names, parts_of_isName hname]
  have hstart : start here (dir ++ "/" ++ name) = start here dir := by
    refine start_eq_of_isRooted_eq ?_
    cases hcs : dir.toList with
    | nil => exact absurd (by simpa using hcs) hdir
    | cons c cs => simp [isRooted, hcs]
  rw [hjoin, place_clean, place, hstart, hparts, walk_concat, place]

/-- The program of a source is written right in the directory for the output, under the name of the
source. -/
theorem place_outputPath (here : Place) {dir path : String} (hdir : dir ≠ "")
    (hbase : '/' ∉ (base path).toList) :
    place here (outputPath dir path) = place here dir ++ [stem path ++ ".pir"] := by
  -- the stem may be empty or dots, but with the ending it is a name
  have hname : IsName (stem path ++ ".pir") := by
    refine ⟨by simp, ?_⟩
    have hstem : '/' ∉ (stem path).toList := by
      unfold stem dropEnding
      dsimp only
      split
      · rw [String.toList_ofList]
        exact fun h => hbase (List.mem_of_mem_take h)
      · exact hbase
    simpa using hstem
  have hlength : 4 ≤ (stem path ++ ".pir").length := by
    rw [String.length_append]
    exact Nat.le_add_left _ _
  have hne {dots : String} (hdots : dots.length < 4) : stem path ++ ".pir" ≠ dots :=
    fun h => absurd (h ▸ hlength) (Nat.not_le.mpr hdots)
  rw [outputPath, ← stem, place_join here hdir hname, enter_name (hne (by decide)) (hne (by decide))]

end Path

end ScriptPir
