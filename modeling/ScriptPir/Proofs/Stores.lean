import ScriptPir.Proofs.Places

/-!
# Changes of a file store

What a store holds is asked place by place (`FileStore.at?`). An operation that works does so at the place
its path leads to: a write leaves its content there (`FileStore.write_ok`), a new directory comes where
nothing was (`FileStore.makeDirectory_ok`), and all other places stay as they are. Where paths lead depends
on what is a directory and what is a file, not on what the files hold (`FileStore.follow_congr`).

The store is a tree that is kept as a flat list, so it has to be shown that a change at one place leaves
the others alone. From there on the list is not looked at any more: every later proof is about
`FileStore.at?`, with `Sets` for what an operation does to it.
-/

namespace ScriptPir.FileStore

variable {s t : FileStore} {path : String} {here P Q : Place}

/-! ## Places of a store

A store is a list of entries, and the root is a directory although no entry is at it. A change
replaces an entry that is there or puts one in front, and both come to the same place by place. -/

@[simp] theorem at?_nil (s : FileStore) : s.at? [] = some .directory := rfl

/-- Below the root a place has the entry that the list has for it. -/
theorem at?_of_ne_nil (h : P ≠ []) : s.at? P = s.entries.lookup P := by
  cases P with
  | nil => exact absurd rfl h
  | cons name names => rfl

/-- An entry in front of a list is found at its own place. -/
theorem lookup_cons {α : Type} (p : Place) (e : α) (entries : List (Place × α)) (Q : Place) :
    ((p, e) :: entries).lookup Q = if Q = p then some e else entries.lookup Q := by
  rw [List.lookup_cons]
  split <;> simp_all

/-- To replace an entry changes what is found at its place, if anything is. -/
theorem lookup_map_replace (entries : List (Place × Entry)) (P Q : Place) (e : Entry) :
    (entries.map fun (p, old) => if p = P then (p, e) else (p, old)).lookup Q =
      if Q = P then (entries.lookup Q).map fun _ => e else entries.lookup Q := by
  induction entries with
  | nil => simp
  | cons entry entries ih =>
    obtain ⟨p, old⟩ := entry
    rw [List.map_cons, lookup_cons]
    by_cases hp : p = P
    · simp only [hp, if_true, lookup_cons, ih]
      split <;> simp
    · simp only [if_neg hp, lookup_cons, ih]
      by_cases hQ : Q = p
      · simp [hQ, hp]
      · simp only [if_neg hQ]

/-- An entry that is put at a place is there, and nothing else is changed. -/
theorem at?_put (h : P ≠ []) (e : Entry) (Q : Place) :
    (s.put P e).at? Q = if Q = P then some e else s.at? Q := by
  by_cases hQ : Q = []
  · simp [hQ, Ne.symm h]
  rw [at?_of_ne_nil hQ, at?_of_ne_nil hQ, put]
  -- the entry replaces one, or it is put behind the others
  split
  · next hthere =>
    rw [lookup_map_replace]
    split
    · next hQP =>
      rw [hQP]
      obtain ⟨old, hold⟩ := Option.isSome_iff_exists.mp hthere
      simp [hold]
    · rfl
  · next hnone =>
    rw [List.lookup_append, lookup_cons]
    split
    · next hQP => rw [hQP, Option.not_isSome_iff_eq_none.mp hnone, Option.none_or]
    · simp

/-- Whether a place has a directory or a file, if it has anything. -/
def isDirectoryAt? (s : FileStore) (P : Place) : Option Bool := (s.at? P).map Entry.isDirectory

/-- What is no directory is a file, if it is anything. -/
theorem isDirectoryAt?_of_ne_directory {b : Bool} (hat : s.at? P ≠ some .directory)
    (h : s.isDirectoryAt? P = some b) : false = b := by
  unfold isDirectoryAt? at h
  cases hs : s.at? P with
  | none => simp [hs] at h
  | some e =>
    cases e with
    | directory => exact absurd hs hat
    | file content => simpa [hs, Entry.isDirectory] using h

/-- Two stores with an entry of one kind at a place have nothing there, directories, or files. -/
theorem cases_of_isDirectoryAt?_eq (h : s.isDirectoryAt? P = t.isDirectoryAt? P) :
    (s.at? P = none ∧ t.at? P = none) ∨
      (s.at? P = some .directory ∧ t.at? P = some .directory) ∨
      ∃ content content', s.at? P = some (.file content) ∧ t.at? P = some (.file content') := by
  unfold isDirectoryAt? at h
  cases hs : s.at? P with
  | none => cases ht : t.at? P <;> simp_all
  | some e =>
    cases ht : t.at? P with
    | none => simp_all
    | some e' => cases e <;> cases e' <;> simp_all [Entry.isDirectory]

/-! ## Following paths

A path is followed element by element, and every place on the way has to be a directory. Where it
leads to is `Path.place`, which does not ask the store; the store decides only whether the way can be
gone. -/

/-- Parts that can be followed lead through directories to the place that they say. -/
theorem follow_ok {ps : List String} (h : s.follow P ps = .ok Q) :
    Q = Path.walk P ps ∧
      ∀ qs, qs <+: ps → qs = ps ∨ s.at? (Path.walk P qs) = some .directory := by
  induction ps generalizing P with
  | nil =>
    simp only [follow, Except.ok.injEq] at h
    exact ⟨h.symm, fun qs hqs => .inl (List.prefix_nil.mp hqs)⟩
  | cons part rest ih =>
    -- each step starts in a directory
    have hstep : s.at? P = some .directory ∧ s.follow (Path.enter P part) rest = .ok Q := by
      unfold follow at h
      unfold Path.enter
      cases hP : s.at? P with
      | none => simp [hP] at h
      | some e =>
        cases e with
        | file content => simp [hP] at h
        | directory =>
          simp only [hP] at h
          refine ⟨rfl, ?_⟩
          split_ifs at h ⊢ <;> exact h
    obtain ⟨hplace, hway⟩ := ih hstep.2
    refine ⟨hplace, fun qs hqs => ?_⟩
    cases qs with
    | nil => exact .inr hstep.1
    | cons q qs =>
      obtain ⟨rfl, hrest⟩ := List.cons_prefix_cons.mp hqs
      exact (hway qs hrest).imp (congrArg _) id

/-- Where parts lead depends on the kinds of the entries on the way only. -/
theorem follow_congr {ps : List String}
    (h : ∀ qs, qs <+: ps → s.isDirectoryAt? (Path.walk P qs) = t.isDirectoryAt? (Path.walk P qs)) :
    s.follow P ps = t.follow P ps := by
  induction ps generalizing P with
  | nil => rfl
  | cons part rest ih =>
    have hP : s.isDirectoryAt? P = t.isDirectoryAt? P := h [] (List.nil_prefix)
    have hnext : s.isDirectoryAt? (Path.enter P part) = t.isDirectoryAt? (Path.enter P part) :=
      h [part] ⟨rest, rfl⟩
    have hrest : s.follow (Path.enter P part) rest = t.follow (Path.enter P part) rest :=
      ih fun qs hqs => h (part :: qs) (List.cons_prefix_cons.mpr ⟨rfl, hqs⟩)
    -- whether the next element is there is asked too, to tell what is missing
    have hsome : (s.at? (Path.enter P part)).isSome = (t.at? (Path.enter P part)).isSome := by
      simpa [isDirectoryAt?] using congrArg Option.isSome hnext
    unfold follow
    unfold Path.enter at hsome hrest
    rcases cases_of_isDirectoryAt?_eq hP with ⟨hs, ht⟩ | ⟨hs, ht⟩ | ⟨_, _, hs, ht⟩
    · simp only [hs, ht]
    · simp only [hs, ht]
      split_ifs at hsome hrest ⊢ <;> simp_all
    · simp only [hs, ht]

/-- Where a path leads depends on the kinds of the entries on its way only. -/
theorem follow_parts_congr
    (hkind : ∀ Q ∈ Path.way here path, s.isDirectoryAt? Q = t.isDirectoryAt? Q) :
    s.follow (Path.start here path) (Path.parts path) =
      t.follow (Path.start here path) (Path.parts path) :=
  follow_congr fun qs hqs => hkind _ (Path.mem_way.mpr ⟨qs, hqs, rfl⟩)

/-! ## Finding entries

The equation comes first: what is found is what the store has at the place that the path leads to.
Two stores with directories and files at the same places find entries alike. -/

/-- To find an entry, follow the path and look at the place it leads to. -/
theorem find_eq (s : FileStore) (here : Place) (path : String) :
    s.find here path =
      if path = "" then .error .missing
      else match s.follow (Path.start here path) (Path.parts path) with
        | .error cause => .error cause
        | .ok place => match s.at? place with
          | none => .error .missing
          | some e =>
            if Path.endsWithSlash path && !e.isDirectory then .error .notDirectory
            else .ok (place, e) := by
  simp only [find, bind, Except.bind, pure, Except.pure, throw, throwThe, MonadExceptOf.throw]
  split
  · rfl
  · cases s.follow (Path.start here path) (Path.parts path) with
    | error cause => rfl
    | ok place =>
      cases hat : s.at? place with
      | none => simp [hat]
      | some e =>
        simp [hat]

/-- A path that can be found leads to the place that its parts say, on a way of directories. -/
theorem find_ok {e : Entry} (h : s.find here path = .ok (P, e)) :
    path ≠ "" ∧ P = Path.place here path ∧ s.at? P = some e ∧
      ∀ Q ∈ Path.way here path, Q = P ∨ s.at? Q = some .directory := by
  rw [find_eq] at h
  split_ifs at h with hpath
  cases hfollow : s.follow (Path.start here path) (Path.parts path) with
  | error cause => simp [hfollow] at h
  | ok place =>
    -- the path was followed to its place, so all that is on the way is a directory
    obtain ⟨rfl, hway⟩ := follow_ok hfollow
    cases hat : s.at? (Path.walk (Path.start here path) (Path.parts path)) with
    | none => simp [hfollow, hat] at h
    | some e' =>
      simp only [hfollow, hat] at h
      split_ifs at h
      obtain ⟨rfl, rfl⟩ : Path.walk (Path.start here path) (Path.parts path) = P ∧ e' = e := by
        simpa using h
      refine ⟨by simpa using hpath, rfl, hat, fun Q hQ => ?_⟩
      obtain ⟨qs, hqs, rfl⟩ := Path.mem_way.mp hQ
      exact (hway qs hqs).imp (congrArg _) id

/-- What a path leads to depends on the kinds of the entries on its way and on the entry at its end. -/
theorem find_congr (hkind : ∀ Q ∈ Path.way here path, s.isDirectoryAt? Q = t.isDirectoryAt? Q)
    (hend : s.at? (Path.place here path) = t.at? (Path.place here path)) :
    s.find here path = t.find here path := by
  rw [find_eq, find_eq, ← follow_parts_congr hkind]
  cases hplace : s.follow (Path.start here path) (Path.parts path) with
  | error cause => rfl
  | ok place =>
    obtain rfl : place = Path.place here path := (follow_ok hplace).1
    simp only [hend]

/-- Whether a path leads to a directory depends on the kinds of the entries on its way. -/
theorem isDirectory?_congr (hkind : ∀ Q ∈ Path.way here path, s.isDirectoryAt? Q = t.isDirectoryAt? Q) :
    s.isDirectory? here path = t.isDirectory? here path := by
  -- at the end of the path there is an entry of the same kind, or none in either
  have hend : s.isDirectoryAt? (Path.place here path) = t.isDirectoryAt? (Path.place here path) :=
    hkind _ (Path.place_mem_way here path)
  unfold isDirectory?
  rw [find_eq, find_eq, ← follow_parts_congr hkind]
  split_ifs with hpath
  · rfl
  cases hplace : s.follow (Path.start here path) (Path.parts path) with
  | error cause => rfl
  | ok place =>
    obtain rfl : place = Path.place here path := (follow_ok hplace).1
    rcases cases_of_isDirectoryAt?_eq hend with ⟨hs, ht⟩ | ⟨hs, ht⟩ | ⟨_, _, hs, ht⟩
    · simp only [hs, ht]
    · simp only [hs, ht]
    · -- a file at the end counts only if no slash asks for a directory
      simp only [hs, ht]
      cases Path.endsWithSlash path <;> rfl

/-- A path that leads to a directory leads through directories only. -/
theorem isDirectory?_true (h : s.isDirectory? here path = some true) :
    path ≠ "" ∧ ∀ Q ∈ Path.way here path, s.at? Q = some .directory := by
  unfold isDirectory? at h
  cases hfind : s.find here path with
  | error cause => simp [hfind] at h
  | ok found =>
    obtain ⟨P, e⟩ := found
    obtain ⟨hpath, -, hat, hway⟩ := find_ok hfind
    have he : e = .directory := by
      cases e with
      | directory => rfl
      | file content => simp [hfind, Entry.isDirectory] at h
    refine ⟨hpath, fun Q hQ => (hway Q hQ).elim (fun hQP => ?_) id⟩
    rw [hQP, hat, he]

/-! ## Slots

A slot is the place at which something can be made: the directory above it has to be there. What is
at the slot itself is asked by the operations that use it. -/

/-- To find a slot, follow the path but for its last element. -/
theorem slot_eq (s : FileStore) (here : Place) (path : String) :
    s.slot here path =
      if path = "" then .error .missing
      else match s.follow (Path.start here path) (Path.parts path).dropLast with
        | .error cause => .error cause
        | .ok place => match s.at? place with
          | some .directory =>
            match (Path.parts path).getLast? with
            | none | some "." | some ".." => .ok none
            | some name => .ok (some (place ++ [name]))
          | some (.file _) => .error .notDirectory
          | none => .error .missing := by
  simp only [slot, bind, Except.bind, pure, Except.pure, throw, throwThe, MonadExceptOf.throw]
  split
  · rfl
  · cases s.follow (Path.start here path) (Path.parts path).dropLast with
    | error cause => rfl
    | ok place => rfl

/-- The slot of a path is the place that its parts say, at the end of a way of directories. -/
theorem slot_ok (h : s.slot here path = .ok (some P)) :
    path ≠ "" ∧ P = Path.place here path ∧ P ≠ [] ∧
      ∀ Q ∈ Path.way here path, Q = P ∨ s.at? Q = some .directory := by
  rw [slot_eq] at h
  split_ifs at h with hpath
  rcases List.eq_nil_or_concat (Path.parts path) with hparts | ⟨above, name, hparts⟩
  · -- A path without parts is the root, which is there and is no slot.
    simp only [hparts, List.dropLast_nil, follow, List.getLast?_nil] at h
    split at h
    · simp at h
    · cases h
    · cases h
  rw [List.concat_eq_append] at hparts
  rw [hparts, List.dropLast_concat, List.getLast?_concat] at h
  cases hfollow : s.follow (Path.start here path) above with
  | error cause => simp [hfollow] at h
  | ok place =>
    obtain ⟨rfl, hway⟩ := follow_ok hfollow
    -- the path above leads to a directory, and the last element is a name
    have hslot : s.at? (Path.walk (Path.start here path) above) = some .directory ∧
        (name ≠ "." ∧ name ≠ "..") ∧ Path.walk (Path.start here path) above ++ [name] = P := by
      simp only [hfollow] at h
      split at h
      · next hat =>
        split at h
        · simp at h
        · simp at h
        · simp at h
        · next hnone hdot hup heq =>
          simp_all
      · simp at h
      · simp at h
    obtain ⟨hat, ⟨hdot, hup⟩, rfl⟩ := hslot
    have hplace : Path.walk (Path.start here path) above ++ [name] = Path.place here path := by
      rw [Path.place, hparts, Path.walk_concat, Path.enter_name hdot hup]
    refine ⟨by simpa using hpath, hplace, by simp, fun Q hQ => ?_⟩
    obtain ⟨qs, hqs, rfl⟩ := Path.mem_way.mp hQ
    rw [hparts, List.prefix_concat_iff] at hqs
    rcases hqs with rfl | hqs
    · exact .inl (by rw [hplace, Path.place, hparts])
    · rcases hway qs hqs with rfl | hdirectory
      · exact .inr hat
      · exact .inr hdirectory

/-- Whether there is a slot depends on the kinds of the entries on the way. -/
theorem slot_congr (hkind : ∀ Q ∈ Path.way here path, s.isDirectoryAt? Q = t.isDirectoryAt? Q) :
    s.slot here path = t.slot here path := by
  -- the places above are on the way of the whole path
  have habove {qs : List String} (hqs : qs <+: (Path.parts path).dropLast) :
      s.isDirectoryAt? (Path.walk (Path.start here path) qs) =
        t.isDirectoryAt? (Path.walk (Path.start here path) qs) :=
    hkind _ (Path.mem_way.mpr ⟨qs, hqs.trans (List.dropLast_prefix _), rfl⟩)
  rw [slot_eq, slot_eq, ← follow_congr fun qs hqs => habove hqs]
  cases hfollow : s.follow (Path.start here path) (Path.parts path).dropLast with
  | error cause => rfl
  | ok place =>
    obtain rfl : place = _ := (follow_ok hfollow).1
    rcases cases_of_isDirectoryAt?_eq (habove (List.prefix_refl _)) with
      ⟨hs, ht⟩ | ⟨hs, ht⟩ | ⟨_, _, hs, ht⟩ <;> simp only [hs, ht]

/-- A slot for a file is one that no directory is at. -/
theorem fileSlot_eq (s : FileStore) (here : Place) (path : String) :
    s.fileSlot here path =
      match s.slot here path with
      | .error cause => .error cause
      | .ok none => .error .isDirectory
      | .ok (some place) =>
        if Path.endsWithSlash path then .error .isDirectory
        else match s.at? place with
          | some .directory => .error .isDirectory
          | some (.file content) => .ok (place, content)
          | none => .ok (place, []) := by
  simp only [fileSlot, bind, Except.bind, pure, Except.pure, throw, throwThe, MonadExceptOf.throw]
  cases s.slot here path with
  | error cause => rfl
  | ok slot =>
    cases slot with
    | none => rfl
    | some place => cases Path.endsWithSlash path <;> rfl

/-- A file is written at the place that the parts of its path say, where no directory is. -/
theorem fileSlot_ok {content : List UInt8} (h : s.fileSlot here path = .ok (P, content)) :
    P = Path.place here path ∧ P ≠ [] ∧ s.at? P ≠ some .directory := by
  rw [fileSlot_eq] at h
  cases hslot : s.slot here path with
  | error cause => simp [hslot] at h
  | ok slot =>
    cases slot with
    | none => simp [hslot] at h
    | some place =>
      obtain ⟨-, hplace, hne, -⟩ := slot_ok hslot
      simp only [hslot] at h
      split_ifs at h
      -- at the slot there is a directory, a file or nothing
      split at h
      · simp at h
      · next hat =>
        obtain ⟨rfl, -⟩ : place = P ∧ _ := by simpa using h
        exact ⟨hplace, hne, by simp [hat]⟩
      · next hat =>
        obtain ⟨rfl, -⟩ : place = P ∧ _ := by simpa using h
        exact ⟨hplace, hne, by simp [hat]⟩

/-- Where a file can be written depends on the kinds of the entries on its way. -/
theorem fileSlot_congr (hkind : ∀ Q ∈ Path.way here path, s.isDirectoryAt? Q = t.isDirectoryAt? Q) :
    (s.fileSlot here path).map (·.1) = (t.fileSlot here path).map (·.1) := by
  rw [fileSlot_eq, fileSlot_eq, ← slot_congr hkind]
  cases hslot : s.slot here path with
  | error cause => rfl
  | ok slot =>
    cases slot with
    | none => rfl
    | some place =>
      obtain rfl := (slot_ok hslot).2.1
      -- the slot is the end of the way
      have hend := hkind _ (Path.place_mem_way here path)
      simp only
      split_ifs
      · rfl
      · rcases cases_of_isDirectoryAt?_eq hend with ⟨hs, ht⟩ | ⟨hs, ht⟩ | ⟨_, _, hs, ht⟩ <;>
          simp only [hs, ht, Except.map]

/-! ## Changes

Each operation that works sets one place (`Sets`). What many operations in a row do to a store is
said by relations that are closed under one more change (`Gradual`): some places stay as they are,
directories are added, or kinds persist. -/

/-- A store becomes another one as an entry comes to a place. -/
def Sets (P : Place) (e : Entry) (s t : FileStore) : Prop :=
  ∀ Q, t.at? Q = if Q = P then some e else s.at? Q

/-- Puts a file into its slot, with a content made from what it held. A write and an append are cases of
this. -/
def putFile (s : FileStore) (here : Place) (path : String) (content : List UInt8 → List UInt8) :
    Except FileCause FileStore :=
  (s.fileSlot here path).map fun slot => s.put slot.1 (.file (content slot.2))

theorem write_eq (s : FileStore) (here : Place) (path : String) (content : List UInt8) :
    s.write here path content = s.putFile here path fun _ => content := by
  unfold write putFile
  cases s.fileSlot here path <;> rfl

theorem append_eq (s : FileStore) (here : Place) (path : String) (content : List UInt8) :
    s.append here path content = s.putFile here path (· ++ content) := by
  unfold append putFile
  cases s.fileSlot here path <;> rfl

/-- A file comes to the place of its path, at which no directory was. -/
theorem putFile_ok {content : List UInt8 → List UInt8} (h : s.putFile here path content = .ok t) :
    s.at? (Path.place here path) ≠ some .directory ∧
      ∃ old, Sets (Path.place here path) (.file (content old)) s t := by
  unfold putFile at h
  cases hslot : s.fileSlot here path with
  | error cause => simp [hslot, Except.map] at h
  | ok slot =>
    obtain ⟨P, old⟩ := slot
    obtain ⟨rfl, hne, hat⟩ := fileSlot_ok hslot
    obtain rfl : s.put (Path.place here path) (.file (content old)) = t := by
      simpa [hslot, Except.map] using h
    exact ⟨hat, old, at?_put hne _⟩

/-- A write that works sets the place of its path, at which no directory was. -/
theorem write_ok {content : List UInt8} (h : s.write here path content = .ok t) :
    s.at? (Path.place here path) ≠ some .directory ∧
      Sets (Path.place here path) (.file content) s t := by
  rw [write_eq] at h
  obtain ⟨hat, -, hsets⟩ := putFile_ok h
  exact ⟨hat, hsets⟩

/-- An append that works sets the place of its path, at which no directory was. -/
theorem append_ok {content : List UInt8} (h : s.append here path content = .ok t) :
    s.at? (Path.place here path) ≠ some .directory ∧
      ∃ whole, Sets (Path.place here path) (.file whole) s t := by
  rw [append_eq] at h
  obtain ⟨hat, old, hsets⟩ := putFile_ok h
  exact ⟨hat, _, hsets⟩

/-- A directory that was made is at the place of its path, where nothing was, and all places on the way
to it were directories before. -/
theorem makeDirectory_ok (h : s.makeDirectory here path = .ok t) :
    (path ≠ "" ∧
      ∀ Q ∈ Path.way here path, Q = Path.place here path ∨ s.at? Q = some .directory) ∧
      s.at? (Path.place here path) = none ∧ Sets (Path.place here path) .directory s t := by
  simp only [makeDirectory, bind, Except.bind, pure, Except.pure, throw, throwThe,
    MonadExceptOf.throw] at h
  cases hslot : s.slot here path with
  | error cause => simp [hslot] at h
  | ok slot =>
    cases slot with
    | none => simp [hslot] at h
    | some P =>
      obtain ⟨hpath, rfl, hne, hway⟩ := slot_ok hslot
      simp only [hslot] at h
      split_ifs at h with hat
      obtain rfl : s.put (Path.place here path) .directory = t := by simpa using h
      exact ⟨⟨hpath, hway⟩, by simpa using hat, at?_put hne _⟩

/-- A relation between what a store holds before and after some changes. -/
class Gradual (R : FileStore → FileStore → Prop) : Prop where
  refl (s : FileStore) : R s s
  trans {s t u : FileStore} : R s t → R t u → R s u

instance : Gradual (Eq : FileStore → FileStore → Prop) := ⟨fun _ => rfl, Eq.trans⟩

/-- Two stores that hold the same but for one place. -/
def SameOff (L : Option Place) (s t : FileStore) : Prop := ∀ Q, L ≠ some Q → t.at? Q = s.at? Q

instance (L : Option Place) : Gradual (SameOff L) where
  refl _ _ _ := rfl
  trans hst htu Q hQ := (htu Q hQ).trans (hst Q hQ)

/-- To set a place changes nothing off it. -/
theorem Sets.sameOff {e : Entry} (h : Sets P e s t) : SameOff (some P) s t := by
  intro Q hQ
  rw [h, if_neg]
  rintro rfl
  exact hQ rfl

/-- A store becomes another one in which directories are added at some places. One place is not looked
at. -/
def Paves (L : Option Place) (dirs : List Place) (s t : FileStore) : Prop :=
  ∀ Q, L ≠ some Q → t.at? Q = s.at? Q ∨ Q ∈ dirs ∧ s.at? Q = none ∧ t.at? Q = some .directory

instance (L : Option Place) (dirs : List Place) : Gradual (Paves L dirs) where
  refl _ _ _ := .inl rfl
  trans {s t u} hst htu Q hL := by
    rcases hst Q hL with hold | ⟨hQ, hnone, hnew⟩
    · rw [← hold]
      exact htu Q hL
    · rcases htu Q hL with hold | ⟨-, hnone', -⟩
      · exact .inr ⟨hQ, hnone, hold.trans hnew⟩
      · rw [hnew] at hnone'
        cases hnone'

/-- If nothing changes off a place, no directories are added off it. -/
theorem SameOff.paves {L : Option Place} {dirs : List Place} (h : SameOff L s t) : Paves L dirs s t :=
  fun Q hL => .inl (h Q hL)

/-- To set a directory where nothing was adds a directory. -/
theorem Sets.paves {L : Option Place} {dirs : List Place} (h : Sets P .directory s t) (hP : P ∈ dirs)
    (hnone : s.at? P = none) : Paves L dirs s t := by
  intro Q _
  by_cases hQ : Q = P
  · exact .inr ⟨hQ ▸ hP, hQ ▸ hnone, by rw [h, if_pos hQ]⟩
  · exact .inl (by rw [h, if_neg hQ])

/-- What is a directory in a store is one in another store too, and what is a file is a file. -/
def Persists (s t : FileStore) : Prop :=
  ∀ Q b, s.isDirectoryAt? Q = some b → t.isDirectoryAt? Q = some b

instance : Gradual Persists where
  refl _ _ _ h := h
  trans hst htu Q b h := htu Q b (hst Q b h)

/-- To set an entry of the kind that was there changes no kinds. -/
theorem Sets.persists {e : Entry} (h : Sets P e s t)
    (hkind : ∀ b, s.isDirectoryAt? P = some b → e.isDirectory = b) : Persists s t := by
  intro Q b hb
  unfold isDirectoryAt?
  rw [h]
  split
  · next hQ => exact congrArg some (hkind b (hQ ▸ hb))
  · exact hb

/-! ## The same change of two stores

A log may be written while other files are read, so what it holds must make no difference. Two stores
that differ in the content of one file only are changed alike by every operation, and an append to
that file keeps them so. -/

/-- Two stores that hold the same but for one place, where they may hold different files. -/
structure Alike (L : Option Place) (s t : FileStore) : Prop where
  kind : ∀ Q, s.isDirectoryAt? Q = t.isDirectoryAt? Q
  same : SameOff L s t

/-- A change that works for both of two stores or for none, and that keeps them alike. -/
def Stable (L : Option Place) (f : FileStore → Except FileCause FileStore) : Prop :=
  ∀ s t, Alike L s t → (f s).map (fun _ => ()) = (f t).map (fun _ => ()) ∧
    ∀ s' t', f s = .ok s' → f t = .ok t' → Alike L s' t'

/-- Two stores stay alike if entries of one kind are set at one place, equal ones unless it is the place
left out. -/
theorem Alike.sets {L : Option Place} {s' t' : FileStore} {e e' : Entry} (h : Alike L s t)
    (hs : Sets P e s s') (ht : Sets P e' t t') (hkind : e.isDirectory = e'.isDirectory)
    (hsame : L = some P ∨ e = e') : Alike L s' t' where
  kind Q := by
    unfold isDirectoryAt?
    rw [hs, ht]
    split
    · exact congrArg some hkind
    · exact h.kind Q
  same Q hQ := by
    rw [hs, ht]
    split
    · next hQP =>
      rcases hsame with hL | rfl
      · exact absurd (hQP ▸ hL) hQ
      · rfl
    · exact h.same Q hQ

/-- A file is put into its slot in both of two stores or in none, and keeps them alike if it does not
depend on what it held, or is the one that may differ. -/
theorem stable_putFile {L : Option Place} {content : List UInt8 → List UInt8}
    (hsame : L = some (Path.place here path) ∨ ∀ old old', content old = content old') :
    Stable L (·.putFile here path content) := by
  have hslot (s : FileStore) : (s.putFile here path content).map (fun _ => ()) =
      ((s.fileSlot here path).map (·.1)).map fun _ => () := by
    unfold putFile
    cases s.fileSlot here path <;> rfl
  refine fun s t h => ⟨?_, fun s' t' hs ht => ?_⟩
  · simp only [hslot, fileSlot_congr fun Q _ => h.kind Q]
  · obtain ⟨-, old, hs⟩ := putFile_ok hs
    obtain ⟨-, old', ht⟩ := putFile_ok ht
    exact h.sets hs ht rfl (hsame.imp_right fun hcontent => congrArg Entry.file (hcontent old old'))

/-- A write of some content works for both of two stores or for none, and keeps them alike. -/
theorem stable_write (L : Option Place) (here : Place) (path : String) (content : List UInt8) :
    Stable L (·.write here path content) := by
  simp only [write_eq]
  exact stable_putFile (.inr fun _ _ => rfl)

/-- An append to the file that may differ works for both stores or for none, and keeps them alike. -/
theorem stable_append (here : Place) (path : String) (content : List UInt8) :
    Stable (some (Path.place here path)) (·.append here path content) := by
  simp only [append_eq]
  exact stable_putFile (.inl rfl)

/-- To make a directory works for both stores or for none, and keeps them alike. -/
theorem stable_makeDirectory (L : Option Place) (here : Place) (path : String) :
    Stable L (·.makeDirectory here path) := by
  refine fun s t h => ⟨?_, fun s' t' hs ht => ?_⟩
  -- stores that are alike have something at the same places
  · have hsome (P : Place) : (s.at? P).isSome = (t.at? P).isSome := by
      simpa [isDirectoryAt?] using congrArg Option.isSome (h.kind P)
    dsimp only
    unfold makeDirectory
    rw [slot_congr fun Q _ => h.kind Q]
    cases t.slot here path with
    | error cause => rfl
    | ok slot =>
      cases slot with
      | none => rfl
      | some place =>
        simp only [bind, Except.bind, hsome]
        split <;> rfl
  · exact h.sets (makeDirectory_ok hs).2.2 (makeDirectory_ok ht).2.2 rfl (.inr rfl)

end ScriptPir.FileStore
