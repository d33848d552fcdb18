import ScriptPir.Build
import ScriptPir.Host.World
import ScriptPir.Proofs.Stores

/-!
# Programs in a world

A property of programs is *tame* if it holds for what is put together from programs with it, and for the
questions to a system that have nothing to do with what files hold (`World.Tame`). What a program is put
together from is said once, for all tame properties. There are two of them: a program changes the files
only as a relation allows (`World.Keeps`), and a program does the same whatever the file at some place
holds (`World.Steady`). Both are about programs that run in one directory, which none of them leaves.

To make a directory adds directories on the way to it; if that works, all places on the way have
directories (`World.makeDirectories_ok`).
-/

namespace ScriptPir

open FileStore (Gradual Paves Persists SameOff Stable)

/-- The place of the file that a log is written to. -/
def Log.place? (here : Place) : Option Log.Logger → Option Place
  | some ⟨_, _, .file path⟩ => some (Path.place here path)
  | _ => none

namespace World

variable {α β : Type}

/-! ## Requests in a world

What each request to the system comes to, in the words of the store. -/

theorem run_pure (a : α) (w : World) : (pure a : StateM World α).run w = (a, w) := rfl

theorem run_bind (p : StateM World α) (f : α → StateM World β) (w : World) :
    (p >>= f).run w = (f (p.run w).1).run (p.run w).2 := rfl

/-- To ask for a directory is to look at the files from the working directory. -/
theorem run_isDirectory? (path : String) (w : World) :
    (Host.isDirectory? path : StateM World _).run w = (w.files.isDirectory? w.current path, w) := rfl

theorem run_read (path : String) (w : World) :
    (Host.read path : StateM World _).run w = (w.read path, w) := rfl

theorem run_site (w : World) : (Host.site : StateM World _).run w = (w.site, w) := rfl

theorem run_makeDirectory (path : String) (w : World) :
    (Host.makeDirectory path : StateM World _).run w =
      World.change .making path (·.makeDirectory · path) w := rfl

theorem run_write (path : String) (content : List UInt8) (w : World) :
    (Host.write path content : StateM World _).run w =
      World.change .opening path (·.write · path content) w := rfl

theorem run_append (path : String) (content : List UInt8) (w : World) :
    (Host.append path content : StateM World _).run w =
      World.change .opening path (·.append · path content) w := rfl

/-! ## Directories, one step at a time

A directory is made by a recursion on paths with an early end at each step. The steps are named here,
so that theorems can speak of one at a time. -/

/-- Forgives that a directory was not made, if it is there. -/
def forgive (path : String) : Except FileError Unit → StateM World (Except FileError Unit)
  | .ok () => return .ok ()
  | .error e => do
    if (← Host.isDirectory? path) = some true then return .ok () else return .error e

/-- Makes the last directory of a path, after those above it. -/
def makeLast (path : String) : Except FileError Unit → StateM World (Except FileError Unit)
  | .error e => return .error e
  | .ok () => Host.makeDirectory path >>= forgive path

/-- Makes the directories above a path. -/
def makeAbove (path : String) : StateM World (Except FileError Unit) :=
  if Path.parent path = "" then pure (.ok ()) else makeDirectories (Path.parent path)

/-- Makes directories if a path leads to nothing. -/
def makeMissing (path : String) : Option Bool → StateM World (Except FileError Unit)
  | some true => return .ok ()
  | some false => return .error ⟨.making, path, .notDirectory⟩
  | none => makeAbove path >>= makeLast path

/-- Directories are made if the path leads to none. -/
theorem makeDirectories_eq (path : String) :
    makeDirectories path = Host.isDirectory? path >>= makeMissing path := by
  rw [makeDirectories]
  refine bind_congr fun there => ?_
  cases there with
  | none =>
    by_cases htop : Path.parent path = ""
    · simp only [makeMissing, makeAbove, if_pos htop]
      rfl
    · simp only [makeMissing, makeAbove, if_neg htop]
      refine bind_congr fun above => ?_
      cases above <;> rfl
  | some b => cases b <;> rfl

/-! ## What programs are put together from

A program of this development asks, emits, reads and changes, and puts such steps one behind the
other. With the rules of `Tame`, only the steps that touch files remain to be looked at. -/

/-- A property that holds for what is put together from programs with it, and for the questions to a system
that have nothing to do with what files hold. -/
structure Tame (C : (α : Type) → StateM World α → Prop) : Prop where
  pure {α : Type} (a : α) : C α (pure a)
  bind {α β : Type} {p : StateM World α} {f : α → StateM World β} (hp : C α p)
    (hf : ∀ a, C β (f a)) : C β (p >>= f)
  isDirectory? (path : String) : C _ (Host.isDirectory? path)
  emit (c : Channel) (text : String) : C _ (Host.emit c text)
  site : C _ Host.site
  recordTime (format : Log.Format) : C _ (Host.recordTime format)

namespace Tame

variable {C : (α : Type) → StateM World α → Prop} {log : Option Log.Logger}

/-- A program for each of some things is tame if each of them is. -/
theorem forM (h : Tame C) {f : α → StateM World PUnit} (hf : ∀ a, C _ (f a)) (l : List α) :
    C _ (l.forM f) := by
  induction l with
  | nil => exact h.pure _
  | cons a l ih => exact h.bind (hf a) fun _ => ih

/-- A log asks for the end of its own file. -/
theorem writeNotices (h : Tame C) (here : Place) (ns : List Notice)
    (happend : ∀ path content, Log.place? here log = some (Path.place here path) →
      C _ (Host.append path content)) :
    C _ (Log.writeNotices log ns) := by
  refine h.forM (fun n => ?_) ns
  cases log with
  | none => exact h.pure ()
  | some log =>
    obtain ⟨level, format, sink⟩ := log
    unfold Log.write Log.Logger.write
    dsimp only
    split
    · refine h.bind (h.recordTime format) fun time => ?_
      cases sink with
      | report => exact h.emit .report _
      | file path => exact h.bind (happend path _ rfl) fun _ => h.pure ()
    · exact h.pure ()

/-- To make a directory asks for directories on the way to it. -/
theorem makeDirectories (h : Tame C) (here : Place) (path : String)
    (hmake : ∀ dir, Path.place here dir ∈ Path.way here path → C _ (Host.makeDirectory dir)) :
    C _ (ScriptPir.makeDirectories path) := by
  rw [makeDirectories_eq]
  refine h.bind (h.isDirectory? path) fun there => ?_
  unfold makeMissing
  -- there is a directory, there is something else, or the ones above are made first
  split
  · exact h.pure _
  · exact h.pure _
  · refine h.bind ?_ fun above => ?_
    · unfold makeAbove
      split
      · exact h.pure _
      · next habove =>
        exact h.makeDirectories here (Path.parent path) fun dir hdir =>
          hmake dir ((Path.mem_way_iff_parent habove).mpr (.inl hdir))
    · unfold makeLast
      split
      · exact h.pure _
      · refine h.bind (hmake path (Path.place_mem_way here path)) fun made => ?_
        unfold forgive
        split
        · exact h.pure _
        · refine h.bind (h.isDirectory? path) fun there => ?_
          split <;> exact h.pure _
termination_by path.toList.length
decreasing_by exact Path.length_parent_lt _ ‹_›

end Tame

/-! ## What programs change

`Keeps` carries a relation on stores over to programs. With `SameOff` and `Paves` it says which
places a program leaves alone, and with `Persists` that no directory turns into a file. -/

/-- A program changes the files only as a relation allows, if it runs in some directory. It stays there. -/
structure Keeps (here : Place) (R : FileStore → FileStore → Prop) (α : Type) (p : StateM World α) :
    Prop where
  files {w : World} (h : w.current = here) : R w.files (p.run w).2.files
  current (w : World) : (p.run w).2.current = w.current
  site (w : World) : (p.run w).2.site = w.site

variable {here : Place} {R : FileStore → FileStore → Prop} [Gradual R] {L : Option Place}

/-- What leaves the files, the directory and the site alone keeps to every relation. -/
theorem keeps_of_same {p : StateM World α} (hfiles : ∀ w, (p.run w).2.files = w.files)
    (hcurrent : ∀ w, (p.run w).2.current = w.current) (hsite : ∀ w, (p.run w).2.site = w.site) :
    Keeps here R α p where
  files {w} _ := by
    rw [hfiles]
    exact Gradual.refl _
  current := hcurrent
  site := hsite

/-- To change files only as a relation allows is tame. -/
theorem tame_keeps (here : Place) : Tame (Keeps here R) where
  pure _ := keeps_of_same (fun _ => rfl) (fun _ => rfl) fun _ => rfl
  bind {α β p f} hp hf := by
    refine ⟨fun {w} h => ?_, fun w => ?_, fun w => ?_⟩
    · exact Gradual.trans (hp.files h) ((hf _).files ((hp.current w).trans h))
    · exact ((hf _).current _).trans (hp.current w)
    · exact ((hf _).site _).trans (hp.site w)
  isDirectory? _ := keeps_of_same (fun _ => rfl) (fun _ => rfl) fun _ => rfl
  emit _ _ := keeps_of_same (fun _ => rfl) (fun _ => rfl) fun _ => rfl
  site := keeps_of_same (fun _ => rfl) (fun _ => rfl) fun _ => rfl
  recordTime _ := keeps_of_same (fun _ => rfl) (fun _ => rfl) fun _ => rfl

theorem keeps_read (here : Place) (path : String) : Keeps here R _ (Host.read path) :=
  keeps_of_same (fun _ => rfl) (fun _ => rfl) fun _ => rfl

/-- A change keeps to a relation if it does so where it works: where it fails, nothing is changed. -/
theorem keeps_change {f : FileStore → Place → Except FileCause FileStore}
    (h : ∀ s t, f s here = .ok t → R s t) (action : FileAction) (path : String) :
    Keeps here R _ (World.change action path f) where
  files {w} hw := by
    subst hw
    simp only [StateT.run, World.change]
    split
    · next heq => exact h _ _ heq
    · exact Gradual.refl _
  current w := by
    simp only [StateT.run, World.change]
    split <;> rfl
  site w := by
    simp only [StateT.run, World.change]
    split <;> rfl

/-- A write changes no kinds. -/
theorem persists_write (here : Place) (path : String) (content : List UInt8) :
    Keeps here Persists _ (Host.write path content) := by
  refine keeps_change (fun s t h => ?_) _ _
  obtain ⟨hat, hsets⟩ := FileStore.write_ok h
  exact hsets.persists fun b hb => FileStore.isDirectoryAt?_of_ne_directory hat hb

/-- An append changes no kinds. -/
theorem persists_append (here : Place) (path : String) (content : List UInt8) :
    Keeps here Persists _ (Host.append path content) := by
  refine keeps_change (fun s t h => ?_) _ _
  obtain ⟨hat, whole, hsets⟩ := FileStore.append_ok h
  exact hsets.persists fun b hb => FileStore.isDirectoryAt?_of_ne_directory hat hb

/-- To make a directory changes no kinds. -/
theorem persists_makeDirectory (here : Place) (path : String) :
    Keeps here Persists _ (Host.makeDirectory path) := by
  refine keeps_change (fun s t h => ?_) _ _
  obtain ⟨-, hnone, hsets⟩ := FileStore.makeDirectory_ok h
  exact hsets.persists fun b hb => by simp [FileStore.isDirectoryAt?, hnone] at hb

/-- A log changes its own file only. -/
theorem sameOff_writeNotices (here : Place) (log : Option Log.Logger) (ns : List Notice) :
    Keeps here (SameOff (Log.place? here log)) _ (Log.writeNotices log ns) := by
  refine (tame_keeps here).writeNotices here ns fun path content hplace => ?_
  refine keeps_change (fun s t h => ?_) _ _
  obtain ⟨-, whole, hsets⟩ := FileStore.append_ok h
  exact hplace ▸ hsets.sameOff

/-- To make a directory adds directories on the way to it, if it changes anything. -/
theorem paves_makeDirectories (here : Place) (path : String) :
    Keeps here (Paves L (Path.way here path)) _ (makeDirectories path) := by
  refine (tame_keeps here).makeDirectories here path fun dir hdir => ?_
  refine keeps_change (fun s t h => ?_) _ _
  obtain ⟨-, hnone, hsets⟩ := FileStore.makeDirectory_ok h
  exact hsets.paves hdir hnone

/-! ## Directories that are made

By induction on the path. The directory above is there when the last one is made, and it persists. -/

/-- An error is forgiven if there is a directory. -/
theorem run_forgive_error (path : String) (e : FileError) (w : World) :
    (forgive path (.error e)).run w =
      if w.files.isDirectory? w.current path = some true then (.ok (), w) else (.error e, w) := by
  show (if w.files.isDirectory? w.current path = some true then pure (.ok ()) else pure (.error e) :
    StateM World (Except FileError Unit)).run w = _
  split <;> rfl

/-- To make directories leaves the working directory as it is. -/
theorem current_makeAbove (path : String) (w : World) :
    ((makeAbove path).run w).2.current = w.current := by
  unfold makeAbove
  split
  · rfl
  · exact (paves_makeDirectories (L := none) w.current (Path.parent path)).current w

/-- If directories could be made, they are all there. -/
theorem makeDirectories_ok {path : String} {w : World}
    (h : ((makeDirectories path : StateM World _).run w).1 = .ok ()) :
    path ≠ "" ∧ ∀ Q ∈ Path.way w.current path,
      ((makeDirectories path : StateM World _).run w).2.files.at? Q = some .directory := by
  rw [makeDirectories_eq, run_bind, run_isDirectory?] at h ⊢
  cases hthere : w.files.isDirectory? w.current path with
  | some b =>
    rw [hthere] at h
    cases b with
    | false => cases h
    | true => exact FileStore.isDirectory?_true hthere
  | none =>
    simp only [hthere, makeMissing, run_bind] at h ⊢
    have hcurrent := current_makeAbove path w
    generalize (makeAbove path).run w = above at h hcurrent ⊢
    obtain ⟨result, w₁⟩ := above
    rw [← show w₁.current = w.current from hcurrent]
    cases result with
    | error e => cases h
    | ok u =>
      simp only [makeLast, run_bind, run_makeDirectory] at h ⊢
      cases hmake : w₁.files.makeDirectory w₁.current path with
      | ok t =>
        simp only [World.change, hmake, forgive, run_pure]
        obtain ⟨⟨hpath, hway⟩, hnone, hsets⟩ := FileStore.makeDirectory_ok hmake
        refine ⟨hpath, fun Q hQ => ?_⟩
        rw [hsets]
        split
        · rfl
        · next hne => exact (hway Q hQ).resolve_left hne
      | error cause =>
        -- A directory that cannot be made may be there all the same, as for a path that ends with a dot.
        simp only [World.change, hmake, run_forgive_error] at h ⊢
        split at h
        · next hdirectory =>
          rw [if_pos hdirectory]
          exact FileStore.isDirectory?_true hdirectory
        · cases h

/-! ## What programs depend on

`Steady` carries the likeness of two stores over to programs: a run does the same whatever the file
at some place holds. The log is such a file. -/

/-- Two worlds with a program in some directory, to which everything is the same but the content of the
file at one place. -/
structure Alike (here : Place) (L : Option Place) (w w' : World) : Prop where
  files : FileStore.Alike L w.files w'.files
  current : w.current = here ∧ w'.current = here
  site : w.site = w'.site

/-- A program that does the same in two worlds that are alike, and leaves them alike. -/
structure Steady (here : Place) (L : Option Place) (α : Type) (p : StateM World α) : Prop where
  result {w w' : World} (h : Alike here L w w') : (p.run w).1 = (p.run w').1
  world {w w' : World} (h : Alike here L w w') : Alike here L (p.run w).2 (p.run w').2

/-- To do the same whatever a file holds is tame. -/
theorem tame_steady (here : Place) (L : Option Place) : Tame (Steady here L) where
  pure _ := ⟨fun _ => rfl, fun h => h⟩
  bind hp hf := by
    refine ⟨fun h => ?_, fun h => ?_⟩
    · rw [run_bind, run_bind, hp.result h]
      exact (hf _).result (hp.world h)
    · rw [run_bind, run_bind, hp.result h]
      exact (hf _).world (hp.world h)
  isDirectory? path := by
    refine ⟨fun h => ?_, fun h => h⟩
    rw [run_isDirectory?, run_isDirectory?, h.current.1, h.current.2]
    exact FileStore.isDirectory?_congr fun Q _ => h.files.kind Q
  emit _ _ := ⟨fun _ => rfl, fun h => ⟨h.files, h.current, h.site⟩⟩
  site := ⟨fun h => h.site, fun h => h⟩
  recordTime _ := ⟨fun _ => rfl, fun h => h⟩

/-- What is read does not depend on a file at another place. -/
theorem steady_read {path : String} (h : L ≠ some (Path.place here path)) :
    Steady here L _ (Host.read path) where
  result {w w'} halike := by
    have hfind : w.files.find here path = w'.files.find here path :=
      FileStore.find_congr (fun Q _ => halike.files.kind Q) (halike.files.same _ h).symm
    show World.read path w = World.read path w'
    simp only [World.read, halike.current.1, halike.current.2, hfind]
  world h := h

/-- A change that keeps stores alike is steady. -/
theorem steady_change {f : FileStore → Place → Except FileCause FileStore} (h : Stable L (f · here))
    (action : FileAction) (path : String) : Steady here L _ (World.change action path f) := by
  -- a change works for both stores or for none, and the result says which
  have hboth {w w' : World} (halike : Alike here L w w') :
      (World.change action path f w).1 = (World.change action path f w').1 ∧
        Alike here L (World.change action path f w).2 (World.change action path f w').2 := by
    obtain ⟨hsame, hstay⟩ := h w.files w'.files halike.files
    unfold World.change
    rw [halike.current.1, halike.current.2]
    cases hw : f w.files here with
    | error cause =>
      cases hw' : f w'.files here with
      | error cause' =>
        obtain rfl : cause = cause' := by simpa [hw, hw', Except.map] using hsame
        exact ⟨rfl, halike⟩
      | ok t' => simp [hw, hw', Except.map] at hsame
    | ok t =>
      cases hw' : f w'.files here with
      | error cause' => simp [hw, hw', Except.map] at hsame
      | ok t' => exact ⟨rfl, hstay t t' hw hw', ⟨rfl, rfl⟩, halike.site⟩
  exact ⟨fun h => (hboth h).1, fun h => (hboth h).2⟩

end World

end ScriptPir
