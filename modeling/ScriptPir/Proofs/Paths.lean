import Mathlib.Data.List.Sort
import ScriptPir.Proofs.Shape

/-!
# Paths in a tree

A path goes down from a node by the indices of children. The nodes that a tree lists are those at
the ends of its paths (`Node.mem_nodes_iff`). If the ids in a tree are all different, no two of its
paths lead to the same id (`Node.follow_inj`), and if they are the numbers below some bound, the
arena of the tree has every node at the place of its id (`Node.map_id_arena`).

Paths are the addresses of nodes in proofs, ids the addresses in the program. The theorems here lead
from one to the other: an id that stands in a tree leads to one path, and a path to one id.
-/

namespace ScriptPir.Node

/-! ## Children

An absent child has its index but no path leads to it. -/

/-- A child is at an index if it stands there and is not absent. -/
theorem child?_eq_some {n c : Node} {i : Nat} :
    n.child? i = some c ↔ n.children[i]? = some c ∧ c ≠ .absent := by
  unfold child?
  cases n.children[i]? with
  | none => simp
  | some m =>
    cases m with
    | absent =>
      simp only [reduceCtorEq, Option.some.injEq, false_iff, not_and, not_not]
      exact fun h => h.symm
    | mk id kind token children =>
      simp only [Option.some.injEq, iff_self_and]
      rintro rfl
      exact nofun

/-- The node at the end of a path. -/
def follow (n : Node) : List Nat → Option Node
  | [] => some n
  | i :: path => (n.child? i).bind (follow · path)

@[simp] theorem follow_nil (n : Node) : n.follow [] = some n := rfl

theorem follow_cons_eq_some {n m : Node} {i : Nat} {path : List Nat} :
    n.follow (i :: path) = some m ↔ ∃ c, n.child? i = some c ∧ c.follow path = some m :=
  Option.bind_eq_some_iff

/-- Two paths, one behind the other, lead to where the second leads from the end of the first. -/
theorem follow_append (n : Node) (p q : List Nat) :
    n.follow (p ++ q) = (n.follow p).bind (·.follow q) := by
  induction p generalizing n with
  | nil => rfl
  | cons i p ih =>
    rw [List.cons_append, follow, follow]
    cases n.child? i with
    | none => rfl
    | some c => exact ih c

/-! ## The nodes of a tree

The listing of nodes takes an accumulator, which is of no interest here: it is split off first. -/

mutual

/-- The nodes of a tree are put in front of the accumulator. -/
theorem nodesOnto_eq_append (acc : List Node) (n : Node) :
    n.nodesOnto acc = n.nodesOnto [] ++ acc := by
  cases n with
  | absent => rfl
  | mk id kind token children =>
    rw [nodesOnto, nodesOnto, nodesOntoAll_eq_append acc children]
    rfl

/-- The nodes of some trees are put in front of the accumulator. -/
theorem nodesOntoAll_eq_append (acc : List Node) (ns : List Node) :
    nodesOntoAll acc ns = nodesOntoAll [] ns ++ acc := by
  cases ns with
  | nil => rfl
  | cons n ns =>
    rw [nodesOntoAll, nodesOntoAll, nodesOntoAll_eq_append acc ns, nodesOnto_eq_append _ n,
      nodesOnto_eq_append (nodesOntoAll [] ns) n, List.append_assoc]

end

/-- A node of some trees is one of one of them. -/
theorem mem_nodesOntoAll {m : Node} {ns : List Node} :
    m ∈ nodesOntoAll [] ns ↔ ∃ c ∈ ns, m ∈ c.nodesOnto [] := by
  induction ns with
  | nil => simp [nodesOntoAll]
  | cons n ns ih =>
    rw [nodesOntoAll, nodesOnto_eq_append, List.mem_append, ih]
    simp

/-- A node of a tree is its root or in one of its children. -/
theorem mem_nodes_mk {m : Node} {id : Int} {kind : Kind} {token : Token} {children : List Node} :
    m ∈ (mk id kind token children).nodesOnto [] ↔
      m = mk id kind token children ∨ ∃ c ∈ children, m ∈ c.nodesOnto [] := by
  rw [nodesOnto, List.mem_cons, mem_nodesOntoAll]

mutual

/-- The ids of the nodes of a tree are its ids, in order. -/
theorem map_id_nodesOnto (n : Node) : (n.nodesOnto []).map Node.id = n.ids := by
  cases n with
  | absent => rfl
  | mk id kind token children =>
    rw [nodesOnto, List.map_cons, map_id_nodesOntoAll children]
    rfl

/-- The ids of the nodes of some trees are their ids, in order. -/
theorem map_id_nodesOntoAll (ns : List Node) : (nodesOntoAll [] ns).map Node.id = idsAll ns := by
  cases ns with
  | nil => rfl
  | cons n ns =>
    rw [nodesOntoAll, nodesOnto_eq_append, List.map_append, map_id_nodesOnto n,
      map_id_nodesOntoAll ns]
    rfl

end

/-! ## Where paths lead

A path may be found for every node by recursion on the tree; that there is only one is due to the ids
being different. -/

mutual

/-- To every node of a tree leads a path. -/
theorem exists_follow {n m : Node} (h : m ∈ n.nodesOnto []) :
    m ≠ .absent ∧ ∃ path, n.follow path = some m := by
  cases n with
  | absent => cases h
  | mk id kind token children =>
    rw [nodesOnto, List.mem_cons] at h
    obtain rfl | h := h
    · exact ⟨nofun, [], rfl⟩
    · obtain ⟨hm, i, c, path, hi, hc, hpath⟩ := exists_follow_child h
      exact ⟨hm, i :: path, follow_cons_eq_some.mpr ⟨c, child?_eq_some.mpr ⟨hi, hc⟩, hpath⟩⟩

/-- To every node of some trees leads a path that begins at one of them. -/
theorem exists_follow_child {ns : List Node} {m : Node} (h : m ∈ nodesOntoAll [] ns) :
    m ≠ .absent ∧ ∃ (i : Nat) (c : Node) (path : List Nat),
      ns[i]? = some c ∧ c ≠ .absent ∧ c.follow path = some m := by
  cases ns with
  | nil => cases h
  | cons n ns =>
    rw [nodesOntoAll, nodesOnto_eq_append, List.mem_append] at h
    obtain h | h := h
    · obtain ⟨hm, path, hpath⟩ := exists_follow h
      refine ⟨hm, 0, n, path, rfl, ?_, hpath⟩
      rintro rfl
      cases h
    · obtain ⟨hm, i, c, path, hi, hc, hpath⟩ := exists_follow_child h
      exact ⟨hm, i + 1, c, path, hi, hc, hpath⟩

end

/-- What a path leads to is a node of the tree. -/
theorem mem_nodes_of_follow {n m : Node} {path : List Nat} (hm : m ≠ .absent)
    (h : n.follow path = some m) : m ∈ n.nodesOnto [] := by
  induction path generalizing n with
  | nil =>
    obtain rfl := Option.some.inj h
    cases n with
    | absent => exact absurd rfl hm
    | mk id kind token children => exact mem_nodes_mk.mpr (.inl rfl)
  | cons i path ih =>
    obtain ⟨c, hc, hpath⟩ := follow_cons_eq_some.mp h
    have hmem : c ∈ n.children := List.mem_of_getElem? (child?_eq_some.mp hc).1
    cases n with
    | absent => cases hmem
    | mk id kind token children => exact mem_nodes_mk.mpr (.inr ⟨c, hmem, ih hpath⟩)

/-- The nodes of a tree are those at the ends of its paths. -/
theorem mem_nodes_iff {n m : Node} :
    m ∈ n.nodesOnto [] ↔ m ≠ .absent ∧ ∃ path, n.follow path = some m := by
  constructor
  · exact exists_follow
  · rintro ⟨hm, path, h⟩
    exact mem_nodes_of_follow hm h

/-- A child of a node of a tree is a node of it. -/
theorem mem_nodes_child {root m c : Node} (hm : m ∈ root.nodesOnto []) (hc : c ∈ m.children)
    (habsent : c ≠ .absent) : c ∈ root.nodesOnto [] := by
  obtain ⟨-, path, hpath⟩ := mem_nodes_iff.mp hm
  obtain ⟨i, hi⟩ := List.mem_iff_getElem?.mp hc
  refine mem_nodes_iff.mpr ⟨habsent, path ++ [i], ?_⟩
  rw [follow_append, hpath]
  exact follow_cons_eq_some.mpr ⟨c, child?_eq_some.mpr ⟨hi, habsent⟩, rfl⟩

/-- What a path leads to has an id of the tree. -/
theorem id_mem_of_follow {n m : Node} {path : List Nat} (hm : m ≠ .absent)
    (h : n.follow path = some m) : m.id ∈ n.ids := by
  rw [← map_id_nodesOnto]
  exact List.mem_map_of_mem (mem_nodes_of_follow hm h)

/-- What a path below the root leads to has an id of the children. -/
theorem id_mem_of_follow_cons {n m : Node} {i : Nat} {path : List Nat} (hm : m ≠ .absent)
    (h : n.follow (i :: path) = some m) : m.id ∈ idsAll n.children := by
  obtain ⟨c, hc, hpath⟩ := follow_cons_eq_some.mp h
  have hmem : c ∈ n.children := List.mem_of_getElem? (child?_eq_some.mp hc).1
  exact (ids_sublist_idsAll hmem).subset (id_mem_of_follow hm hpath)

/-- Different trees of a list have no id in common. -/
theorem index_inj {ns : List Node} (hnodup : (idsAll ns).Nodup) {i j : Nat} {a b : Node} {x : Int}
    (ha : ns[i]? = some a) (hb : ns[j]? = some b) (hxa : x ∈ a.ids) (hxb : x ∈ b.ids) : i = j := by
  induction ns generalizing i j with
  | nil => cases ha
  | cons n ns ih =>
    rw [idsAll, List.nodup_append] at hnodup
    obtain ⟨-, hrest, hdisjoint⟩ := hnodup
    -- an id of the first tree is in none of the others
    cases i with
    | zero =>
      obtain rfl := Option.some.inj ha
      cases j with
      | zero => rfl
      | succ j =>
        have hb : b ∈ ns := List.mem_of_getElem? hb
        exact absurd rfl (hdisjoint x hxa x ((ids_sublist_idsAll hb).subset hxb))
    | succ i =>
      cases j with
      | zero =>
        obtain rfl := Option.some.inj hb
        have ha : a ∈ ns := List.mem_of_getElem? ha
        exact absurd rfl (hdisjoint x hxb x ((ids_sublist_idsAll ha).subset hxa))
      | succ j => rw [ih hrest ha hb]

/-- In a tree with different ids no two paths lead to the same id. -/
theorem follow_inj {n : Node} (hnodup : n.ids.Nodup) {p q : List Nat} {m m' : Node}
    (hm : m ≠ .absent) (hm' : m' ≠ .absent) (hp : n.follow p = some m) (hq : n.follow q = some m')
    (hid : m.id = m'.id) : p = q := by
  induction p generalizing n q with
  | nil =>
    obtain rfl := Option.some.inj hp
    cases q with
    | nil => rfl
    | cons j q =>
      -- the node would be below itself
      cases n with
      | absent => exact absurd rfl hm
      | mk id kind token children =>
        have hmem := id_mem_of_follow_cons hm' hq
        rw [← hid] at hmem
        exact absurd hmem (List.nodup_cons.mp hnodup).1
  | cons i p ih =>
    cases n with
    | absent => cases hp
    | mk id kind token children =>
      rw [ids, List.nodup_cons] at hnodup
      cases q with
      | nil =>
        obtain rfl := Option.some.inj hq
        have hmem := id_mem_of_follow_cons hm hp
        rw [hid] at hmem
        exact absurd hmem hnodup.1
      | cons j q =>
        obtain ⟨a, ha, hp⟩ := follow_cons_eq_some.mp hp
        obtain ⟨b, hb, hq⟩ := follow_cons_eq_some.mp hq
        have ha := (child?_eq_some.mp ha).1
        have hb := (child?_eq_some.mp hb).1
        have hma := id_mem_of_follow hm hp
        have hmb := id_mem_of_follow hm' hq
        rw [← hid] at hmb
        obtain rfl := index_inj hnodup.2 ha hb hma hmb
        rw [ha] at hb
        obtain rfl := Option.some.inj hb
        rw [ih (hnodup.2.sublist (ids_sublist_idsAll (List.mem_of_getElem? ha))) hp hq]

/-! ## The arena

The arena is the list of nodes sorted by id. If the ids are the numbers below a bound, sorting them
gives the numbers in order. -/

theorem mem_arena {n m : Node} : m ∈ n.arena ↔ m ∈ n.nodesOnto [] := List.mem_mergeSort

/-- If the ids of a tree are the numbers below a bound, its arena has every node at the place of its
id. -/
theorem map_id_arena {n : Node} {made : Nat}
    (hcount : ∀ i : Int, n.ids.count i = if 0 ≤ i ∧ i < made then 1 else 0) :
    n.arena.map Node.id = (List.range made).map Int.ofNat := by
  -- the ids are those numbers in some order, as each of them is counted once
  have hperm : (n.arena.map Node.id).Perm ((List.range made).map Int.ofNat) := by
    refine ((List.mergeSort_perm _ _).map _).trans ?_
    rw [map_id_nodesOnto, List.perm_iff_count]
    intro i
    have hnodup : ((List.range made).map Int.ofNat).Nodup :=
      List.nodup_range.map fun a b h => Int.ofNat.inj h
    rw [hcount i, hnodup.count]
    have hmem : i ∈ (List.range made).map Int.ofNat ↔ 0 ≤ i ∧ i < made := by
      rw [List.mem_map]
      constructor
      · rintro ⟨k, hk, rfl⟩
        have := List.mem_range.mp hk
        simp only [Int.ofNat_eq_natCast]
        omega
      · rintro ⟨hpos, hlt⟩
        exact ⟨i.toNat, List.mem_range.mpr (by omega), Int.toNat_of_nonneg hpos⟩
    simp only [hmem]
  -- and both lists are sorted
  have hsorted : (n.arena.map Node.id).Pairwise (· ≤ ·) := by
    rw [List.pairwise_map]
    refine (List.pairwise_mergeSort ?_ ?_ _).imp of_decide_eq_true
    · intro a b c hab hbc
      simp only [decide_eq_true_eq] at *
      omega
    · intro a b
      simp only [Bool.or_eq_true, decide_eq_true_eq]
      omega
  have hrange : ((List.range made).map Int.ofNat).Pairwise (· ≤ ·) := by
    rw [List.pairwise_map]
    refine List.pairwise_lt_range.imp fun h => ?_
    simp only [Int.ofNat_eq_natCast]
    omega
  exact hperm.eq_of_pairwise' hsorted hrange

end ScriptPir.Node
