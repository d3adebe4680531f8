import ParallelBTree.Ports.Runs

/-!
# What the public calls do, over every history

The two mutating members of `BTree` against a sorted list.  Every statement is
about an object made by `BTree(t)` and any finite sequence of calls on it, with
any keys.

## Main results

* `contents_refine` — the live keys, read in order, are the sorted list that the
  same calls leave behind, and there is a root exactly when it is not empty.
* `shape_reachable` — occupancy, equal depth and live child slots.
* `calls_return` — no call leaves an array, follows a slot it may not follow, or
  touches a deleted node.
* `remove_reports_iff` — when the result of `remove` says whether a key went.
-/

namespace ParallelBTree.Ports.BTree

open ParallelBTree.Verified.Program
open ParallelBTree.Verified.Multiway
open ParallelBTree.Ports.NodeMemory
open ParallelBTree.Ports.Represent

/-- The tree refines the sorted list: the in-order list of live keys is the
list that the same calls make of an empty one, and there is a root exactly when
it is not empty. -/
theorem contents_refine (t : Nat) (ht : 2 ≤ t) (ops : List Op) :
    ∃ b, (BTree.new t).run ops = .ok b ∧
      b.contents = .ok (ops.foldl sortedStep []) ∧
      Sorted (ops.foldl sortedStep []) ∧
      (b.root = none ↔ ops.foldl sortedStep [] = []) := by
  obtain ⟨b, hrun, -, h⟩ := run_stores ht ops
  exact ⟨b, hrun, h.contents, h.sorted, h.root_eq_none⟩

theorem contents_refine_three :
    ∃ b, (BTree.new 3).run [.insert 7, .insert (-2), .insert 7, .remove 7,
        .remove 5] = .ok b ∧
      b.contents = .ok [-2, 7] ∧ Sorted ([-2, 7] : List Int) ∧
      (b.root = none ↔ ([-2, 7] : List Int) = []) :=
  contents_refine 3 (by decide) [.insert 7, .insert (-2), .insert 7, .remove 7,
    .remove 5]

/-- Every call returns: none of the accesses that the accessors of the node
memory refuse is ever made. -/
theorem calls_return (t : Nat) (ht : 2 ≤ t) (ops : List Op) (op : Op) :
    ∃ b r b', (BTree.new t).run ops = .ok b ∧ b.exec op = .ok (r, b') := by
  obtain ⟨b, hrun, hb, h⟩ := run_stores ht ops
  obtain ⟨r, b', hexec, -, -⟩ := h.exec (hb ▸ ht) op
  exact ⟨b, r, b', hrun, hexec⟩

theorem calls_return_three :
    ∃ b r b', (BTree.new 3).run [.insert 1, .insert 2] = .ok b ∧
      b.exec (.remove 1) = .ok (r, b') :=
  calls_return 3 (by decide) [.insert 1, .insert 2] (.remove 1)

/-! ## Shape -/

/-- The shape of the tree below `r`: with leaves `h` levels down, what a node
`d` levels down looks like. -/
structure NodeShape (t h d : Nat) (nd : BTreeNode) : Prop where
  t_eq : nd.t = t
  root_keys : d = 0 → 1 ≤ nd.keysnum
  inner_keys : d ≠ 0 → t - 1 ≤ nd.keysnum
  keys_le : nd.keysnum ≤ 2 * t - 1
  leaf_iff : nd.leaf = true ↔ d = h
  children : nd.leaf = false → ∀ i ≤ nd.keysnum,
    ∃ c, nd.children.cells[i]? = some (some (some c))

theorem Holding.shape {b : BTree} {n : Nat} {T : Tree Int n} (h : b.Holding T)
    {d : Nat} {q : Addr} (hq : Below b.mem T.id d q) :
    ∃ nd, b.mem.get q = some nd ∧ NodeShape b.t n d nd := by
  obtain ⟨k, hk, S, rfl, hS, hwf, hsize⟩ := subtree_of_below h.rep h.wf hq
  obtain ⟨nd, hget, hnd⟩ := hS.root
  have hnum : nd.keysnum = S.size := hnd.keysnum_eq
  refine ⟨nd, hget, ?_⟩
  constructor
  · exact hnd.t_eq
  · rintro rfl
    rw [if_pos rfl] at hsize
    rw [hnum]
    exact le_trans h.size hsize
  · intro hd
    rw [if_neg hd] at hsize
    rwa [hnum]
  · rw [hnum]
    exact hwf.size_le
  · rw [hnd.leaf_eq, isLeaf, decide_eq_true_iff]
    omega
  · intro hleaf i hi
    have hinner : isLeaf k = false := hnd.leaf_eq.symm.trans hleaf
    have hlen := ptrs_length hwf.branching hinner
    have hlt : i < (ptrs k S.kids).length := by
      rw [hlen]
      rw [hnum, Node.size] at hi
      omega
    rw [hinner] at hnd
    exact ⟨_, hnd.kid_at (List.getElem?_eq_getElem hlt)⟩

/-- Every reachable tree is a B-tree: some depth is the depth of all leaves,
and all nodes have the shape that belongs to theirs. -/
theorem shape_reachable (t : Nat) (ht : 2 ≤ t) (ops : List Op) :
    ∃ b, (BTree.new t).run ops = .ok b ∧ b.t = t ∧
      ∀ r, b.root = some r → ∃ h, ∀ d q, Below b.mem r d q →
        ∃ nd, b.mem.get q = some nd ∧ NodeShape t h d nd := by
  obtain ⟨b, hrun, rfl, h⟩ := run_stores ht ops
  refine ⟨b, hrun, rfl, ?_⟩
  intro r hr
  generalize ops.foldl sortedStep [] = L at h
  cases h with
  | vacant h => simp [h.root] at hr
  | @holding n T h =>
      obtain rfl : T.id = r := Option.some.inj (h.root.symm.trans hr)
      exact ⟨n, fun d q hq => h.shape hq⟩

theorem shape_reachable_two :
    ∃ b, (BTree.new 2).run [.insert 1, .insert 2, .insert 3, .insert 4] =
        .ok b ∧ b.t = 2 ∧
      ∀ r, b.root = some r → ∃ h, ∀ d q, Below b.mem r d q →
        ∃ nd, b.mem.get q = some nd ∧ NodeShape 2 h d nd :=
  shape_reachable 2 (by decide) [.insert 1, .insert 2, .insert 3, .insert 4]

/-! ## What `remove` reports -/

/-- `remove(key)` returns true if the key is there, and otherwise false with
the same keys stored as before. -/
def RemoveReports (b : BTree) (key : Int) : Prop :=
  ∃ L r b' L', b.contents = .ok L ∧ b.exec (.remove key) = .ok (r, b') ∧
    b'.contents = .ok L' ∧ (key ∈ L → r = true) ∧
    (key ∉ L → r = false ∧ L'.Perm L)

/-- A key that is not there is reported as removed unless the tree is empty;
the stored keys are right in every case. -/
theorem remove_reports_iff (t : Nat) (ht : 2 ≤ t) (ops : List Op) (key : Int) :
    ∃ b L, (BTree.new t).run ops = .ok b ∧ b.contents = .ok L ∧
      (b.RemoveReports key ↔ (key ∈ L ∨ b.root = none)) := by
  obtain ⟨b, hrun, hb, h⟩ := run_stores ht ops
  refine ⟨b, _, hrun, h.contents, ?_⟩
  generalize ops.foldl sortedStep [] = L at h
  obtain ⟨b', hexec, -, h'⟩ := h.remove (hb ▸ ht) key
  constructor
  · rintro ⟨L₀, r, b₁, L₁, hL, hrem, -, -, hout⟩
    obtain rfl : L = L₀ := Except.ok.inj (h.contents.symm.trans hL)
    by_cases hmem : key ∈ L
    · exact Or.inl hmem
    · right
      have hflag : b.root.isSome = r :=
        congrArg Prod.fst (Except.ok.inj (hexec.symm.trans hrem))
      simpa [(hout hmem).1] using hflag
  · intro hwhen
    refine ⟨L, _, b', _, h.contents, hexec, h'.contents, ?_, ?_⟩
    · intro hmem
      have hroot : b.root ≠ none := fun hnone => by
        simp [h.root_eq_none.mp hnone] at hmem
      exact Option.isSome_iff_ne_none.mpr hroot
    · intro hmem
      have hnone : b.root = none := hwhen.resolve_left hmem
      rw [List.erase_of_not_mem hmem, hnone]
      exact ⟨rfl, List.Perm.refl L⟩

theorem remove_reports_iff_two :
    ∃ b L, (BTree.new 2).run [.insert 1] = .ok b ∧ b.contents = .ok L ∧
      (b.RemoveReports 1 ↔ (1 ∈ L ∨ b.root = none)) :=
  remove_reports_iff 2 (by decide) [.insert 1] 1

/-- The tree holds the key 1 only; `remove(5)` returns true. -/
theorem remove_reports_absent :
    ∃ b, (BTree.new 2).run [.insert 1] = .ok b ∧ ¬ b.RemoveReports 5 := by
  refine ⟨_, rfl, ?_⟩
  rintro ⟨L, r, b', L', hL, hexec, -, -, hout⟩
  obtain rfl : [1] = L := Except.ok.inj hL
  have hflag : true = r := congrArg Prod.fst (Except.ok.inj hexec)
  exact Bool.noConfusion (hflag.trans (hout (by decide)).1)

end ParallelBTree.Ports.BTree
