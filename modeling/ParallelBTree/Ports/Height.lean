import ParallelBTree.Ports.Runs
import ParallelBTree.Verified.Occupancy

/-!
# The height of a tree object

`LeafDepth` reads the depth of the leaves off the memory.  For an object that
holds a tree it is the height in the tree's type, so what the calls do to it can
be read off the trees they leave: a full root is the only thing that makes
`insert` add a level, and `remove` takes away at most one.

## Main results

* `height_reachable` — the number of keys bounds the height from both sides, and
  what one more call does to it.
-/

namespace ParallelBTree.Ports.BTree

open ParallelBTree.Verified.Program
open ParallelBTree.Verified.Multiway
open ParallelBTree.Ports.NodeMemory
open ParallelBTree.Ports.Represent

/-- The leaves are `h` levels below the root: one is there, and none is anywhere
else. -/
def LeafDepth (b : BTree) (h : Nat) : Prop :=
  ∃ r, b.root = some r ∧
    (∃ q nd, Below b.mem r h q ∧ b.mem.get q = some nd ∧ nd.leaf = true) ∧
    ∀ d q nd, Below b.mem r d q → b.mem.get q = some nd → nd.leaf = true → d = h

/-- The root holds `2t - 1` keys. -/
def RootFull (b : BTree) : Prop :=
  ∃ r nd, b.root = some r ∧ b.mem.get r = some nd ∧ nd.keysnum = 2 * b.t - 1

section Depth

variable {m : Mem} {t n : Nat} {T : Tree Int n}

/-- There is a node on every level. -/
theorem exists_below (h : Rep m t n T) (hwf : WF t n T) :
    ∀ d ≤ n, ∃ q, Below m T.id d q := by
  intro d
  induction d with
  | zero => exact fun _ => ⟨T.id, .self⟩
  | succ d ih =>
      intro hd
      obtain ⟨q, hq⟩ := ih (Nat.le_of_succ_le hd)
      obtain ⟨k, hk, S, rfl, hS, hSwf, -⟩ := subtree_of_below h hwf hq
      obtain ⟨k, rfl⟩ : ∃ j, k = j + 1 := ⟨k - 1, by omega⟩
      obtain ⟨c, B, hC⟩ : ∃ c B, S.kids = c :: B :=
        List.exists_cons_of_length_eq_add_one hSwf.2.1
      obtain ⟨nd, hget, hnd⟩ := hS.1
      have hslot : nd.children.cells[0]? = some (some (some c.id)) :=
        hnd.kid_at (by rw [hC]; rfl)
      exact ⟨c.id, hq.kid hget hnd.leaf_eq (Nat.zero_le _) hslot⟩

/-- A node of a tree is a leaf exactly if it is on the last level. -/
theorem leaf_iff_of_below (h : Rep m t n T) (hwf : WF t n T) {d : Nat} {q : Addr}
    (hq : Below m T.id d q) :
    ∃ nd, m.get q = some nd ∧ (nd.leaf = true ↔ d = n) := by
  obtain ⟨k, hk, S, rfl, hS, -, -⟩ := subtree_of_below h hwf hq
  obtain ⟨nd, hget, hnd⟩ := hS.root
  refine ⟨nd, hget, ?_⟩
  rw [hnd.leaf_eq, isLeaf, decide_eq_true_iff]
  omega

end Depth

namespace Holding

variable {b : BTree} {n : Nat} {T : Tree Int n}

theorem leafDepth (h : b.Holding T) : b.LeafDepth n := by
  refine ⟨T.id, h.root, ?_, ?_⟩
  · obtain ⟨q, hq⟩ := exists_below h.rep h.wf n (Nat.le_refl n)
    obtain ⟨nd, hget, hleaf⟩ := leaf_iff_of_below h.rep h.wf hq
    exact ⟨q, nd, hq, hget, hleaf.mpr rfl⟩
  · intro d q nd hq hget hleaf
    obtain ⟨nd', hget', hiff⟩ := leaf_iff_of_below h.rep h.wf hq
    obtain rfl : nd = nd' := Option.some.inj (hget.symm.trans hget')
    exact hiff.mp hleaf

/-- The depth of the leaves is the height of the tree. -/
theorem leafDepth_iff (h : b.Holding T) (k : Nat) : b.LeafDepth k ↔ k = n := by
  constructor
  · rintro ⟨r, hroot, ⟨q, nd, hq, hget, hleaf⟩, -⟩
    obtain ⟨r', hroot', -, honly⟩ := h.leafDepth
    obtain rfl : r = r' := Option.some.inj (hroot.symm.trans hroot')
    exact honly k q nd hq hget hleaf
  · rintro rfl
    exact h.leafDepth

theorem rootFull_iff (h : b.Holding T) : b.RootFull ↔ T.size = 2 * b.t - 1 := by
  obtain ⟨nd, hget, hnd⟩ := h.rep.root
  have hnum : nd.keysnum = T.size := hnd.keysnum_eq
  constructor
  · rintro ⟨r, nd', hroot, hget', hfull⟩
    obtain rfl : T.id = r := Option.some.inj (h.root.symm.trans hroot)
    obtain rfl : nd = nd' := Option.some.inj (hget.symm.trans hget')
    exact hnum.symm.trans hfull
  · intro hfull
    exact ⟨T.id, nd, h.root, hget, hnum.trans hfull⟩

/-- A full root is split under a new one; otherwise the height stays. -/
theorem insert_height (ht : 2 ≤ b.t) (h : b.Holding T) (key : Int) :
    ∃ b', b.exec (.insert key) = .ok (true, b') ∧
      (b.RootFull → b'.LeafDepth (n + 1)) ∧ (¬ b.RootFull → b'.LeafDepth n) := by
  rw [h.rootFull_iff]
  by_cases hfull : T.size = 2 * b.t - 1
  · obtain ⟨r, root, m, hexec, rfl, T', hT', -⟩ :=
      exec_of_returns (.insert key) (insert_full ht h key hfull)
    exact ⟨_, hexec, fun _ => hT'.leafDepth, fun hnot => absurd hfull hnot⟩
  · obtain ⟨r, root, m, hexec, rfl, T', hT', -⟩ :=
      exec_of_returns (.insert key) (insert_roomy ht h key hfull)
    exact ⟨_, hexec, fun hyes => absurd hyes hfull, fun _ => hT'.leafDepth⟩

/-- A removal takes away one level at most. -/
theorem remove_height (ht : 2 ≤ b.t) (h : b.Holding T) (key : Int) :
    ∃ b', b.exec (.remove key) = .ok (true, b') ∧
      (b'.root ≠ none → ∃ k, b'.LeafDepth k ∧ k ≤ n ∧ n ≤ k + 1) := by
  obtain ⟨r, root, m, hexec, -, rfl, hleft⟩ :=
    exec_of_returns (.remove key) (remove_holding_traced ht h key)
  refine ⟨_, hexec, fun hroot => ?_⟩
  rcases hleft with ⟨hvac, -⟩ | ⟨k, hle, hge, T', hT', -⟩
  · exact absurd hvac.root hroot
  · exact ⟨k, hT'.leafDepth, hle, hge⟩

end Holding

/-- The height of every reachable tree is logarithmic in the number of its keys;
it grows by one when a key is inserted below a full root and only then, and
never by a removal, which lowers it by one at most. -/
theorem height_reachable (t : Nat) (ht : 2 ≤ t) (ops : List Op) :
    ∃ b L, (BTree.new t).run ops = .ok b ∧ b.contents = .ok L ∧
      (b.root ≠ none → ∃ h, (∀ k, b.LeafDepth k ↔ k = h) ∧
        2 * t ^ h - 1 ≤ L.length ∧ L.length ≤ (2 * t) ^ (h + 1) - 1 ∧
        (∀ key, ∃ b', b.exec (.insert key) = .ok (true, b') ∧
          (b.RootFull → b'.LeafDepth (h + 1)) ∧
          (¬ b.RootFull → b'.LeafDepth h)) ∧
        ∀ key, ∃ b', b.exec (.remove key) = .ok (true, b') ∧
          (b'.root ≠ none → ∃ k, b'.LeafDepth k ∧ k ≤ h ∧ h ≤ k + 1)) := by
  obtain ⟨b, hrun, rfl, h⟩ := run_stores ht ops
  refine ⟨b, _, hrun, h.contents, fun hroot => ?_⟩
  generalize ops.foldl sortedStep [] = L at h
  cases h with
  | vacant h => exact absurd h.root hroot
  | @holding n T h =>
      have hlow := le_gaps_root n T h.wf h.size
      have hhigh := gaps_le n T (by omega) h.wf
      exact ⟨n, h.leafDepth_iff, by omega, by omega, h.insert_height ht,
        h.remove_height ht⟩

theorem height_reachable_two :
    ∃ b L, (BTree.new 2).run [.insert 1, .insert 2, .insert 3] = .ok b ∧
      b.contents = .ok L ∧
      (b.root ≠ none → ∃ h, (∀ k, b.LeafDepth k ↔ k = h) ∧
        2 * 2 ^ h - 1 ≤ L.length ∧ L.length ≤ (2 * 2) ^ (h + 1) - 1 ∧
        (∀ key, ∃ b', b.exec (.insert key) = .ok (true, b') ∧
          (b.RootFull → b'.LeafDepth (h + 1)) ∧
          (¬ b.RootFull → b'.LeafDepth h)) ∧
        ∀ key, ∃ b', b.exec (.remove key) = .ok (true, b') ∧
          (b'.root ≠ none → ∃ k, b'.LeafDepth k ∧ k ≤ h ∧ h ≤ k + 1)) :=
  height_reachable 2 (by decide) [.insert 1, .insert 2, .insert 3]

end ParallelBTree.Ports.BTree
