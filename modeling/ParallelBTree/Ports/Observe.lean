import ParallelBTree.Ports.Represent

/-!
# Reading a tree off the memory

What a tree object holds, read from its root through live slots only: the keys
in `keys[0..keysnum)` of a node and, unless the node is a leaf, the nodes in
`children[0..keysnum]`.  The readers are programs like the member functions
themselves and fault where those would.
-/

namespace ParallelBTree.Ports

open ParallelBTree.Verified.Program
open ParallelBTree.Verified.Multiway
open ParallelBTree.Ports.NodeMemory
open ParallelBTree.Ports.Represent

namespace BTreeNode

/-- The live keys of a node. -/
def liveKeys (p : Addr) : M (List Int) := do
  listUp (← node p).keysnum (keyAt p)

/-- What `f` makes of the live children of a node. -/
def overKids {α : Type} (p : Addr) (f : Addr → M α) : M (List α) := do
  let nd ← node p
  if nd.leaf then pure []
  else listUp (nd.keysnum + 1) fun i => do f (← child p i)

/-- A subtree read from the leaves up. -/
def foldTree {α : Type} (step : Addr → List Int → List α → α) :
    Nat → Addr → M α
  | 0, _ => throw .fuel
  | fuel + 1, p => do
      let xs ← overKids p (foldTree step fuel)
      pure (step p (← liveKeys p) xs)

end BTreeNode

namespace BTree

/-- A tree object read from the leaves up. -/
def foldTree {α : Type} (empty : α) (step : Addr → List Int → List α → α)
    (b : BTree) : Except Fault α :=
  match b.root with
  | none => pure empty
  | some r => do
      let (x, _) ← BTreeNode.foldTree step b.mem.nodes.length r b.mem
      pure x

/-- The live keys in order. -/
def contents (b : BTree) : Except Fault (List Int) :=
  b.foldTree [] fun _ => interleave

/-- The identities of the nodes reached from the root, one for each way to
reach it. -/
def reached (b : BTree) : Except Fault (List Addr) :=
  b.foldTree [] fun p _ xs => p :: xs.flatten

/-- `q` is reached from `p` by `d` steps through live child slots of nodes that
are not leaves. -/
inductive Below (m : Mem) (p : Addr) : Nat → Addr → Prop where
  | self : Below m p 0 p
  | kid {d : Nat} {q c : Addr} {i : Nat} {nd : BTreeNode} (h : Below m p d q)
      (hget : m.get q = some nd) (hleaf : nd.leaf = false)
      (hi : i ≤ nd.keysnum) (hc : nd.children.cells[i]? = some (some (some c))) :
      Below m p (d + 1) c

end BTree

namespace Represent

variable {m : Mem} {t : Nat}

theorem liveKeys_run {p : Addr} {leaf : Bool} {K : List Int} {P : List Addr}
    (h : Live m t p leaf K P) : BTreeNode.liveKeys p m = .ok (K, m) := by
  obtain ⟨nd, hget, hnd⟩ := h
  unfold BTreeNode.liveKeys
  rw [bind_run_ok (node_run hget), hnd.keysnum_eq]
  exact listUp_run K rfl fun j x hx => keyAt_run hget (hnd.key_at hx)

/-- The readers see the tree that is in memory. -/
theorem foldTree_run {α : Type} (step : Addr → List Int → List α → α) :
    ∀ (n : Nat) (T : Tree Int n) (fuel : Nat), n < fuel → Rep m t n T →
      WF t n T → BTreeNode.foldTree step fuel T.id m = .ok (fold step n T, m) := by
  intro n
  induction n with
  | zero =>
      intro T fuel hfuel h _
      obtain ⟨f, rfl⟩ := Nat.exists_eq_add_one_of_ne_zero hfuel.ne'
      obtain ⟨nd, hget, hnd⟩ := h
      have hkids : BTreeNode.overKids T.id (BTreeNode.foldTree step f) m =
          .ok ([], m) := by
        unfold BTreeNode.overKids
        rw [bind_run_ok (node_run hget), if_pos hnd.leaf_eq]
        rfl
      unfold BTreeNode.foldTree
      rw [bind_run_ok hkids, bind_run_ok (liveKeys_run ⟨nd, hget, hnd⟩)]
      rfl
  | succ n ih =>
      intro T fuel hfuel h hwf
      obtain ⟨f, rfl⟩ := Nat.exists_eq_add_one_of_ne_zero
        (Nat.zero_lt_of_lt hfuel).ne'
      obtain ⟨nd, hget, hnd⟩ := h.1
      have hlen : T.kids.length = T.keys.length + 1 := hwf.2.1
      have hkids : BTreeNode.overKids T.id (BTreeNode.foldTree step f) m =
          .ok (T.kids.map (fold step n), m) := by
        unfold BTreeNode.overKids
        rw [bind_run_ok (node_run hget), if_neg (by simp [hnd.leaf_eq])]
        apply listUp_run
        · rw [List.length_map, hlen, hnd.keysnum_eq]
        · intro j x hx
          rw [List.getElem?_map] at hx
          obtain ⟨c, hc, rfl⟩ := Option.map_eq_some_iff.mp hx
          have hmem := List.mem_of_getElem? hc
          rw [bind_run_ok (h.kid_run hc).1]
          exact ih c f (Nat.lt_of_succ_lt_succ hfuel) (h.2 c hmem)
            (hwf.kid hmem).2
      unfold BTreeNode.foldTree
      rw [bind_run_ok hkids, bind_run_ok (liveKeys_run h.1)]
      rfl

/-- Every node below a tree is the root of a subtree, at the height the number
of steps leaves. -/
theorem subtree_of_below {n : Nat} {T : Tree Int n} (h : Rep m t n T)
    (hwf : WF t n T) {d : Nat} {q : Addr} (hq : BTree.Below m T.id d q) :
    ∃ k, d + k = n ∧ ∃ S : Tree Int k, S.id = q ∧ Rep m t k S ∧ WF t k S ∧
      (if d = 0 then T.size else t - 1) ≤ S.size := by
  induction hq with
  | self => exact ⟨n, Nat.zero_add n, T, rfl, h, hwf, Nat.le_refl _⟩
  | @kid d q c i nd _ hget hleaf hi hc ih =>
      obtain ⟨k, hk, S, rfl, hS, hSwf, -⟩ := ih
      obtain ⟨nd', hget', hnd⟩ := hS.root
      obtain rfl : nd = nd' := Option.some.inj (hget.symm.trans hget')
      cases k with
      | zero => exact absurd (hleaf.symm.trans hnd.leaf_eq) (by decide)
      | succ k =>
          have hlen : S.kids.length = S.keys.length + 1 := hSwf.2.1
          have hlt : i < S.kids.length := by
            rw [hnd.keysnum_eq] at hi
            omega
          have hmem : S.kids[i] ∈ S.kids := List.getElem_mem hlt
          have hid : (S.kids.map Node.id)[i]? = some S.kids[i].id := by
            rw [List.getElem?_map, List.getElem?_eq_getElem hlt]
            rfl
          have hslot := hnd.kid_at hid
          rw [hc] at hslot
          obtain ⟨hsize, hkid⟩ := hSwf.kid hmem
          refine ⟨k, by omega, S.kids[i], ?_, hS.2 _ hmem, hkid, ?_⟩
          · exact (Option.some.inj (Option.some.inj (Option.some.inj hslot))).symm
          · rw [if_neg (Nat.succ_ne_zero d)]
            exact hsize

end Represent

end ParallelBTree.Ports
