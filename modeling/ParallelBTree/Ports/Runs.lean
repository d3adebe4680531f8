import Mathlib.Data.List.Range
import ParallelBTree.Ports.Observe
import ParallelBTree.Ports.RefineRemove

/-!
# Every tree object that calls can lead to

A tree object is `Vacant`, or it is `Holding` a balanced tree with sorted
contents and at least one key in the root.  In both states every node that was
created is either in the tree, once, or was deleted, once.

`insert` and `remove` keep this, and do to the contents what they should; by
induction on the calls it holds after every history (`run_stores`).
-/

namespace ParallelBTree.Ports

open ParallelBTree.Verified.Program
open ParallelBTree.Verified.Multiway
open ParallelBTree.Ports.NodeMemory
open ParallelBTree.Ports.Descent
open ParallelBTree.Ports.Represent

namespace BTree

/-- No tree, and every node ever created has been deleted. -/
structure Vacant (b : BTree) : Prop where
  root : b.root = none
  accounts : b.mem.deleted.Perm (List.range b.mem.nodes.length)

/-- The tree `T`, and every node that is not in it has been deleted. -/
structure Holding (b : BTree) {n : Nat} (T : Tree Int n) : Prop where
  root : b.root = some T.id
  rep : Rep b.mem b.t n T
  wf : WF b.t n T
  size : 1 ≤ T.size
  sorted : Sorted (inorder n T)
  accounts : (ids n T ++ b.mem.deleted).Perm (List.range b.mem.nodes.length)

/-- What is true of a tree object between two calls, when the keys `L` are
stored in it. -/
inductive Stores (b : BTree) : List Int → Prop where
  | vacant (h : b.Vacant) : b.Stores []
  | holding {n : Nat} (T : Tree Int n) (h : b.Holding T) :
      b.Stores (inorder n T)

theorem Holding.stores {b : BTree} {n : Nat} {T : Tree Int n} {L : List Int}
    (h : b.Holding T) (hL : inorder n T = L) : b.Stores L :=
  hL ▸ .holding T h

/-- Trees have at least one node on every level. -/
theorem lt_length_ids {t : Nat} : ∀ (n : Nat) (T : Tree Int n), WF t n T →
    n < (ids n T).length := by
  intro n
  induction n with
  | zero => intro T _; simp [ids]
  | succ n ih =>
      intro T h
      obtain ⟨c, B, hC⟩ : ∃ c B, T.kids = c :: B :=
        List.exists_cons_of_length_eq_add_one h.2.1
      have hc := ih c (h.kid (by simp [hC])).2
      simp only [ids, hC, List.flatMap_cons, List.length_cons,
        List.length_append]
      omega

namespace Holding

variable {b : BTree} {n : Nat} {T : Tree Int n}

theorem nodup (h : b.Holding T) : (ids n T ++ b.mem.deleted).Nodup :=
  h.accounts.nodup_iff.mpr List.nodup_range

theorem ids_nodup (h : b.Holding T) : (ids n T).Nodup :=
  (List.nodup_append'.mp h.nodup).1

theorem deletedOld (h : b.Holding T) : DeletedOld b.mem := by
  intro q hq
  exact List.mem_range.mp
    (h.accounts.subset (List.mem_append_right _ hq))

/-- The number of nodes is fuel enough. -/
theorem fuel (h : b.Holding T) : n < b.mem.nodes.length := by
  have hlen := h.accounts.length_eq
  rw [List.length_append, List.length_range] at hlen
  have hids := lt_length_ids n T h.wf
  omega

end Holding

/-- A new object. -/
theorem vacant_new (t : Nat) : (BTree.new t).Vacant where
  root := rfl
  accounts := List.Perm.refl _

/-! ## One call of `insert` -/

section Insert

variable {b : BTree} {n : Nat} {T : Tree Int n}

private theorem accounts_insert {I J D : List Addr} {len created : Nat}
    (h : (I ++ D).Perm (List.range len))
    (hJ : J.Perm (List.range' len created ++ I)) :
    (J ++ D).Perm (List.range (len + created)) := by
  rw [List.range_eq_range', ← List.range'_append_1, ← List.range_eq_range',
    Nat.zero_add]
  apply (hJ.append_right D).trans
  rw [List.append_assoc]
  exact (h.append_left _).trans List.perm_append_comm

theorem insert_vacant_traced (ht : 2 ≤ b.t) (h : b.Vacant) (key : Int) :
    Returns (insert b.t b.root key) b.mem fun o m' =>
      m'.trace = b.mem.trace ∧ o.1 = true ∧
      ∃ T' : Tree Int 0, Holding ⟨b.t, o.2, m'⟩ T' ∧ inorder 0 T' = [key] := by
  have hfresh : b.mem.nodes.length ∉ b.mem.deleted := fun hq =>
    lt_irrefl _ (List.mem_range.mp (h.accounts.subset hq))
  have hget : (b.mem.push (.new b.t true)).get b.mem.nodes.length =
      some (.new b.t true) := Mem.get_push_self hfresh
  have F : Focus b.mem.nodes.length
      ((b.mem.push (.new b.t true)).set b.mem.nodes.length) := .of_get hget
  have hnew : newNode b.t true b.mem =
      .ok (b.mem.nodes.length, b.mem.push (.new b.t true)) := rfl
  have hcells : Cells b.t true 0
      ([] ++ none :: List.replicate (2 * b.t - 1 - 1) none)
      (([] : List Ptr).map some) (.new b.t true) := by
    have hc := Cells.new b.t true
    rw [show 2 * b.t - 1 = 2 * b.t - 1 - 1 + 1 by omega,
      List.replicate_succ] at hc
    exact hc.of_leaf
  obtain ⟨nd₁, hrun₁, hnd₁⟩ := F.setKey_run hcells key (i := 0) rfl
  obtain ⟨nd₂, hrun₂, hnd₂⟩ := F.setKeysnum_run hnd₁ 1
  rw [Mem.set_self hget] at hrun₁
  rw [h.root]
  unfold insert
  apply Returns.step hnew
  apply Returns.step hrun₁
  apply Returns.step hrun₂
  apply Returns.pure
  refine ⟨rfl, rfl, ⟨b.mem.nodes.length, [key], []⟩, ?_, rfl⟩
  exact
    { root := rfl
      rep := by
        refine ⟨nd₂, F.get nd₂, ?_⟩
        have hone : Cells b.t true 1 ([some key] ++ _) _ nd₂ := hnd₂
        exact hone.shrink
      wf := by
        show 1 ≤ 2 * b.t - 1
        omega
      size := Nat.le_refl 1
      sorted := List.pairwise_singleton _ _
      accounts := by
        have hacc : ([] ++ b.mem.deleted).Perm
            (List.range b.mem.nodes.length) := h.accounts
        have hone : ([b.mem.nodes.length] ++ b.mem.deleted).Perm
            (List.range (b.mem.nodes.length + 1)) :=
          accounts_insert hacc (List.Perm.refl [b.mem.nodes.length])
        simpa [Mem.push, ids] using hone }

theorem insert_vacant (ht : 2 ≤ b.t) (h : b.Vacant) (key : Int) :
    Returns (insert b.t b.root key) b.mem fun o m' => o.1 = true ∧
      ∃ T' : Tree Int 0, Holding ⟨b.t, o.2, m'⟩ T' ∧ inorder 0 T' = [key] :=
  (insert_vacant_traced ht h key).mono fun _ _ hpost => hpost.2

private theorem insertIn_size (rec : Tree Int n → Outcome n)
    (U : Tree Int (n + 1)) (j : Nat) : (insertIn rec U j).tree.size = U.size := by
  unfold insertIn
  split <;> rfl

/-- What an insertion into a tree leaves behind. -/
private theorem holding_insert (ht : 2 ≤ b.t) (key : Int) {U : Tree Int n}
    {m₀ m' : Mem} (hwf : WF b.t n U) (hroom : U.size < 2 * b.t - 1)
    (hsorted : Sorted (inorder n U))
    (hacc : (ids n U ++ m₀.deleted).Perm (List.range m₀.nodes.length))
    (hsize : 1 ≤ (insertNonFull b.t key n U m₀.nodes.length).tree.size)
    (hrep : Rep m' b.t n (insertNonFull b.t key n U m₀.nodes.length).tree)
    (heff : Effect m₀ m' (ids n U)
      (insertNonFull b.t key n U m₀.nodes.length).created
      (insertNonFull b.t key n U m₀.nodes.length).freed
      (insertNonFull b.t key n U m₀.nodes.length).trace) :
    Holding ⟨b.t, some U.id, m'⟩
        (insertNonFull b.t key n U m₀.nodes.length).tree ∧
      inorder n (insertNonFull b.t key n U m₀.nodes.length).tree =
        (inorder n U).orderedInsert (· ≤ ·) key := by
  have hids := insertNonFull_ids ht key n U m₀.nodes.length hwf hroom
  have hcont := insertNonFull_contents ht key n U m₀.nodes.length hwf hroom
    hsorted
  refine ⟨?_, hcont⟩
  exact
    { root := by rw [insertNonFull_id]
      rep := hrep
      wf := (insertNonFull_wf ht key n U m₀.nodes.length hwf hroom).1
      size := hsize
      sorted := by
        rw [hcont]
        exact List.Pairwise.orderedInsert key _ hsorted
      accounts := by
        rw [heff.nodes, heff.deleted, hids.2, List.append_nil]
        exact accounts_insert hacc hids.1 }

/-- The root has room. -/
theorem insert_roomy_tree (ht : 2 ≤ b.t) (h : b.Holding T) (key : Int)
    (hroom : T.size ≠ 2 * b.t - 1) :
    Returns (insert b.t b.root key) b.mem fun o m' =>
      m'.trace = b.mem.trace ++ called .insertNonFull T 0 none ::
        (insertNonFull b.t key n T b.mem.nodes.length).trace ∧
      o.1 = true ∧
      Holding ⟨b.t, o.2, m'⟩
        (insertNonFull b.t key n T b.mem.nodes.length).tree ∧
      inorder n (insertNonFull b.t key n T b.mem.nodes.length).tree =
        (inorder n T).orderedInsert (· ≤ ·) key := by
  obtain ⟨nd, hget, hnd⟩ := h.rep.root
  have hlt : T.size < 2 * b.t - 1 := by
    have hle := h.wf.size_le
    omega
  have hrec : record .insertNonFull none T.id 0 none b.mem =
      .ok ((), b.mem.logs [called .insertNonFull T 0 none]) := by
    rw [← h.rep.view_called h.wf.branching]
    rfl
  rw [h.root]
  unfold insert
  apply Returns.step (get_run b.mem)
  apply Returns.step (node_run hget)
  rw [if_pos (by rw [hnd.keysnum_eq]; exact hroom)]
  apply Returns.step hrec
  generalize hm : b.mem.logs [called .insertNonFull T 0 none] = m₀
  have hnodes : m₀.nodes = b.mem.nodes := by rw [← hm]; rfl
  have hdel : m₀.deleted = b.mem.deleted := by rw [← hm]; rfl
  have hrep : Rep m₀ b.t n T := by
    rw [← hm]
    exact h.rep.frame fun _ _ => rfl
  have hold : DeletedOld m₀ := by
    unfold DeletedOld
    rw [hnodes, hdel]
    exact h.deletedOld
  apply (insertNonFull_refines ht key n T m₀ _ h.fuel hrep h.ids_nodup
    h.wf hlt hold).seq
  rintro - m' ⟨hrep', heff⟩
  have hsize := (insertNonFull_wf ht key n T m₀.nodes.length h.wf hlt).2.1
  have hacc := h.accounts
  rw [← hnodes, ← hdel] at hacc
  have hleft := holding_insert ht key h.wf hlt h.sorted hacc
    (le_trans h.size hsize) hrep' heff
  have htrace := heff.trace
  rw [hnodes, ← hm] at htrace
  rw [hnodes] at hleft
  apply Returns.pure
  refine ⟨?_, rfl, hleft⟩
  rw [htrace]
  exact List.append_assoc _ _ _

theorem insert_roomy_traced (ht : 2 ≤ b.t) (h : b.Holding T) (key : Int)
    (hroom : T.size ≠ 2 * b.t - 1) :
    Returns (insert b.t b.root key) b.mem fun o m' =>
      m'.trace = b.mem.trace ++ called .insertNonFull T 0 none ::
        (insertNonFull b.t key n T b.mem.nodes.length).trace ∧
      o.1 = true ∧ ∃ T' : Tree Int n, Holding ⟨b.t, o.2, m'⟩ T' ∧
        inorder n T' = (inorder n T).orderedInsert (· ≤ ·) key :=
  (insert_roomy_tree ht h key hroom).mono fun _ _ hpost =>
    ⟨hpost.1, hpost.2.1, _, hpost.2.2⟩

theorem insert_roomy (ht : 2 ≤ b.t) (h : b.Holding T) (key : Int)
    (hroom : T.size ≠ 2 * b.t - 1) :
    Returns (insert b.t b.root key) b.mem fun o m' => o.1 = true ∧
      ∃ T' : Tree Int n, Holding ⟨b.t, o.2, m'⟩ T' ∧
        inorder n T' = (inorder n T).orderedInsert (· ≤ ·) key :=
  (insert_roomy_traced ht h key hroom).mono fun _ _ hpost => hpost.2

/-- The memory `m` once a node has been put above the full root of `T`. -/
private structure Raised (b : BTree) (T : Tree Int n) (m : Mem) : Prop where
  rep : Rep m b.t (n + 1) ⟨b.mem.nodes.length, [] ++ [], [] ++ T :: []⟩
  length : m.nodes.length = b.mem.nodes.length + 1
  deleted : m.deleted = b.mem.deleted
  trace : m.trace = b.mem.trace

private theorem newRoot_run (ht : 2 ≤ b.t) (h : b.Holding T) :
    ∃ m₁ m₀, newNode b.t false b.mem = .ok (b.mem.nodes.length, m₁) ∧
      setChild b.mem.nodes.length 0 (some (some T.id)) m₁ = .ok ((), m₀) ∧
      Raised b T m₀ := by
  have hget : (b.mem.push (.new b.t false)).get b.mem.nodes.length =
      some (.new b.t false) := Mem.get_push_self h.deletedOld.fresh
  have F : Focus b.mem.nodes.length
      ((b.mem.push (.new b.t false)).set b.mem.nodes.length) := .of_get hget
  have hcells : Cells b.t false 0 ([] ++ List.replicate (2 * b.t - 1) none)
      ([] ++ none :: List.replicate (2 * b.t - 1) none) (.new b.t false) := by
    have hc := Cells.new b.t false
    rwa [show List.replicate (2 * b.t) (none : Option Ptr) =
      none :: List.replicate (2 * b.t - 1) none by
        rw [← List.replicate_succ]
        congr 1
        omega] at hc
  obtain ⟨nd₁, hrun, hnd₁⟩ := F.setChild_run hcells (some (some T.id)) (i := 0)
    rfl
  rw [Mem.set_self hget] at hrun
  refine ⟨_, _, rfl, hrun, ⟨⟨nd₁, F.get nd₁, ?_⟩, ?_⟩, ?_, rfl, rfl⟩
  · have hone : Cells b.t false 0 ([] ++ _) ([some (some T.id)] ++ _) nd₁ :=
      hnd₁
    exact hone.shrink.shrink_kids
  · intro c hc
    rw [List.mem_singleton.mp hc]
    apply h.rep.frame
    intro q hq
    have hlt := h.rep.lt_length hq
    rw [Mem.get_set_ne hlt.ne]
    exact Mem.get_push_lt hlt
  · simp [Mem.push]

namespace Raised

variable {m : Mem}

theorem deletedOld (hm : Raised b T m) (h : b.Holding T) : DeletedOld m := by
  intro q hq
  rw [hm.deleted] at hq
  rw [hm.length]
  exact Nat.lt_succ_of_lt (h.deletedOld q hq)

theorem accounts (hm : Raised b T m) (h : b.Holding T) :
    (ids (n + 1) ⟨b.mem.nodes.length, [] ++ [], [] ++ T :: []⟩ ++
      m.deleted).Perm (List.range m.nodes.length) := by
  have hids : ids (n + 1) ⟨b.mem.nodes.length, [] ++ [], [] ++ T :: []⟩ =
      b.mem.nodes.length :: ids n T := by
    simp [ids]
  rw [hids, hm.length, hm.deleted, List.range_succ]
  have hcons := h.accounts.cons b.mem.nodes.length
  exact hcons.trans (List.perm_append_singleton _ _).symm

theorem nodup (hm : Raised b T m) (h : b.Holding T) :
    (ids (n + 1) ⟨b.mem.nodes.length, [] ++ [], [] ++ T :: []⟩).Nodup := by
  have hall := (hm.accounts h).nodup_iff.mpr List.nodup_range
  exact (List.nodup_append'.mp hall).1

end Raised

/-- The root is full: a new root is put above it. -/
theorem insert_full_tree (ht : 2 ≤ b.t) (h : b.Holding T) (key : Int)
    (hfull : T.size = 2 * b.t - 1) :
    Returns (insert b.t b.root key) b.mem fun o m' =>
      m'.trace = b.mem.trace ++ (insertNonFull b.t key (n + 1)
        ⟨b.mem.nodes.length, [] ++ [], [] ++ T :: []⟩
        (b.mem.nodes.length + 1)).trace ∧
      o = (true, some b.mem.nodes.length) ∧
      Holding ⟨b.t, o.2, m'⟩ (insertNonFull b.t key (n + 1)
        ⟨b.mem.nodes.length, [] ++ [], [] ++ T :: []⟩
        (b.mem.nodes.length + 1)).tree ∧
      inorder (n + 1) (insertNonFull b.t key (n + 1)
        ⟨b.mem.nodes.length, [] ++ [], [] ++ T :: []⟩
        (b.mem.nodes.length + 1)).tree =
          (inorder n T).orderedInsert (· ≤ ·) key := by
  obtain ⟨nd, hget, hnd⟩ := h.rep.root
  obtain ⟨m₁, m₀, hrun₁, hrun₀, hm⟩ := newRoot_run ht h
  have hold := hm.deletedOld h
  have hacc := hm.accounts h
  have hndU := hm.nodup h
  have hU := hm.rep
  have hlen := hm.length
  generalize hz : b.mem.nodes.length = z at hrun₁ hrun₀ hacc hndU hU hlen ⊢
  have hwf : WF b.t (n + 1) ⟨z, [] ++ [], [] ++ T :: []⟩ := by
    refine ⟨Nat.zero_le _, rfl, fun c hc => ?_⟩
    rw [List.mem_singleton.mp hc]
    exact ⟨by omega, h.wf⟩
  have hcont : inorder (n + 1) ⟨z, [] ++ [], [] ++ T :: []⟩ = inorder n T := by
    simp [inorder, interleave]
  have hroom : ([] ++ [] : List Int).length < 2 * b.t - 1 := by
    simp only [List.append_nil, List.length_nil]
    omega
  obtain ⟨k, R, hk⟩ := exists_middle (show 1 ≤ b.t by omega) hfull
  have hsize : 1 ≤ (insertNonFull b.t key (n + 1) ⟨z, [] ++ [], [] ++ T :: []⟩
      m₀.nodes.length).tree.size := by
    rw [insertNonFull_split _ rfl rfl hfull hk]
    show 1 ≤ (insertIn _ _ _).tree.size
    rw [insertIn_size]
    exact Nat.le_refl 1
  have hsplit := splitInsert_refines ht (insertNonFull_refines ht key n)
    (hz ▸ h.fuel : n < z) hU hndU hwf rfl rfl hfull hk hroom hold
  rw [h.root]
  unfold insert
  apply Returns.step (get_run b.mem)
  apply Returns.step (node_run hget)
  rw [if_neg (by rw [hnd.keysnum_eq]; exact not_not.mpr hfull), hz]
  apply Returns.step hrun₁
  apply Returns.step hrun₀
  apply hsplit.seq
  rintro - m₂ ⟨hkey, hgo⟩
  apply Returns.step hkey
  have hdone : Returns ((do
      let c ← child z (if k < key then 1 else 0)
      record .insertNonFull (some z) c (if k < key then 1 else 0) none
      BTreeNode.insertNonFull z c key) >>= fun _ =>
        pure (true, some z) : M (Bool × Ptr)) m₂ fun o m' =>
      m'.trace = b.mem.trace ++ (insertNonFull b.t key (n + 1)
        ⟨z, [] ++ [], [] ++ T :: []⟩ (z + 1)).trace ∧
      o = (true, some z) ∧
      Holding ⟨b.t, o.2, m'⟩ (insertNonFull b.t key (n + 1)
        ⟨z, [] ++ [], [] ++ T :: []⟩ (z + 1)).tree ∧
      inorder (n + 1) (insertNonFull b.t key (n + 1)
        ⟨z, [] ++ [], [] ++ T :: []⟩ (z + 1)).tree =
          (inorder n T).orderedInsert (· ≤ ·) key := by
    apply hgo.seq
    rintro - m' ⟨hrep', heff⟩
    apply Returns.pure
    have hleft := holding_insert ht key hwf hroom (hcont ▸ h.sorted) hacc hsize
      hrep' heff
    rw [hcont, hlen] at hleft
    have htrace := heff.trace
    rw [hm.trace, hlen] at htrace
    exact ⟨htrace, rfl, hleft⟩
  simpa only [bind_assoc] using hdone

theorem insert_full_traced (ht : 2 ≤ b.t) (h : b.Holding T) (key : Int)
    (hfull : T.size = 2 * b.t - 1) :
    Returns (insert b.t b.root key) b.mem fun o m' =>
      m'.trace = b.mem.trace ++ (insertNonFull b.t key (n + 1)
        ⟨b.mem.nodes.length, [] ++ [], [] ++ T :: []⟩
        (b.mem.nodes.length + 1)).trace ∧
      o = (true, some b.mem.nodes.length) ∧
      ∃ T' : Tree Int (n + 1), Holding ⟨b.t, o.2, m'⟩ T' ∧
        inorder (n + 1) T' = (inorder n T).orderedInsert (· ≤ ·) key :=
  (insert_full_tree ht h key hfull).mono fun _ _ hpost =>
    ⟨hpost.1, hpost.2.1, _, hpost.2.2⟩

theorem insert_full (ht : 2 ≤ b.t) (h : b.Holding T) (key : Int)
    (hfull : T.size = 2 * b.t - 1) :
    Returns (insert b.t b.root key) b.mem fun o m' => o.1 = true ∧
      ∃ T' : Tree Int (n + 1), Holding ⟨b.t, o.2, m'⟩ T' ∧
        inorder (n + 1) T' = (inorder n T).orderedInsert (· ≤ ·) key :=
  (insert_full_traced ht h key hfull).mono fun _ _ hpost =>
    ⟨by rw [hpost.2.1], hpost.2.2⟩

end Insert

/-! ## One call of `remove` -/

section Remove

variable {b : BTree} {n : Nat} {T : Tree Int n} {m : Mem}

/-- What becomes of a root that a removal has left without keys: the tree is
gone, or the only child is the new root. -/
private def replaceRoot (r : Addr) : M (Bool × Ptr) := do
  let root ← (if (← node r).leaf then pure none
    else do
      let c ← childPtr r 0
      setChild r 0 (some none)
      pure c)
  BTreeNode.delete (← get).nodes.length (some r)
  pure (true, root)

/-- A root without keys that is a leaf. -/
private theorem replaceRoot_leaf {t : Nat} {T : Tree Int 0} (h : Rep m t 0 T)
    (hsize : T.size = 0)
    (hacc : (ids 0 T ++ m.deleted).Perm (List.range m.nodes.length)) :
    Returns (replaceRoot T.id) m fun o m' => m'.trace = m.trace ∧
      o.1 = true ∧ Vacant ⟨t, o.2, m'⟩ ∧ inorder 0 T = [] := by
  obtain ⟨nd, hget, hnd⟩ := h
  have hlt : T.id < m.nodes.length := Mem.lt_of_get hget
  obtain ⟨f, hf⟩ := Nat.exists_eq_add_one_of_ne_zero (Nat.ne_zero_of_lt hlt)
  have hdelete : BTreeNode.delete m.nodes.length (some T.id) m =
      .ok ((), m.release T.id) := by
    rw [hf, BTreeNode.delete, bind_run_ok (node_run hget),
      onlyIf_neg (by simp [hnd.leaf_eq]), bind_run_ok (pure_run () m),
      modify_run]
  unfold replaceRoot
  apply Returns.step (node_run hget)
  rw [if_pos hnd.leaf_eq]
  apply Returns.step (pure_run none m)
  apply Returns.step (get_run m)
  apply Returns.step hdelete
  apply Returns.pure
  refine ⟨rfl, rfl, ⟨rfl, ?_⟩, List.length_eq_zero_iff.mp hsize⟩
  exact List.perm_append_comm.trans hacc

/-- A root without keys that has a child. -/
private theorem replaceRoot_inner {t : Nat} (ht : 2 ≤ t) {T : Tree Int (n + 1)}
    (h : Rep m t (n + 1) T) (hwf : WF t (n + 1) T) (hsize : T.size = 0)
    (hsorted : Sorted (inorder (n + 1) T))
    (hacc : (ids (n + 1) T ++ m.deleted).Perm (List.range m.nodes.length)) :
    Returns (replaceRoot T.id) m fun o m' => m'.trace = m.trace ∧
      o.1 = true ∧ ∃ c : Tree Int n, Holding ⟨t, o.2, m'⟩ c ∧
        inorder n c = inorder (n + 1) T := by
  obtain ⟨r, K, C⟩ := T
  obtain rfl : K = [] := List.length_eq_zero_iff.mp hsize
  obtain ⟨c, rfl⟩ : ∃ c, C = [c] := List.length_eq_one_iff.mp hwf.2.1
  obtain ⟨hcsize, hcwf⟩ := hwf.2.2 c (by simp)
  have hcont : inorder (n + 1) ⟨r, [], [c]⟩ = inorder n c := by
    simp [inorder, interleave]
  have hids : ids (n + 1) ⟨r, [], [c]⟩ = r :: ids n c := by simp [ids]
  rw [hids] at hacc
  have hr : r ∉ ids n c := by
    have hnd := hacc.nodup_iff.mpr List.nodup_range
    exact fun hq => (List.nodup_cons.mp hnd).1 (List.mem_append_left _ hq)
  obtain ⟨nd, hget, hnd⟩ := h.1
  have hlt : r < m.nodes.length := Mem.lt_of_get hget
  obtain ⟨f, hf⟩ := Nat.exists_eq_add_one_of_ne_zero (Nat.ne_zero_of_lt hlt)
  have F : Focus r (m.set r) := .of_get hget
  have hslots : Cells t false 0 [] ([] ++ some (some c.id) :: []) nd := hnd
  obtain ⟨nd₁, hrun₁, hnd₁⟩ := F.setChild_run hslots (some none) (i := 0) rfl
  rw [Mem.set_self hget] at hrun₁
  have hget₁ := F.get nd₁
  have hroot : (do
      let c ← childPtr r 0
      setChild r 0 (some none)
      pure c : M Ptr) m = .ok (some c.id, m.set r nd₁) := by
    rw [bind_run_ok (childPtr_run hget (hslots.kid rfl rfl)), bind_run_ok hrun₁,
      pure_run]
  have hnull : childPtr r 0 (m.set r nd₁) = .ok (none, m.set r nd₁) :=
    childPtr_run hget₁ (hnd₁.kid rfl rfl)
  have hdelete : BTreeNode.delete (m.set r nd₁).nodes.length (some r)
      (m.set r nd₁) = .ok ((), (m.set r nd₁).release r) := by
    have hloop : forUp 0 1 (fun i => do
        BTreeNode.delete f (← childPtr r i)) (m.set r nd₁) =
        .ok ((), m.set r nd₁) := by
      show ((childPtr r 0 >>= BTreeNode.delete f) >>= fun _ => pure ()) _ = _
      rw [bind_assoc, bind_run_ok hnull, BTreeNode.delete]
      rfl
    rw [Mem.set_nodes_length, hf, BTreeNode.delete, bind_run_ok (node_run hget₁),
      onlyIf_pos (by simp [hnd₁.leaf_eq]), hnd₁.keysnum_eq,
      bind_run_ok hloop, modify_run]
  unfold replaceRoot
  apply Returns.step (node_run hget)
  rw [if_neg (by simp [hnd.leaf_eq])]
  apply Returns.step hroot
  apply Returns.step (get_run _)
  apply Returns.step hdelete
  apply Returns.pure
  refine ⟨rfl, rfl, c, ?_, hcont.symm⟩
  exact
    { root := rfl
      rep := by
        apply (h.2 c (by simp)).frame
        intro q hq
        have hne : q ≠ r := fun heq => hr (heq ▸ hq)
        rw [Mem.get_release_ne hne, Mem.get_set_ne hne]
      wf := hcwf
      size := by omega
      sorted := hcont ▸ hsorted
      accounts := by
        simp only [Mem.release, Mem.set_nodes_length, Mem.set_deleted]
        rw [← List.append_assoc]
        exact (List.perm_append_singleton r _).trans hacc }

/-- What a removal leaves of a tree of height `n` when the keys `L` are left:
nothing, or a tree that is at most one level lower. -/
def Leaves (b : BTree) (n : Nat) (L : List Int) : Prop :=
  (b.Vacant ∧ L = []) ∨
    ∃ k, k ≤ n ∧ n ≤ k + 1 ∧ ∃ T : Tree Int k, b.Holding T ∧ inorder k T = L

theorem Leaves.stores {L : List Int} (h : b.Leaves n L) : b.Stores L := by
  rcases h with ⟨hvac, rfl⟩ | ⟨k, -, -, T, hT, hL⟩
  · exact .vacant hvac
  · exact hT.stores hL

/-- A removal from a tree, whether the key is there or not. -/
theorem remove_holding_traced (ht : 2 ≤ b.t) (h : b.Holding T) (key : Int) :
    Returns (remove b.root key) b.mem fun o m' =>
      m'.trace = b.mem.trace ++ (called .remove T 0 none ::
        (Descent.remove b.t n key T).trace ++
          [called .removed (Descent.remove b.t n key T).tree 0 none]) ∧
      o.1 = true ∧ Leaves ⟨b.t, o.2, m'⟩ n ((inorder n T).erase key) := by
  have hone : n ≠ 0 → 1 ≤ T.size := fun _ => h.size
  obtain ⟨hids, hcreated⟩ := remove_ids ht n key T h.wf hone
  have hwf := (remove_wf ht n key T h.wf hone).1
  have hcont := remove_contents ht n key T h.wf hone h.sorted
  have hid := remove_id ht key h.wf hone
  have hsorted : Sorted ((inorder n T).erase key) :=
    h.sorted.sublist List.erase_sublist
  obtain ⟨nd, hget, hnd⟩ := h.rep.root
  rw [h.root]
  unfold remove
  apply Returns.step (modify_run _ b.mem)
  generalize hm : b.mem.log _ = m₀
  have htrace₀ : m₀.trace = b.mem.trace ++ [called .remove T 0 none] := by
    rw [← hm, ← h.rep.view_called h.wf.branching]
    rfl
  have hrep : Rep m₀ b.t n T := by
    rw [← hm]
    exact h.rep.frame fun _ _ => rfl
  have hfuel : n < m₀.nodes.length := by
    rw [← hm]
    exact h.fuel
  apply Returns.step (get_run m₀)
  apply (remove_refines ht n key T m₀ _ hfuel hrep h.ids_nodup h.wf hone).seq
  rintro - m₁ ⟨hrep₁, heff⟩
  have hacc : (ids n (Descent.remove b.t n key T).tree ++ m₁.deleted).Perm
      (List.range m₁.nodes.length) := by
    rw [heff.nodes, heff.deleted, hcreated, Nat.add_zero, ← hm]
    show (_ ++ (b.mem.deleted ++ _)).Perm (List.range b.mem.nodes.length)
    refine List.Perm.trans ?_ h.accounts
    apply (List.perm_append_comm.append_left _).trans
    rw [← List.append_assoc]
    exact hids.append_right _
  have htrace₁ := heff.trace
  rw [htrace₀] at htrace₁
  rw [← hid]
  rw [← hcont] at hsorted ⊢
  generalize (Descent.remove b.t n key T).tree = T' at *
  apply Returns.step (modify_run _ m₁)
  generalize hm₂ : m₁.log _ = m₂
  have htrace₂ : m₂.trace = b.mem.trace ++ (called .remove T 0 none ::
      (Descent.remove b.t n key T).trace ++ [called .removed T' 0 none]) := by
    have hlog : m₂.trace = m₁.trace ++ [called .removed T' 0 none] := by
      rw [← hm₂, ← hrep₁.view_called hwf.branching]
      rfl
    rw [hlog, htrace₁]
    simp
  have hrep₂ : Rep m₂ b.t n T' := by
    rw [← hm₂]
    exact hrep₁.frame fun _ _ => rfl
  have hacc₂ : (ids n T' ++ m₂.deleted).Perm (List.range m₂.nodes.length) := by
    rw [← hm₂]
    exact hacc
  obtain ⟨nd', hget', hnd'⟩ := hrep₂.root
  apply Returns.step (node_run hget')
  rw [hnd'.keysnum_eq]
  by_cases hsize : T'.keys.length = 0
  · rw [if_pos hsize]
    show Returns (replaceRoot T'.id) m₂ _
    cases n with
    | zero =>
        apply (replaceRoot_leaf hrep₂ hsize hacc₂).mono
        rintro o m' ⟨htrace, hflag, hvac, hnil⟩
        exact ⟨htrace.trans htrace₂, hflag, Or.inl ⟨hvac, hnil⟩⟩
    | succ n =>
        apply (replaceRoot_inner ht hrep₂ hwf hsize hsorted hacc₂).mono
        rintro o m' ⟨htrace, hflag, c, hc, hcontc⟩
        exact ⟨htrace.trans htrace₂, hflag,
          Or.inr ⟨n, Nat.le_succ n, Nat.le_refl _, c, hc, hcontc⟩⟩
  · rw [if_neg hsize]
    apply Returns.pure
    refine ⟨htrace₂, rfl,
      Or.inr ⟨n, Nat.le_refl n, Nat.le_succ n, T', ?_, rfl⟩⟩
    exact
      { root := rfl
        rep := hrep₂
        wf := hwf
        size := Nat.one_le_iff_ne_zero.mpr hsize
        sorted := hsorted
        accounts := hacc₂ }

theorem remove_holding (ht : 2 ≤ b.t) (h : b.Holding T) (key : Int) :
    Returns (remove b.root key) b.mem fun o m' => o.1 = true ∧
      Stores ⟨b.t, o.2, m'⟩ ((inorder n T).erase key) :=
  (remove_holding_traced ht h key).mono fun _ _ hpost =>
    ⟨hpost.2.1, hpost.2.2.stores⟩

end Remove

/-! ## Runs -/

section Runs

variable {b : BTree} {L : List Int}

theorem Stores.sorted (h : b.Stores L) : Sorted L := by
  cases h with
  | vacant => exact List.Pairwise.nil
  | holding T h => exact h.sorted

/-- There is no root exactly when there is no key. -/
theorem Stores.root_eq_none (h : b.Stores L) : b.root = none ↔ L = [] := by
  cases h with
  | vacant h => simp [h.root]
  | @holding n T h =>
      have hne : inorder n T ≠ [] := inorder_ne_nil h.size
      simp [h.root, hne]

/-- Without keys there are no nodes. -/
theorem Stores.vacant_of_nil (h : b.Stores []) : b.Vacant := by
  generalize hL : ([] : List Int) = L at h
  cases h with
  | vacant h => exact h
  | holding T h => exact absurd hL.symm (inorder_ne_nil h.size)

/-- The readers see the tree. -/
theorem Holding.foldTree {α : Type} {n : Nat} {T : Tree Int n}
    (h : b.Holding T) (empty : α) (step : Addr → List Int → List α → α) :
    b.foldTree empty step = .ok (fold step n T) := by
  have hrun := foldTree_run step n T b.mem.nodes.length h.fuel h.rep h.wf
  simp only [BTree.foldTree, h.root, hrun]
  rfl

theorem Stores.contents (h : b.Stores L) : b.contents = .ok L := by
  cases h with
  | vacant h =>
      simp only [BTree.contents, BTree.foldTree, h.root]
      rfl
  | @holding n T h => rw [BTree.contents, h.foldTree, fold_interleave]

/-- Reached nodes and deleted nodes are all nodes, each once. -/
theorem Stores.reached (h : b.Stores L) :
    ∃ l, b.reached = .ok l ∧
      (l ++ b.mem.deleted).Perm (List.range b.mem.nodes.length) := by
  cases h with
  | vacant h =>
      refine ⟨[], ?_, h.accounts⟩
      simp only [BTree.reached, BTree.foldTree, h.root]
      rfl
  | @holding n T h =>
      refine ⟨ids n T, ?_, h.accounts⟩
      rw [BTree.reached, h.foldTree, fold_ids]

theorem exec_of_returns (op : Op) {Q : Bool × Ptr → Mem → Prop}
    (h : Returns (match op with
      | .insert key => insert b.t b.root key
      | .remove key => remove b.root key) b.mem Q) :
    ∃ r root m, b.exec op = .ok (r, ⟨b.t, root, m⟩) ∧ Q (r, root) m := by
  obtain ⟨⟨r, root⟩, m, hrun, hQ⟩ := h
  refine ⟨r, root, m, ?_, hQ⟩
  cases op with
  | insert key =>
      have hkey : insert b.t b.root key b.mem = .ok ((r, root), m) := hrun
      simp only [exec, hkey]
      rfl
  | remove key =>
      have hkey : remove b.root key b.mem = .ok ((r, root), m) := hrun
      simp only [exec, hkey]
      rfl

/-- `insert` adds the key and returns true. -/
theorem Stores.insert (ht : 2 ≤ b.t) (h : b.Stores L) (key : Int) :
    ∃ b', b.exec (.insert key) = .ok (true, b') ∧ b'.t = b.t ∧
      b'.Stores (L.orderedInsert (· ≤ ·) key) := by
  have hins : Returns (BTree.insert b.t b.root key) b.mem fun o m' =>
      o.1 = true ∧ Stores ⟨b.t, o.2, m'⟩ (L.orderedInsert (· ≤ ·) key) := by
    cases h with
    | vacant h =>
        apply (insert_vacant ht h key).mono
        rintro o m' ⟨hflag, T', hT', hcont⟩
        exact ⟨hflag, hT'.stores hcont⟩
    | holding T h =>
        by_cases hfull : T.size = 2 * b.t - 1
        · apply (insert_full ht h key hfull).mono
          rintro o m' ⟨hflag, T', hT', hcont⟩
          exact ⟨hflag, hT'.stores hcont⟩
        · apply (insert_roomy ht h key hfull).mono
          rintro o m' ⟨hflag, T', hT', hcont⟩
          exact ⟨hflag, hT'.stores hcont⟩
  obtain ⟨r, root, m, hexec, rfl, hstores⟩ := exec_of_returns (.insert key) hins
  exact ⟨_, hexec, rfl, hstores⟩

/-- `remove` takes the key away if it is there, and returns whether there was a
tree. -/
theorem Stores.remove (ht : 2 ≤ b.t) (h : b.Stores L) (key : Int) :
    ∃ b', b.exec (.remove key) = .ok (b.root.isSome, b') ∧ b'.t = b.t ∧
      b'.Stores (L.erase key) := by
  have hrem : Returns (BTree.remove b.root key) b.mem fun o m' =>
      o.1 = b.root.isSome ∧ Stores ⟨b.t, o.2, m'⟩ (L.erase key) := by
    cases h with
    | vacant h =>
        rw [h.root]
        exact Returns.pure ⟨rfl, .vacant ⟨rfl, h.accounts⟩⟩
    | holding T h =>
        apply (remove_holding ht h key).mono
        rintro o m' ⟨hflag, hstores⟩
        exact ⟨by rw [hflag, h.root]; rfl, hstores⟩
  obtain ⟨r, root, m, hexec, rfl, hstores⟩ := exec_of_returns (.remove key) hrem
  exact ⟨_, hexec, rfl, hstores⟩

/-- What one call does to the sorted list of the stored keys. -/
def sortedStep (L : List Int) : Op → List Int
  | .insert key => L.orderedInsert (· ≤ ·) key
  | .remove key => L.erase key

/-- One call. -/
theorem Stores.exec (ht : 2 ≤ b.t) (h : b.Stores L) (op : Op) :
    ∃ r b', b.exec op = .ok (r, b') ∧ b'.t = b.t ∧
      b'.Stores (sortedStep L op) := by
  cases op with
  | insert key =>
      obtain ⟨b', hrun, hb'⟩ := h.insert ht key
      exact ⟨true, b', hrun, hb'⟩
  | remove key =>
      obtain ⟨b', hrun, hb'⟩ := h.remove ht key
      exact ⟨b.root.isSome, b', hrun, hb'⟩

/-- Any number of calls. -/
theorem Stores.run (ht : 2 ≤ b.t) (h : b.Stores L) (ops : List Op) :
    ∃ b', b.run ops = .ok b' ∧ b'.t = b.t ∧
      b'.Stores (ops.foldl sortedStep L) := by
  induction ops generalizing b L with
  | nil => exact ⟨b, rfl, rfl, h⟩
  | cons op ops ih =>
      obtain ⟨r, b₁, hexec, ht₁, h₁⟩ := h.exec ht op
      obtain ⟨b', hrun, ht', h'⟩ := ih (ht₁ ▸ ht) h₁
      refine ⟨b', ?_, ht'.trans ht₁, h'⟩
      simp only [BTree.run, hexec]
      exact hrun

/-- One call more at the end. -/
theorem run_concat {ops : List Op} {op : Op} {r : Bool} {b₁ b₂ : BTree}
    (hrun : b.run ops = .ok b₁) (hexec : b₁.exec op = .ok (r, b₂)) :
    b.run (ops ++ [op]) = .ok b₂ := by
  induction ops generalizing b with
  | nil =>
      obtain rfl : b = b₁ := Except.ok.inj hrun
      simp only [List.nil_append, BTree.run, hexec]
      rfl
  | cons op' ops ih =>
      simp only [BTree.run, List.cons_append] at hrun ⊢
      cases hfirst : b.exec op' with
      | error e => simp [hfirst, bind, Except.bind] at hrun
      | ok o =>
          rw [hfirst] at hrun
          exact ih hrun

/-- The first `k` calls of a history, and then the next one. -/
theorem run_take_succ {ops : List Op} {k : Nat} {op : Op} {r : Bool}
    {b₁ b₂ : BTree} (hop : ops[k]? = some op)
    (hexec : b₁.exec op = .ok (r, b₂)) (hrun : b.run (ops.take k) = .ok b₁) :
    b.run (ops.take (k + 1)) = .ok b₂ := by
  rw [List.take_add_one, hop]
  exact run_concat hrun hexec

/-- Every history of calls on a new object returns. -/
theorem run_stores {t : Nat} (ht : 2 ≤ t) (ops : List Op) :
    ∃ b, (BTree.new t).run ops = .ok b ∧ b.t = t ∧
      b.Stores (ops.foldl sortedStep []) :=
  Stores.run ht (.vacant (vacant_new t)) ops

/-! ## Many keys -/

/-- All keys are there, in whatever order they were inserted. -/
theorem foldl_insert_perm : ∀ keys L : List Int,
    ((keys.map Op.insert).foldl sortedStep L).Perm (keys ++ L) := by
  intro keys
  induction keys with
  | nil => exact fun L => List.Perm.refl L
  | cons key keys ih =>
      intro L
      apply (ih (sortedStep L (.insert key))).trans
      exact ((List.perm_orderedInsert _ key L).append_left keys).trans
        List.perm_middle

/-- Taking away all that is there, in whatever order, leaves nothing. -/
theorem foldl_remove_perm : ∀ removals L : List Int,
    L.Perm removals → (removals.map Op.remove).foldl sortedStep L = [] := by
  intro removals
  induction removals with
  | nil => exact fun L h => h.eq_nil
  | cons key removals ih =>
      intro L h
      apply ih (L.erase key)
      simpa using h.erase key

/-- Removals take away one occurrence each, where there is one. -/
theorem foldl_remove (removals L : List Int) :
    (removals.map Op.remove).foldl sortedStep L = L.diff removals := by
  rw [List.foldl_map, List.diff_eq_foldl]
  rfl

end Runs

end BTree

end ParallelBTree.Ports
