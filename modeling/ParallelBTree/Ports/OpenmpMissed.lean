import ParallelBTree.Ports.Height
import ParallelBTree.Ports.Openmp
import Mathlib.Data.List.Perm.Subperm

/-!
# Searches of `openmp.cpp` that miss a key

A search may fail to find a key that was in the tree before it began, and stays in
the tree, because of what an insertion does between two of its reads.  There are
two ways.  A key is inserted before others into a leaf: they move one slot up, and
the search, which has found the slot of its key in the loop, compares it with
another one behind the loop.  Or a node is split while the search is at it: half
of its keys go to a node that the search does not come to; the first split is that
of the root, by the eighth insertion, and nothing that the dead key slots may hold
hides all of the keys that were moved.

Up to seven keys in ascending order do neither.

A run chooses the keys that are searched for, as well as the order of the steps: a
key is missed by some schedule if there is one for some numbers drawn.

## Main results

* `missed_iff` — when some schedule makes a search miss a key.
-/

namespace ParallelBTree.Ports.Openmp

open Relation
open ParallelBTree.Verified.Actions
open ParallelBTree.Verified.Interleaving
open ParallelBTree.Verified.Multiway
open ParallelBTree.Verified.Program
open ParallelBTree.Verified.Progress
open ParallelBTree.Ports.NodeMemory
open ParallelBTree.Ports.Descent
open ParallelBTree.Ports.Represent
open ParallelBTree.Ports.BTree
open ParallelBTree.Ports.InsertActions

/-- A search has ended without finding a key that was inserted before it began. -/
def State.Missed (s : State) : Prop :=
  ∃ w ∈ s.workers, ∃ key seen, .answered key false seen ∈ w.rounds ∧ key ∈ seen

/-! ## Runs of one thread -/

section Alone

variable {d : Setup} {s : State}

/-- The master makes all actions of a call. -/
theorem actions_run {r : Bool} {tree : BTree} {i : Nat}
    {rest : Thread BTree Fault Bool} (hm : s.main = .inserting i rest)
    (hrun : rest.run s.tree4 = .ok (r, tree)) :
    ReflTransGen (Step d) s { s with tree4 := tree, main := .insert (i + 1) } := by
  induction rest generalizing s with
  | done r' =>
      obtain ⟨-, rfl⟩ := Prod.mk.inj (Except.ok.inj hrun)
      exact .single (.ended hm)
  | act f k ih =>
      obtain ⟨b, tree', hact, hrest⟩ := bind_ok hrun
      exact .head (.act hm hact) (ih b rfl hrest)

theorem call_run {r : Bool} {key : Int} {tree : BTree} {i : Nat}
    (hm : s.main = .insert i) (hkey : d.keys[i]? = some key)
    (hexec : s.tree4.exec (.insert key) = .ok (r, tree)) :
    ReflTransGen (Step d) s { s with tree4 := tree, main := .insert (i + 1) } := by
  have hrun : (InsertActions.insert s.tree4.t key).run s.tree4 = .ok (r, tree) :=
    (run_insert s.tree4 key).trans hexec
  exact .head (.call hm hkey) (actions_run rfl hrun)

/-- A search goes on. -/
theorem moves_run {key : Int} {pl pl' : Search.Place} {seen : List Int}
    {A B : List Worker} {C D : List Round}
    (hmoves : ReflTransGen (Search.Moves d.garbage s.tree4 key) pl pl')
    (hw : s.workers = A ++ .looping (C ++ .searching key pl seen :: D) :: B) :
    ReflTransGen (Step d) s { s with
      workers := A ++ .looping (C ++ .searching key pl' seen :: D) :: B } := by
  induction hmoves with
  | refl => exact hw ▸ .refl
  | tail _ hlast ih => exact ih.tail (.work rfl (.search (Or.inl rfl) (.move hlast)))

/-- A search comes to its answer. -/
theorem answer_run {key : Int} {pl : Search.Place} {seen : List Int} {found : Bool}
    {A B : List Worker} {C D : List Round}
    (hans : Search.Answers d.garbage s.tree4 key pl found)
    (hw : s.workers = A ++ .looping (C ++ .searching key pl seen :: D) :: B) :
    ReflTransGen (Step d) s { s with
      workers := A ++ .looping (C ++ .answered key found seen :: D) :: B } := by
  obtain ⟨last, hmoves, hlast⟩ := hans
  exact (moves_run hmoves hw).tail
    (.work rfl (.search (Or.inl rfl) (.answer hlast)))

/-- The master can insert as many keys as it likes before another thread does
anything. -/
theorem inserting (d : Setup) : ∀ i, i ≤ d.keys.length →
    ∃ tree, (BTree.new 4).run (d.history.take i) = .ok tree ∧
      d.Reachable { d.init with tree4 := tree, main := .insert i } := by
  intro i
  induction i with
  | zero => exact fun _ => ⟨_, rfl, .refl⟩
  | succ i ih =>
      intro hi
      obtain ⟨tree, hrun, hreach⟩ := ih (by omega)
      obtain ⟨ht, L, hL⟩ := d.tree_eq hrun
      have hkey : d.keys[i]? = some d.keys[i] := List.getElem?_eq_getElem hi
      obtain ⟨b', hexec, -, -⟩ := hL.insert (by rw [ht]; decide) d.keys[i]
      exact ⟨b', run_take_succ (Shuffles.history_insert hkey) hexec hrun,
        hreach.trans (call_run rfl hkey hexec)⟩

/-- Then one of the others can begin a search, for any key. -/
theorem begin_run (hteam : 2 ≤ d.omp_get_num_threads) (hshare : 1 ≤ d.share)
    {i : Nat} {tree : BTree}
    (hreach : d.Reachable { d.init with tree4 := tree, main := .insert i })
    (key : Int) : ∃ nthreads B D, d.Reachable ⟨tree, nthreads, .insert i,
      [] ++ .looping ([] ++ .searching key .entering (d.keys.take i) :: D) :: B⟩ := by
  obtain ⟨m, hm⟩ : ∃ m, d.omp_get_num_threads - 1 = m + 1 :=
    ⟨d.omp_get_num_threads - 2, by omega⟩
  obtain ⟨q, hq⟩ : ∃ q, d.share = q + 1 := ⟨d.share - 1, by omega⟩
  have hbegun : d.init.workers = [] ++ .begun :: List.replicate m .begun := by
    rw [Setup.init, hm, List.replicate_succ]
    rfl
  have henter : List.replicate
      (d.task_size.tdiv ((d.omp_get_num_threads : Int) - 1)).toNat Round.waiting =
        [] ++ .waiting :: List.replicate q .waiting := by
    rw [← Setup.share, hq, List.replicate_succ]
    rfl
  have hfree : ([] ++ Round.waiting :: List.replicate q .waiting).countP
      Round.isSearching < d.nested := by
    rw [List.nil_append, ← List.replicate_succ, List.countP_replicate]
    exact d.inner
  have hready := ((hreach.tail (.work hbegun .count)).tail
    (.work rfl (.enough (by omega)))).tail (.work rfl .enter)
  rw [henter] at hready
  exact ⟨_, _, _, hready.tail (.work rfl (.search (Or.inr hfree) (.call key)))⟩

/-- A search for a key of the tree comes to a place from which, after one more
insertion, it does not find the key. -/
theorem missed_of (hteam : 2 ≤ d.omp_get_num_threads) (hshare : 1 ≤ d.share)
    {i : Nat} {tree tree' : BTree} {r : Bool} {key new : Int} {pl : Search.Place}
    (hrun : (BTree.new 4).run (d.history.take i) = .ok tree)
    (hnew : d.keys[i]? = some new) (hexec : tree.exec (.insert new) = .ok (r, tree'))
    (hkey : key ∈ d.keys.take i)
    (hmoves : ReflTransGen (Search.Moves d.garbage tree key) .entering pl)
    (hans : Search.Answers d.garbage tree' key pl false) :
    ∃ s, d.Reachable s ∧ s.Missed := by
  have hi : i < d.keys.length := (List.getElem?_eq_some_iff.mp hnew).1
  obtain ⟨tree₀, hrun₀, hreach⟩ := inserting d i hi.le
  obtain rfl := Except.ok.inj (hrun.symm.trans hrun₀)
  obtain ⟨nthreads, B, D, hcall⟩ := begin_run hteam hshare hreach key
  have hthere := hcall.trans (moves_run hmoves rfl)
  have hnext := hthere.trans (call_run rfl hnew hexec)
  have hend := hnext.trans (answer_run hans rfl)
  refine ⟨_, hend, _, List.mem_append_right _ List.mem_cons_self, key, _, ?_, hkey⟩
  exact List.mem_append_right _ List.mem_cons_self

end Alone

/-! ## The first seven keys -/

/-- There is no node, or one node. -/
def Small (tree : BTree) : Prop :=
  tree.Vacant ∨ ∃ T : Tree Int 0, tree.Holding T

section Small

variable {b : BTree}

/-- An insertion into a tree of one leaf that is not full. -/
theorem leaf_insert {T : Tree Int 0} (ht : 2 ≤ b.t) (h : b.Holding T)
    (hroom : T.keys.length ≠ 2 * b.t - 1) (key : Int) :
    ∃ b', ∃ T' : Tree Int 0, b.exec (.insert key) = .ok (true, b') ∧
      b'.Holding T' ∧ T'.id = T.id ∧
      T'.keys = T.keys.orderedInsert (· ≤ ·) key := by
  obtain ⟨r, root, m, hexec, -, rfl, hT', hcont⟩ :=
    exec_of_returns (.insert key) (insert_roomy_tree ht h key hroom)
  exact ⟨_, _, hexec, hT', insertNonFull_id _ _ _ _ _, hcont⟩

/-- Only an insertion below a full root makes a second node. -/
theorem Small.insert {L : List Int} (ht : 2 ≤ b.t) (h : Small b)
    (hL : b.Stores L) (hroom : L.length < 2 * b.t - 1) (key : Int) :
    ∃ b', b.exec (.insert key) = .ok (true, b') ∧ Small b' := by
  rcases h with hv | ⟨T, hT⟩
  · obtain ⟨r, root, m, hexec, rfl, T', hT', -⟩ :=
      exec_of_returns (.insert key) (insert_vacant ht hv key)
    exact ⟨_, hexec, Or.inr ⟨T', hT'⟩⟩
  · have hcont := Except.ok.inj (hL.contents.symm.trans (hT.stores rfl).contents)
    have hsize : T.size ≠ 2 * b.t - 1 := by
      rw [hcont] at hroom
      exact hroom.ne
    obtain ⟨b', T', hexec, hT', -⟩ := leaf_insert ht hT hsize key
    exact ⟨b', hexec, Or.inr ⟨T', hT'⟩⟩

/-- As long as keys are inserted and the root has not been full, the tree is one
leaf. -/
theorem small_first {d : Shuffles} {t : Nat} (ht : 2 ≤ t) : ∀ k,
    k ≤ d.keys.length → k ≤ 2 * t - 1 →
    ∃ b, (BTree.new t).run (d.history.take k) = .ok b ∧ Small b := by
  intro k
  induction k with
  | zero => exact fun _ _ => ⟨_, rfl, Or.inl (vacant_new t)⟩
  | succ k ih =>
      intro hk hroom
      obtain ⟨b, hrun, hb⟩ := ih (by omega) (by omega)
      obtain ⟨b', L, hrun', rfl, hL, hperm⟩ := d.first_stores ht (k := k) (by omega)
      obtain rfl := Except.ok.inj (hrun.symm.trans hrun')
      have hlen : L.length < 2 * b.t - 1 := by
        rw [hperm.length_eq, List.length_take]
        omega
      have hkey : d.keys[k]? = some d.keys[k] := List.getElem?_eq_getElem hk
      obtain ⟨b'', hexec, hb''⟩ := hb.insert ht hL hlen d.keys[k]
      exact ⟨b'', run_take_succ (Shuffles.history_insert hkey) hexec hrun, hb''⟩

/-- They are the keys of this leaf. -/
theorem leaf_first (d : Setup) {n : Nat} (hpos : 1 ≤ n) (hn : n ≤ 7)
    (hkeys : n ≤ d.keys.length) {tree : BTree}
    (hrun : (BTree.new 4).run (d.history.take n) = .ok tree) :
    tree.t = 4 ∧ ∃ T : Tree Int 0, tree.Holding T ∧ T.keys.Perm (d.keys.take n) := by
  obtain ⟨b, hrun', hsmall⟩ :=
    small_first (d := d.toShuffles) (by decide : 2 ≤ 4) n hkeys hn
  obtain rfl := Except.ok.inj (hrun.symm.trans hrun')
  obtain ⟨b, L, hrun', ht, hL, hperm⟩ := d.first_stores (by decide : 2 ≤ 4) hkeys
  obtain rfl := Except.ok.inj (hrun.symm.trans hrun')
  rcases hsmall with hv | ⟨T, hT⟩
  · obtain rfl := Except.ok.inj
      (hL.contents.symm.trans (Stores.vacant hv).contents)
    have hlen := hperm.length_eq
    rw [List.length_nil, List.length_take] at hlen
    omega
  · obtain rfl := Except.ok.inj
      (hL.contents.symm.trans (hT.stores rfl).contents)
    exact ⟨ht, T, hT, hperm⟩

end Small

/-! ## A split -/

section Leaf

variable {t : Nat} {K : List Int} {P : List Addr} {nd : BTreeNode}

/-- Any other key is read behind the last one, or not at all. -/
theorem slotValue_notMem (garbage : Addr → Nat → Int) (p : Addr)
    (h : Holds t true K P nd) {key : Int} (hkey : key ∉ K)
    (hread : BTreeNode.slotValue garbage p nd (lowerPos K key) = key) :
    BTreeNode.slotValue garbage p nd K.length = key := by
  obtain ⟨ka, kb, rfl, hka, -, -⟩ := takeWhile_cut K key
  have hpos : lowerPos (ka ++ kb) key = ka.length := hka.symm
  rw [hpos] at hread
  cases kb with
  | nil => simpa using hread
  | cons k kb =>
      have hslot : (ka ++ k :: kb)[ka.length]? = some k := by simp
      simp only [BTreeNode.slotValue, h.key_at hslot] at hread
      exact absurd (by simp [hread]) hkey

end Leaf

/-- When the root of a tree of one level is split, it keeps four keys at most. -/
theorem kid_size {n : Nat} {b : BTree} {T : Tree Int n} (h : b.Holding T)
    (ht : b.t = 4) (hlen : (inorder n T).length = 8) {q : Addr}
    (hq : AtHeight 0 q n T) :
    ∃ c : Tree Int 0, c.id = q ∧ Rep b.mem b.t 0 c ∧ c.keys.length ≤ 4 := by
  have hsize := h.wf.size_le
  have hlow := le_gaps_root n T h.wf h.size
  rw [ht] at hsize
  rw [ht, hlen] at hlow
  rcases n with - | - | n
  · have hall : T.keys.length = 8 := hlen
    have hle : T.keys.length ≤ 7 := hsize
    omega
  · obtain ⟨hne, -⟩ | ⟨c, hc, -, rfl⟩ := hq
    · omega
    · refine ⟨c, rfl, h.rep.2 c hc, ?_⟩
      have hkids := h.wf.2.1
      have hgaps := gaps_kids hkids
      have hone := h.size
      obtain ⟨A, B, hAB⟩ := List.append_of_mem hc
      -- there is another kid, and it has three keys at least
      obtain ⟨x, hx⟩ : ∃ x, x ∈ A ++ B := by
        apply List.exists_mem_of_length_pos
        rw [hAB, List.length_append, List.length_cons] at hkids
        rw [List.length_append]
        omega
      have hmem : x ∈ T.kids := by
        rw [hAB]
        rcases List.mem_append.mp hx with hx | hx <;> simp [hx]
      have hmin : b.t - 1 ≤ (inorder 0 x).length := (h.wf.kid hmem).1
      obtain ⟨A', B', hAB'⟩ := List.append_of_mem hx
      rw [hlen, hAB, sum_middle, hAB', sum_middle] at hgaps
      show (inorder 0 c).length ≤ 4
      omega
  · rw [pow_succ, pow_succ] at hlow
    have hpos : 0 < 4 ^ n := Nat.pow_pos (by decide)
    omega

/-- Of seven keys in a leaf, the insertion of an eighth hides some from whoever
is at the leaf. -/
theorem split_hides {b : BTree} {T : Tree Int 0} (ht : b.t = 4)
    (h : b.Holding T) (hfull : T.keys.length = 7) (hdistinct : T.keys.Nodup)
    (garbage : Addr → Nat → Int) (new : Int) :
    ∃ b', b.exec (.insert new) = .ok (true, b') ∧ ∃ key ∈ T.keys,
      BTreeNode.visit (BTreeNode.readWith garbage) T.id key b'.mem =
        .ok (.inl false, b'.mem) := by
  obtain ⟨b', n', T', hexec, ht', hT', hcont, hkeep⟩ :=
    h.insert_atHeight (by omega) new
  have hlen : (inorder n' T').length = 8 := by
    rw [hcont, List.orderedInsert_length]
    exact congrArg (· + 1) hfull
  obtain ⟨c, hid, hc, hsize⟩ :=
    kid_size hT' (ht'.trans ht) hlen (hkeep 0 T.id (atHeight_root 0 T))
  obtain ⟨nd, hget, hnd⟩ := hc.root
  -- the answer is true for what is left in the leaf, and for one dead slot
  obtain ⟨key, hkey, hout⟩ : ∃ key ∈ T.keys, key ∉
      BTreeNode.slotValue garbage c.id nd c.keys.length :: c.keys := by
    by_contra hall
    push Not at hall
    have hle := (hdistinct.subperm hall).length_le
    rw [hfull, List.length_cons] at hle
    omega
  rw [List.mem_cons, not_or] at hout
  obtain ⟨nd', hget', hnd', hvisit⟩ := BTreeNode.visit_leaf garbage hc key
  obtain rfl : nd = nd' := Option.some.inj (hget.symm.trans hget')
  have hread : BTreeNode.slotValue garbage c.id nd (lowerPos c.keys key) ≠ key :=
    fun heq => hout.1 (slotValue_notMem garbage c.id hnd' hout.2 heq).symm
  rw [decide_eq_false hread, hid] at hvisit
  exact ⟨b', hexec, key, hkey, hvisit⟩

/-- Another thread comes to the root while it is full, and stays there until it
has been split. -/
theorem missed_split (d : Setup) (hkeys : 8 ≤ d.keys.length)
    (hteam : 2 ≤ d.omp_get_num_threads) (hshare : 1 ≤ d.share) :
    ∃ s, d.Reachable s ∧ s.Missed := by
  obtain ⟨tree, hrun, -⟩ := inserting d 7 (by omega)
  obtain ⟨ht, T, hT, hperm⟩ :=
    leaf_first d (by decide) (Nat.le_refl 7) (by omega) hrun
  have hlen : T.keys.length = 7 := by
    rw [hperm.length_eq, List.length_take]
    omega
  have hnew : d.keys[7]? = some d.keys[7] := List.getElem?_eq_getElem hkeys
  have hnodup : T.keys.Nodup :=
    hperm.nodup_iff.mpr (d.distinct.sublist (List.take_sublist 7 _))
  obtain ⟨tree', hexec, key, hmem, hmiss⟩ :=
    split_hides ht hT hlen hnodup d.garbage d.keys[7]
  refine missed_of hteam hshare hrun hnew hexec (hperm.mem_iff.mp hmem)
    (Search.moves_call hT.root) ?_
  exact (Search.moves_visit hmiss).2

/-! ## A key inserted before others -/

section Shift

variable {d : Setup} {tree : BTree} {r : Addr} {C : List Empty} {ka kb : List Int}
  {y : Int}

/-- A search comes to the slot of its key in a leaf. -/
theorem moves_slot (h : tree.Holding (Node.mk r (ka ++ y :: kb) C : Tree Int 0))
    (hlt : ∀ a ∈ ka, a < y) :
    ReflTransGen (Search.Moves d.garbage tree y) .entering (.stopped r ka.length) := by
  obtain ⟨nd, hget, hnd⟩ := h.rep
  have hscan : scanUp nd.keysnum (fun i => do
        pure (decide ((← BTreeNode.readWith d.garbage r i) < y))) tree.mem =
      .ok (lowerPos (ka ++ y :: kb) y, tree.mem) :=
    BTreeNode.scan_run (BTreeNode.reads_with d.garbage tree.mem) hget hnd
  have hpos : lowerPos (ka ++ y :: kb) y = ka.length := by
    unfold lowerPos
    rw [List.takeWhile_append_of_pos (by simpa using hlt),
      List.takeWhile_cons_of_neg (by simp), List.append_nil]
  rw [hpos] at hscan
  exact (Search.moves_call h.root).trans
    (Search.moves_scan hget nd.keysnum 0 (Nat.zero_add _) hscan).2

/-- It does not find the key if another one is there by then. -/
theorem answers_slot {x : Int}
    (h : tree.Holding (Node.mk r (ka ++ y :: kb) C : Tree Int 0)) (hne : y ≠ x) :
    Search.Answers d.garbage tree x (.stopped r ka.length) false := by
  obtain ⟨nd, hget, hnd⟩ := h.rep
  have hslot : (ka ++ y :: kb)[ka.length]? = some y := by simp
  have hread : BTreeNode.slotValue d.garbage r nd ka.length = y := by
    simp only [BTreeNode.slotValue, hnd.key_at hslot]
  have htest : Search.Moves d.garbage tree x (.stopped r ka.length)
      (.testing r ka.length) := by
    simp only [Search.Moves, Search.access, hget, Option.map_some, hread, if_neg hne]
  refine ⟨_, .single htest, ?_⟩
  simp only [Search.access, hget, Option.map_some, hnd.leaf_eq, if_true]

end Shift

/-- Another thread comes to the slot of a key while the master moves the key to the
next one. -/
theorem missed_shift (d : Setup) (hkeys : d.keys.length ≤ 7)
    (hteam : 2 ≤ d.omp_get_num_threads) (hshare : 1 ≤ d.share) {n : Nat} {new x : Int}
    (hnew : d.keys[n]? = some new) (hx : x ∈ d.keys.take n) (hlt : new < x) :
    ∃ s, d.Reachable s ∧ s.Missed := by
  have hn : n < d.keys.length := (List.getElem?_eq_some_iff.mp hnew).1
  obtain ⟨tree, hrun, -⟩ := inserting d n hn.le
  have hpos : 1 ≤ n := by
    rcases Nat.eq_zero_or_pos n with rfl | hpos
    · exact absurd hx List.not_mem_nil
    · exact hpos
  obtain ⟨ht, ⟨r, K, C⟩, hT, hperm⟩ := leaf_first d hpos (by omega) hn.le hrun
  have hsorted : Sorted K := hT.sorted
  have hsize : K.length ≠ 2 * tree.t - 1 := by
    have hlen : K.length = _ := hperm.length_eq
    rw [List.length_take] at hlen
    omega
  obtain ⟨tree', ⟨r', K', C'⟩, hexec, hT', hid, hK'⟩ :=
    leaf_insert (by rw [ht]; decide) hT hsize new
  obtain rfl : r' = r := hid
  obtain rfl : K' = K.orderedInsert (· ≤ ·) new := hK'
  -- the first key behind the place of the new one
  obtain ⟨ka, kb, rfl, -, hka, hkb⟩ := takeWhile_cut K new
  have hx' : x ∈ ka ++ kb := hperm.mem_iff.mpr hx
  obtain ⟨y, kb, rfl⟩ : ∃ y kb', kb = y :: kb' := by
    cases kb with
    | nil =>
        rw [List.append_nil] at hx'
        exact absurd (hka x hx') (not_lt.mpr hlt.le)
    | cons y kb' => exact ⟨y, kb', rfl⟩
  have hy : y ∈ d.keys.take n := hperm.mem_iff.mp (by simp)
  have hne : new ≠ y := by
    rintro rfl
    obtain ⟨j, hj, hget⟩ := List.mem_take_iff_getElem.mp hy
    have hsame : d.keys[j] = d.keys[n] :=
      hget.trans (List.getElem?_eq_some_iff.mp hnew).2.symm
    have hjn := (d.distinct.getElem_inj_iff).mp hsame
    omega
  have hlty : new < y := lt_of_le_of_ne (hkb y rfl) hne
  have hbehind : ∀ b ∈ y :: kb, new ≤ b := by
    intro b hb
    have hrest := (List.pairwise_append.mp hsorted).2.1
    rcases List.mem_cons.mp hb with rfl | hb
    · exact hlty.le
    · exact hlty.le.trans ((List.pairwise_cons.mp hrest).1 b hb)
  have hmid := orderedInsert_middle (M := []) hsorted
    (fun a ha => (hka a ha).le) hbehind
  rw [List.nil_append] at hmid
  rw [hmid] at hT'
  exact missed_of hteam hshare hrun hnew hexec hy
    (moves_slot hT fun a ha => (hka a ha).trans hlty) (answers_slot hT' hne)

/-! ## Up to seven keys in ascending order -/

/-- The first `n` keys stand in order in the node `nd`, a leaf. -/
structure Starts (keys : List Int) (n : Nat) (nd : BTreeNode) : Prop where
  leaf : nd.leaf = true
  le : n ≤ nd.keysnum
  cells : ∀ i v, i < n → keys[i]? = some v → nd.keys.cells[i]? = some (some v)

/-- If there are any, this node is the root. -/
def Rising (keys : List Int) (n : Nat) (tree : BTree) : Prop :=
  n ≠ 0 → ∃ r nd, tree.root = some r ∧ tree.mem.get r = some nd ∧ Starts keys n nd

/-- It stays the root, and the keys stay where they are. -/
def Stays (keys : List Int) (n : Nat) (tree : BTree) (_ : Unit) (tree' : BTree)
    (_ : Unit) : Prop :=
  Rising keys n tree' ∧ (n ≠ 0 → tree'.root = tree.root)

section Rising

variable {keys : List Int} {n : Nat} {r : Addr} {nd : BTreeNode} {b tree : BTree}
  {α : Type}

/-- An action on a tree of one leaf. -/
theorem guar_starts {f : M α} {P : α → BTreeNode → Prop} (hroot : b.root = some r)
    (hf : ∀ a m, f b.mem = .ok (a, m) →
      ∃ nd', m.get r = some nd' ∧ Starts keys n nd' ∧ P a nd') :
    Guarantees (Stays keys n) (on f) b () fun a b' _ =>
      b'.root = some r ∧ ∃ nd', b'.mem.get r = some nd' ∧ Starts keys n nd' ∧
        P a nd' := by
  refine Guarantees.atom fun a b' hrun => ⟨(), ?_⟩
  obtain ⟨m, hm, rfl⟩ := onMem_ok hrun
  obtain ⟨nd', hget, hstarts, hP⟩ := hf a m hm
  exact ⟨⟨fun _ => ⟨r, nd', hroot, hget, hstarts⟩, fun _ => rfl⟩, hroot, nd', hget,
    hstarts, hP⟩

theorem guar_read {f : M α} {P : α → Prop} (hroot : b.root = some r)
    (hget : b.mem.get r = some nd) (hnd : Starts keys n nd)
    (hf : ∀ a m, f b.mem = .ok (a, m) → m.get = b.mem.get ∧ P a) :
    Guarantees (Stays keys n) (on f) b () fun a b' _ =>
      b'.root = some r ∧ b'.mem.get r = some nd ∧ P a := by
  refine (guar_starts (P := fun a nd' => nd' = nd ∧ P a) hroot ?_).mono ?_
  · intro a m hrun
    obtain ⟨hm, hP⟩ := hf a m hrun
    exact ⟨nd, hm ▸ hget, hnd, rfl, hP⟩
  · rintro a b' _ ⟨hroot', nd', hget', -, rfl, hP⟩
    exact ⟨hroot', hget', hP⟩

/-- A key behind all others is put into a leaf that is not full. -/
theorem guar_append {key : Int} {fuel : Nat} (hroot : b.root = some r)
    (hget : b.mem.get r = some nd) (hnd : Starts keys (n + 1) nd)
    (hnum : nd.keysnum = n + 1) (hlast : ∃ v, keys[n]? = some v ∧ v < key) :
    Guarantees (Stays keys (n + 1)) (InsertActions.insertNonFull (fuel + 1) r key) b ()
      fun _ _ _ => True := by
  refine ((guar_read (P := fun a => a = nd) hroot hget hnd ?_).mono ?_).bind
  · intro a m hrun
    obtain ⟨hget', rfl⟩ := node_ok hrun
    exact ⟨rfl, Option.some.inj (hget'.symm.trans hget)⟩
  rintro nd b₁ _ ⟨hroot₁, hget₁, rfl⟩
  rw [if_pos hnd.leaf, hnum]
  -- the loop stops at once
  have htest : Guarantees (Stays keys (n + 1))
      (on (do pure (decide (key < (← keyAt r n))))) b₁ () fun a b' _ =>
        b'.root = some r ∧ b'.mem.get r = some nd ∧ a = false := by
    refine guar_read hroot₁ hget₁ hnd fun a m hrun => ?_
    obtain ⟨v, m', hkey, hend⟩ := bind_ok hrun
    obtain ⟨nd', hget', hcell, rfl⟩ := keyAt_ok hkey
    obtain rfl := Option.some.inj (hget'.symm.trans hget₁)
    obtain ⟨rfl, rfl⟩ := Prod.mk.inj (Except.ok.inj hend)
    obtain ⟨w, hw, hlt⟩ := hlast
    obtain rfl := Option.some.inj (Option.some.inj
      (hcell.symm.trans (hnd.cells n w (Nat.lt_succ_self n) hw)))
    exact ⟨rfl, decide_eq_false hlt.not_gt⟩
  refine Guarantees.bind ((htest.mono ?_).bind)
  rintro _ b₂ _ ⟨hroot₂, hget₂, rfl⟩
  refine ((guar_starts (P := fun _ nd' => nd'.keysnum = n + 1) hroot₂ ?_).mono
    ?_).bind
  · intro _ m hrun
    obtain ⟨nd', hget', rfl⟩ := setKey_ok hrun
    obtain rfl := Option.some.inj (hget'.symm.trans hget₂)
    refine ⟨_, Mem.get_set_self hget₂, ⟨hnd.leaf, hnd.le, fun i v hi hv => ?_⟩, hnum⟩
    have hcell := hnd.cells i v hi hv
    exact (List.getElem?_set_ne (by omega)).trans hcell
  rintro _ b₃ _ ⟨hroot₃, nd₃, hget₃, hnd₃, hnum₃⟩
  refine (guar_starts (P := fun _ _ => True) hroot₃ ?_).mono fun _ _ _ _ => trivial
  intro _ m hrun
  obtain ⟨nd', m', hnode, hset⟩ := bind_ok hrun
  obtain ⟨hget', rfl⟩ := node_ok hnode
  obtain rfl := Option.some.inj (hget'.symm.trans hget₃)
  obtain ⟨nd'', m'', hnode', hend⟩ := bind_ok hset
  obtain ⟨hget'', rfl⟩ := node_ok hnode'
  obtain rfl := Option.some.inj (hget''.symm.trans hget₃)
  obtain ⟨-, rfl⟩ := Prod.mk.inj (Except.ok.inj hend)
  exact ⟨_, Mem.get_set_self hget₃,
    ⟨hnd₃.leaf, Nat.le_succ_of_le (hnum₃ ▸ Nat.le_refl _), hnd₃.cells⟩, trivial⟩

end Rising

section Ascending

variable {d : Setup} {n : Nat} {tree tree' : BTree}

/-- The tree of the first `n` keys is one leaf, with the keys in order. -/
theorem starts_run (hup : d.keys.Pairwise (· < ·)) (hpos : 1 ≤ n) (hn : n ≤ 7)
    (hkeys : n ≤ d.keys.length)
    (hrun : (BTree.new 4).run (d.history.take n) = .ok tree) :
    tree.t = 4 ∧ ∃ r nd, tree.root = some r ∧ tree.mem.get r = some nd ∧
      Starts d.keys n nd ∧ nd.keysnum = n := by
  obtain ⟨ht, T, hT, hperm⟩ := leaf_first d hpos hn hkeys hrun
  have hsorted : (d.keys.take n).Pairwise (· ≤ ·) :=
    (hup.sublist (List.take_sublist n _)).imp fun h => h.le
  have hK : T.keys = d.keys.take n := hperm.eq_of_pairwise
    (fun _ _ _ _ hab hba => le_antisymm hab hba) hT.sorted hsorted
  obtain ⟨nd, hget, hnd⟩ := hT.rep
  have hnum : nd.keysnum = n := by
    rw [hnd.keysnum_eq, hK, List.length_take]
    omega
  refine ⟨ht, T.id, nd, hT.root, hget, ⟨hnd.leaf_eq, hnum.ge, ?_⟩, hnum⟩
  intro i v hi hv
  refine hnd.key_at ?_
  rw [hK, List.getElem?_take_of_lt hi, hv]

theorem rising_run (hup : d.keys.Pairwise (· < ·)) (hn : n ≤ 7)
    (hkeys : n ≤ d.keys.length)
    (hrun : (BTree.new 4).run (d.history.take n) = .ok tree) :
    Rising d.keys n tree := by
  intro hpos
  obtain ⟨-, r, nd, hroot, hget, hnd, -⟩ :=
    starts_run hup (Nat.one_le_iff_ne_zero.mpr hpos) hn hkeys hrun
  exact ⟨r, nd, hroot, hget, hnd⟩

/-- While the next key is inserted, the first ones stay where they are. -/
theorem insert_stays (hup : d.keys.Pairwise (· < ·)) (hkeys : d.keys.length ≤ 7)
    {key : Int} (hkey : d.keys[n]? = some key)
    (hrun : (BTree.new 4).run (d.history.take n) = .ok tree) :
    Guarantees (Stays d.keys n) (InsertActions.insert tree.t key) tree ()
      fun _ _ _ => True := by
  rcases n with - | n
  · exact .of_all (fun _ _ _ _ => ⟨fun h => absurd rfl h, fun h => absurd rfl h⟩) _
  have hn : n + 1 < d.keys.length := (List.getElem?_eq_some_iff.mp hkey).1
  obtain ⟨ht, r, nd, hroot, hget, hnd, hnum⟩ :=
    starts_run hup (Nat.le_add_left 1 n) (by omega) hn.le hrun
  have hlast : ∃ v, d.keys[n]? = some v ∧ v < key := by
    refine ⟨_, List.getElem?_eq_getElem (by omega), ?_⟩
    rw [← (List.getElem?_eq_some_iff.mp hkey).2]
    exact List.pairwise_iff_getElem.mp hup n (n + 1) (by omega) hn (by omega)
  refine Guarantees.bind (Guarantees.atom fun root b₀ hact => ⟨(), ?_⟩)
  obtain ⟨rfl, rfl⟩ := Prod.mk.inj (Except.ok.inj hact)
  refine ⟨⟨fun _ => ⟨r, nd, hroot, hget, hnd⟩, fun _ => rfl⟩, ?_⟩
  rw [hroot]
  refine ((guar_read (P := fun a => a ≠ 0) hroot hget hnd ?_).mono ?_).bind
  · intro a m hread
    obtain ⟨rfl, rfl⟩ := Prod.mk.inj (Except.ok.inj hread)
    exact ⟨rfl, (Nat.zero_lt_of_lt (Mem.lt_of_get hget)).ne'⟩
  rintro fuel b₁ _ ⟨hroot₁, hget₁, hfuel⟩
  refine ((guar_read (P := fun a => a = nd) hroot₁ hget₁ hnd ?_).mono ?_).bind
  · intro a m hread
    obtain ⟨hget', rfl⟩ := node_ok hread
    exact ⟨rfl, Option.some.inj (hget'.symm.trans hget₁)⟩
  rintro nd b₂ _ ⟨hroot₂, hget₂, rfl⟩
  rw [if_pos (by omega)]
  refine ((guar_read (P := fun _ => True) hroot₂ hget₂ hnd ?_).mono ?_).bind
  · intro a m hread
    obtain ⟨-, rfl⟩ := Prod.mk.inj (Except.ok.inj hread)
    exact ⟨rfl, trivial⟩
  rintro _ b₃ _ ⟨hroot₃, hget₃, -⟩
  obtain ⟨f, rfl⟩ := Nat.exists_eq_add_one_of_ne_zero hfuel
  exact Guarantees.bind ((guar_append hroot₃ hget₃ hnd hnum hlast).mono
    fun _ _ _ _ => trivial)

/-- A search for key `j` that has not passed it. -/
def Near (tree : BTree) (j : Nat) : Search.Place → Prop
  | .entering | .calling => True
  | .scanning p i | .comparing p i => tree.root = some p ∧ i ≤ j
  | .stopped p i => tree.root = some p ∧ i = j
  | .testing _ _ | .descending _ _ => False

/-- The next read does not pass it either. -/
theorem Near.access {pl : Search.Place} {j : Nat} {key : Int} (h : Near tree j pl)
    (hup : d.keys.Pairwise (· < ·)) (hrising : Rising d.keys n tree) (hj : j < n)
    (hkey : d.keys[j]? = some key) (garbage : Addr → Nat → Int) :
    ∃ o, Search.access garbage tree key pl = some o ∧
      o.elim (· = true) (Near tree j) := by
  obtain ⟨r, nd, hroot, hget, hnd⟩ := hrising (Nat.ne_zero_of_lt hj)
  have hread : ∀ {i v}, i < n → d.keys[i]? = some v →
      BTreeNode.slotValue garbage r nd i = v := by
    intro i v hi hv
    simp only [BTreeNode.slotValue, hnd.cells i v hi hv]
  cases pl with
  | entering =>
      refine ⟨.inr .calling, ?_, trivial⟩
      simp only [Search.access, hroot, reduceCtorEq, if_false]
  | calling =>
      refine ⟨.inr (.scanning r 0), ?_, hroot, Nat.zero_le j⟩
      simp only [Search.access, hroot, Option.map_some]
  | scanning p i =>
      obtain ⟨hp, hi⟩ := h
      obtain rfl := Option.some.inj (hp.symm.trans hroot)
      have hlt : i < nd.keysnum := Nat.lt_of_lt_of_le (Nat.lt_of_le_of_lt hi hj) hnd.le
      refine ⟨.inr (.comparing p i), ?_, hp, hi⟩
      simp only [Search.access, hget, Option.map_some, if_pos hlt]
  | comparing p i =>
      obtain ⟨hp, hi⟩ := h
      obtain rfl := Option.some.inj (hp.symm.trans hroot)
      rcases Nat.lt_or_eq_of_le hi with hi | rfl
      · have hlen : j < d.keys.length := (List.getElem?_eq_some_iff.mp hkey).1
        have hv := List.getElem?_eq_getElem (hi.trans hlen)
        have hless : d.keys[i] < key := by
          rw [← (List.getElem?_eq_some_iff.mp hkey).2]
          exact List.pairwise_iff_getElem.mp hup i j (hi.trans hlen) hlen hi
        refine ⟨.inr (.scanning p (i + 1)), ?_, hp, hi⟩
        simp only [Search.access, hget, Option.map_some, hread (hi.trans hj) hv,
          if_pos hless]
      · refine ⟨.inr (.stopped p i), ?_, hp, rfl⟩
        simp only [Search.access, hget, Option.map_some, hread hj hkey, lt_irrefl,
          if_false]
  | stopped p i =>
      obtain ⟨hp, rfl⟩ := h
      obtain rfl := Option.some.inj (hp.symm.trans hroot)
      refine ⟨.inl true, ?_, rfl⟩
      simp only [Search.access, hget, Option.map_some, hread hj hkey, if_true]
  | _ => exact absurd h id

/-- A key that was inserted before the search began is found, if the search has
ended, and not passed otherwise. -/
def Round.OnTrack (keys : List Int) (n : Nat) (tree : BTree) : Round → Prop
  | .waiting => True
  | .searching key pl seen => key ∈ seen →
      ∃ j < n, keys[j]? = some key ∧ Near tree j pl
  | .answered key found seen => key ∈ seen → found = true

variable {c c' : Round}

theorem RoundStep.onTrack (h : RoundStep d tree (d.keys.take n) c c')
    (hup : d.keys.Pairwise (· < ·)) (hrising : Rising d.keys n tree)
    (hc : c.OnTrack d.keys n tree) : c'.OnTrack d.keys n tree := by
  cases h with
  | call key =>
      intro hmem
      obtain ⟨j, hj, hget⟩ := List.mem_take_iff_getElem.mp hmem
      exact ⟨j, by omega, by rw [List.getElem?_eq_getElem (by omega), hget], trivial⟩
  | move hacc =>
      intro hmem
      obtain ⟨j, hj, hkey, hnear⟩ := hc hmem
      obtain ⟨o, ho, hnext⟩ := hnear.access hup hrising hj hkey d.garbage
      obtain rfl := Option.some.inj (ho.symm.trans hacc)
      exact ⟨j, hj, hkey, hnext⟩
  | answer hacc =>
      intro hmem
      obtain ⟨j, hj, hkey, hnear⟩ := hc hmem
      obtain ⟨o, ho, hnext⟩ := hnear.access hup hrising hj hkey d.garbage
      obtain rfl := Option.some.inj (ho.symm.trans hacc)
      exact hnext

theorem Round.OnTrack.stays {m : Nat} (hc : c.OnTrack d.keys n tree) (hm : n ≤ m)
    (hroot : n ≠ 0 → tree'.root = tree.root) : c.OnTrack d.keys m tree' := by
  cases c with
  | searching key pl seen =>
      intro hmem
      obtain ⟨j, hj, hkey, hnear⟩ := hc hmem
      have hsame := hroot (Nat.ne_zero_of_lt hj)
      refine ⟨j, hj.trans_le hm, hkey, ?_⟩
      cases pl with
      | scanning p i => exact ⟨hsame.trans hnear.1, hnear.2⟩
      | comparing p i => exact ⟨hsame.trans hnear.1, hnear.2⟩
      | stopped p i => exact ⟨hsame.trans hnear.1, hnear.2⟩
      | _ => exact hnear
  | _ => exact hc

/-- In every reachable state. -/
structure Tracked (d : Setup) (s : State) : Prop where
  rising : s.main.isOpen = true → Rising d.keys (s.main.calls d) s.tree4
  stays : ∀ i rest, s.main = .inserting i rest →
    Guarantees (Stays d.keys i) rest s.tree4 () fun _ _ _ => True
  rounds : ∀ w ∈ s.workers, ∀ c ∈ w.rounds,
    c.OnTrack d.keys (s.main.calls d) s.tree4

theorem WorkerStep.onTrack {k k' : Option Int} {w w' : Worker}
    (h : WorkerStep d tree (d.keys.take n) (k, w) (k', w'))
    (hup : d.keys.Pairwise (· < ·)) (hrising : Rising d.keys n tree)
    (hw : ∀ c ∈ w.rounds, c.OnTrack d.keys n tree) :
    ∀ c ∈ w'.rounds, c.OnTrack d.keys n tree := by
  cases h with
  | enter =>
      intro c hc
      rw [(List.mem_replicate.mp hc).2]
      trivial
  | search hfree hstep => exact forall_middle hw fun hc => hstep.onTrack hup hrising hc
  | finish => exact hw
  | _ => exact fun c hc => absurd hc List.not_mem_nil

theorem tracked_step {g : Levels} {s s' : State} (hup : d.keys.Pairwise (· < ·))
    (hkeys : d.keys.length ≤ 7) (h : Inv d g s) (hs : Tracked d s)
    (hstep : Step d s s') : Tracked d s' := by
  have hmain := h.main
  have hrising := hs.rising
  have hrounds := hs.rounds
  cases hstep with
  | @call i key hm hkey =>
      rw [hm] at hmain hrising hrounds
      refine ⟨hrising, ?_, hrounds⟩
      rintro _ _ ⟨⟩
      exact insert_stays hup hkeys hkey hmain.2.2
  | @act i β f k b tree hm hrun =>
      obtain ⟨_, ⟨hrising', hroot⟩, hrest⟩ := hs.stays i _ hm b tree hrun
      rw [hm] at hrounds
      refine ⟨fun _ => hrising', ?_, fun w hw c hc =>
        (hrounds w hw c hc).stays (Nat.le_refl _) hroot⟩
      intro j rest hj
      obtain ⟨rfl, rfl⟩ := Main.inserting.inj hj
      exact hrest
  | @ended i r hm =>
      rw [hm] at hmain hrounds
      obtain ⟨hi, -, -, r', tree', hrest, hrun⟩ := hmain
      obtain ⟨rfl, rfl⟩ := Prod.mk.inj (Except.ok.inj hrest)
      have hle : i + 1 ≤ 7 := Nat.le_trans hi hkeys
      exact ⟨fun _ => rising_run hup hle hi hrun, nofun, fun w hw c hc =>
        (hrounds w hw c hc).stays (Nat.le_succ i) fun _ => rfl⟩
  | inserted hm =>
      rw [hm] at hrising hrounds
      exact ⟨hrising, nofun, hrounds⟩
  | joined hm hall =>
      rw [hm] at hrounds
      exact ⟨nofun, nofun, hrounds⟩
  | @remove i key r tree hm hkey hexec =>
      refine ⟨nofun, nofun, fun w hw c hc => ?_⟩
      -- behind the barrier all rounds have their answers
      have hans : c.isAnswered = true := by
        by_contra hleft
        have ho := (h.round hw hc (Bool.not_eq_true _ ▸ hleft)).1
        rw [hm] at ho
        exact Bool.noConfusion ho
      cases c with
      | answered => exact hrounds w hw _ hc
      | _ => exact Bool.noConfusion hans
  | removed hm =>
      rw [hm] at hrounds
      exact ⟨nofun, nofun, hrounds⟩
  | @work A B w w' k hw hstep =>
      have hmem : w ∈ s.workers := hw ▸ by simp
      have hopen := hrising (h.isOpen hmem hstep.unfinished)
      rw [hw] at hrounds
      exact ⟨hrising, hs.stays, forall_middle hrounds fun hc =>
        hstep.onTrack hup hopen hc⟩

theorem tracked_reachable (hup : d.keys.Pairwise (· < ·))
    (hkeys : d.keys.length ≤ 7) {s : State} (h : d.Reachable s) : Tracked d s := by
  have hrun : ReflTransGen (Step d) d.init s := h
  refine (invariant_run (I := fun s => (∃ g, Inv d g s) ∧ Tracked d s) ?_ hrun
    ⟨⟨_, inv_init d⟩, ?_⟩).2
  · rintro s s' ⟨⟨g, hinv⟩, hs⟩ hstep
    exact ⟨inv_step hinv hstep, tracked_step hup hkeys hinv hs hstep⟩
  · refine ⟨fun _ h => absurd rfl h, nofun, fun w hw c hc => ?_⟩
    rw [(List.mem_replicate.mp hw).2] at hc
    exact absurd hc List.not_mem_nil

end Ascending

/-! ## When a key is missed -/

/-- Some schedule, with some keys drawn, makes a search miss a key that was inserted
before it began exactly if a thread but the master has a search to make, and the
driver inserts more than seven keys, or up to seven that are not in ascending
order. -/
theorem missed_iff (d : Setup) : (∃ s, d.Reachable s ∧ s.Missed) ↔
    2 ≤ d.omp_get_num_threads ∧ (d.omp_get_num_threads : Int) - 1 ≤ d.task_size ∧
      (8 ≤ d.keys.length ∨ ¬ d.keys.Pairwise (· < ·)) := by
  have hshare : 2 ≤ d.omp_get_num_threads →
      (1 ≤ d.share ↔ (d.omp_get_num_threads : Int) - 1 ≤ d.task_size) := by
    intro hteam
    rw [d.share_eq, Nat.one_le_div_iff (by omega)]
    omega
  constructor
  · rintro ⟨s, hreach, w, hw, key, seen, hc, hkey⟩
    obtain ⟨g, hinv⟩ := inv_reachable hreach
    have hteam : 2 ≤ d.omp_get_num_threads := by
      have hpos := List.length_pos_of_mem hw
      rw [hinv.workers] at hpos
      omega
    refine ⟨hteam, (hshare hteam).mp ?_, ?_⟩
    · have hsound := hinv.sound w hw
      have hpos := List.length_pos_of_mem hc
      cases w with
      | looping rounds => exact hsound.1 ▸ hpos
      | finished rounds => exact hsound.1 ▸ hpos
      | _ => exact absurd hpos (by decide)
    · by_contra hnone
      rw [not_or, not_not] at hnone
      have htracked := tracked_reachable hnone.2 (by omega) hreach
      exact Bool.noConfusion (htracked.rounds w hw _ hc hkey)
  · rintro ⟨hteam, htasks, hkeys⟩
    have hone := (hshare hteam).mpr htasks
    rcases Nat.lt_or_ge 7 d.keys.length with hmany | hfew
    · exact missed_split d hmany hteam hone
    · have hdown := hkeys.resolve_left (by omega)
      rw [List.pairwise_iff_getElem] at hdown
      push Not at hdown
      obtain ⟨i, j, hi, hj, hij, hle⟩ := hdown
      have hne : d.keys[j] ≠ d.keys[i] := fun heq =>
        hij.ne' ((d.distinct.getElem_inj_iff).mp heq)
      exact missed_shift d hfew hteam hone (List.getElem?_eq_getElem hj)
        (List.mem_take_iff_getElem.mpr ⟨i, by omega, rfl⟩) (lt_of_le_of_ne hle hne)

end ParallelBTree.Ports.Openmp
