import ParallelBTree.Ports.Exist

/-!
# `exist` and the end of the key array

When every live key of a node is smaller than the key searched for, the
comparison behind the loop reads `keys[keysnum]`.  In a node that is not full the
array has such a slot; in a full one it ends before it.

## Main results

* `exist_inside_iff` — the search leaves the array exactly if it comes to a full
  node whose keys are all smaller.
-/

namespace ParallelBTree.Ports

open Relation
open ParallelBTree.Verified.Program
open ParallelBTree.Verified.Multiway
open ParallelBTree.Ports.NodeMemory
open ParallelBTree.Ports.Descent
open ParallelBTree.Ports.Represent

namespace BTreeNode

/-- Reading a slot of the array; there is none to read outside of it.  A slot
that was never assigned holds `garbage p i`. -/
def readInside (garbage : Addr → Nat → Int) (p : Addr) (i : Nat) : M Int := do
  match (← node p).keys.cells[i]? with
  | none => throw (.keyIndex p i)
  | some none => pure (garbage p i)
  | some (some v) => pure v

/-- The scan of `p` stops at a slot that reads as the key. -/
def Hit (garbage : Addr → Nat → Int) (m : Mem) (key : Int) (p : Addr) : Prop :=
  ∃ nd i, m.get p = some nd ∧ i ≤ nd.keysnum ∧ (∀ j < i, KeyBelow nd j key) ∧
    (i < nd.keysnum → ¬ KeyBelow nd i key) ∧ slotValue garbage p nd i = key

/-- The search goes on from `p` to its child `c`. -/
def MissStep (garbage : Addr → Nat → Int) (m : Mem) (key : Int) (p c : Addr) :
    Prop :=
  SearchStep m key p c ∧ ¬ Hit garbage m key p

/-- `p` is full, and all its keys are smaller. -/
def FullBelow (m : Mem) (key : Int) (p : Addr) : Prop :=
  ∃ nd, m.get p = some nd ∧ nd.keysnum = 2 * nd.t - 1 ∧
    ∀ j < nd.keysnum, KeyBelow nd j key

/-- The search from `r` comes to a full node whose keys are all smaller. -/
def Overruns (garbage : Addr → Nat → Int) (m : Mem) (key : Int) (r : Addr) :
    Prop :=
  ∃ q, ReflTransGen (MissStep garbage m key) r q ∧ FullBelow m key q

theorem overruns_iff (garbage : Addr → Nat → Int) (m : Mem) (key : Int)
    (p : Addr) :
    Overruns garbage m key p ↔ FullBelow m key p ∨
      ∃ c, MissStep garbage m key p c ∧ Overruns garbage m key c := by
  constructor
  · rintro ⟨q, hpath, hq⟩
    rcases ReflTransGen.cases_head_iff.mp hpath with rfl | ⟨c, hstep, hpath⟩
    · exact Or.inl hq
    · exact Or.inr ⟨c, hstep, q, hpath, hq⟩
  · rintro (hp | ⟨c, hstep, q, hpath, hq⟩)
    · exact ⟨p, .refl, hp⟩
    · exact ⟨q, .head hstep hpath, hq⟩

section Node

variable {garbage : Addr → Nat → Int} {m : Mem} {t : Nat} {leaf : Bool}
  {p : Addr} {ka kb : List Int} {P : List Addr} {key : Int} {nd : BTreeNode}

theorem readInside_run (hget : m.get p = some nd) {i : Nat}
    (hi : i < 2 * nd.t - 1) :
    readInside garbage p i m = .ok (slotValue garbage p nd i, m) := by
  have hlt : i < nd.keys.cells.length := by
    rw [nd.keys.length_cells]
    exact hi
  have hcell := List.getElem?_eq_getElem hlt
  unfold readInside
  rw [bind_run_ok (node_run hget), slotValue, hcell]
  cases nd.keys.cells[i] <;> rfl

theorem readInside_written (hget : m.get p = some nd) {i : Nat} {v : Int}
    (hv : nd.keys.cells[i]? = some (some v)) :
    readInside garbage p i m = .ok (v, m) := by
  unfold readInside
  rw [bind_run_ok (node_run hget), hv]
  rfl

theorem readInside_outside (hget : m.get p = some nd) {i : Nat}
    (hi : 2 * nd.t - 1 ≤ i) :
    readInside garbage p i m = .error (.keyIndex p i) := by
  have hcell : nd.keys.cells[i]? = none :=
    List.getElem?_eq_none (by rw [nd.keys.length_cells]; exact hi)
  unfold readInside
  rw [bind_run_ok (node_run hget), hcell]
  rfl

/-- There is one place only where the scan stops. -/
theorem stop_eq (h : Holds t leaf (ka ++ kb) P nd) (hlt : ∀ a ∈ ka, a < key)
    (hge : ∀ b ∈ kb.head?, key ≤ b) {i : Nat} (hi : i ≤ nd.keysnum)
    (hbelow : ∀ j < i, KeyBelow nd j key)
    (hstop : i < nd.keysnum → ¬ KeyBelow nd i key) : i = ka.length := by
  rcases Nat.lt_trichotomy i ka.length with hlo | heq | hhi
  · have hin : i < nd.keysnum := by
      rw [h.keysnum_eq, List.length_append]
      omega
    exact absurd (keyBelow_left h hlt hlo) (hstop hin)
  · exact heq
  · exact absurd (hbelow _ hhi) (not_keyBelow_cut h hge (by omega))

theorem hit_iff (hget : m.get p = some nd)
    (h : Holds t leaf (ka ++ kb) P nd) (hlt : ∀ a ∈ ka, a < key)
    (hge : ∀ b ∈ kb.head?, key ≤ b) :
    Hit garbage m key p ↔ slotValue garbage p nd ka.length = key := by
  constructor
  · rintro ⟨nd', i, hget', hi, hbelow, hstop, hv⟩
    obtain rfl : nd = nd' := Option.some.inj (hget.symm.trans hget')
    rwa [stop_eq h hlt hge hi hbelow hstop] at hv
  · intro hv
    refine ⟨nd, ka.length, hget, ?_, fun j hj => keyBelow_left h hlt hj,
      not_keyBelow_cut h hge, hv⟩
    rw [h.keysnum_eq, List.length_append]
    omega

theorem fullBelow_iff (hget : m.get p = some nd)
    (h : Holds t leaf (ka ++ kb) P nd) (hlt : ∀ a ∈ ka, a < key)
    (hge : ∀ b ∈ kb.head?, key ≤ b) :
    FullBelow m key p ↔ ka.length = 2 * nd.t - 1 := by
  have hnum := h.keysnum_eq
  rw [List.length_append] at hnum
  have hle : nd.keysnum ≤ 2 * nd.t - 1 := by
    obtain ⟨R, hR⟩ := h.keys
    have hlen := congrArg List.length hR
    rw [nd.keys.length_cells, List.length_append, List.length_map,
      List.length_append] at hlen
    omega
  constructor
  · rintro ⟨nd', hget', hfull, hall⟩
    obtain rfl : nd = nd' := Option.some.inj (hget.symm.trans hget')
    by_contra hne
    have hi : ka.length < nd.keysnum := by omega
    exact not_keyBelow_cut h hge hi (hall _ hi)
  · intro hfull
    exact ⟨nd, hget, by omega, fun j hj => keyBelow_left h hlt (by omega)⟩

/-- The comparison behind the scan is inside the array, or the node is full and
all its keys are smaller. -/
theorem compare_inside (garbage : Addr → Nat → Int) (hget : m.get p = some nd)
    (h : Holds t leaf (ka ++ kb) P nd) (hlt : ∀ a ∈ ka, a < key)
    (hge : ∀ b ∈ kb.head?, key ≤ b) :
    (FullBelow m key p ∧ readInside garbage p ka.length m =
      .error (.keyIndex p ka.length)) ∨
    (¬ FullBelow m key p ∧ ∃ v, readInside garbage p ka.length m = .ok (v, m) ∧
      (v = key ↔ Hit garbage m key p)) := by
  rw [fullBelow_iff hget h hlt hge, hit_iff hget h hlt hge]
  by_cases hfull : ka.length = 2 * nd.t - 1
  · exact Or.inl ⟨hfull, readInside_outside hget (by omega)⟩
  · have hlen : ka.length ≤ 2 * nd.t - 1 := by
      obtain ⟨R, hR⟩ := h.keys
      have hcells := congrArg List.length hR
      rw [nd.keys.length_cells, List.length_append, List.length_map,
        List.length_append] at hcells
      omega
    exact Or.inr ⟨hfull, _, readInside_run hget (by omega), Iff.rfl⟩

/-- The search at one node, from the comparison on. -/
theorem exist_node (garbage : Addr → Nat → Int) (f : Nat) (hget : m.get p = some nd)
    (h : Holds t leaf (ka ++ kb) P nd)
    (hka : ka.length = ((ka ++ kb).takeWhile (· < key)).length) :
    exist (readInside garbage) (f + 1) p key m =
      (readInside garbage p ka.length >>= fun v =>
        if v = key then pure true
        else if nd.leaf then pure false
        else child p ka.length >>= fun c =>
          exist (readInside garbage) f c key) m := by
  have hscan : scanUp nd.keysnum (fun i => do
      pure (decide ((← readInside garbage p i) < key))) m =
      .ok (lowerPos (ka ++ kb) key, m) :=
    scan_run_live (fun _ _ _ hv => readInside_written hget hv) h
  have hpos : lowerPos (ka ++ kb) key = ka.length := hka.symm
  rw [hpos] at hscan
  rw [exist, bind_run_ok (node_run hget), bind_run_ok hscan]

end Node

/-- The search returns, or it stops at the end of the array of a full node whose
keys are all smaller. -/
theorem exist_inside {garbage : Addr → Nat → Int} {m : Mem} {t : Nat}
    (key : Int) :
    ∀ (n : Nat) (T : Tree Int n) (fuel : Nat), n < fuel → Rep m t n T →
      WF t n T →
      (Overruns garbage m key T.id ∧ ∃ q i,
        exist (readInside garbage) fuel T.id key m =
          .error (.keyIndex q i)) ∨
      (¬ Overruns garbage m key T.id ∧ ∃ r,
        exist (readInside garbage) fuel T.id key m = .ok (r, m)) := by
  intro n
  induction n with
  | zero =>
      intro T fuel hfuel h _
      obtain ⟨f, rfl⟩ := Nat.exists_eq_add_one_of_ne_zero hfuel.ne'
      obtain ⟨p, K, C⟩ := T
      obtain ⟨ka, kb, rfl, hka, hlt, hge⟩ := takeWhile_cut K key
      obtain ⟨nd, hget, hnd⟩ := h
      have hnostep : ∀ c, ¬ MissStep garbage m key p c := by
        rintro c ⟨⟨nd', i, hget', hleaf, -⟩, -⟩
        obtain rfl : nd = nd' := Option.some.inj (hget.symm.trans hget')
        exact absurd (hleaf.symm.trans hnd.leaf_eq) (by decide)
      have hover : Overruns garbage m key p ↔ FullBelow m key p := by
        rw [overruns_iff]
        simp [hnostep]
      have hrun := exist_node garbage f hget hnd hka
      rw [hover]
      rcases compare_inside garbage hget hnd hlt hge with
        ⟨hfull, hread⟩ | ⟨hnot, v, hread, -⟩
      · left
        exact ⟨hfull, p, ka.length, hrun.trans (bind_run_error hread)⟩
      · right
        refine ⟨hnot, decide (v = key), ?_⟩
        rw [hrun, bind_run_ok hread]
        by_cases hkey : v = key
        · simp [hkey]
        · simp [hkey, hnd.leaf_eq]
  | succ n ih =>
      intro T fuel hfuel h hwf
      obtain ⟨f, rfl⟩ := Nat.exists_eq_add_one_of_ne_zero
        (Nat.zero_lt_of_lt hfuel).ne'
      obtain ⟨p, K, C⟩ := T
      obtain ⟨ka, kb, rfl, hka, hlt, hge⟩ := takeWhile_cut K key
      obtain ⟨A, c, B, rfl, hA, -⟩ := exists_kids_cut (hwf.2.1 : C.length = _)
      have hmem : c ∈ A ++ c :: B := by simp
      obtain ⟨nd, hget, hnd⟩ := h.1
      have hstep : ∀ q, SearchStep m key p q ↔ q = c.id := by
        have hholds : Holds t false (ka ++ kb)
            (A.map Node.id ++ c.id :: B.map Node.id) nd := by
          have hmap := hnd
          simpa using hmap
        exact searchStep_iff hget hholds (by simpa using hA) hlt hge
      have hrun := exist_node garbage f hget hnd hka
      rw [overruns_iff]
      rcases compare_inside garbage hget hnd hlt hge with
        ⟨hfull, hread⟩ | ⟨hnot, v, hread, hv⟩
      · left
        exact ⟨Or.inl hfull, p, ka.length, hrun.trans (bind_run_error hread)⟩
      rw [hrun, bind_run_ok hread]
      by_cases hkey : v = key
      · right
        have hhit := hv.mp hkey
        refine ⟨?_, true, by rw [if_pos hkey]; rfl⟩
        rintro (hfull | ⟨q, hq, -⟩)
        · exact hnot hfull
        · exact hq.2 hhit
      · have hmiss : ¬ Hit garbage m key p := fun hhit => hkey (hv.mpr hhit)
        have hover : (FullBelow m key p ∨ ∃ q, MissStep garbage m key p q ∧
            Overruns garbage m key q) ↔ Overruns garbage m key c.id := by
          simp [hnot, MissStep, hstep, hmiss]
        have hchild := (h.kid_run (kids_cut hA)).1
        rw [if_neg hkey, if_neg (by simp [hnd.leaf_eq]), bind_run_ok hchild,
          hover]
        exact ih c f (Nat.lt_of_succ_lt_succ hfuel) (h.2 c hmem)
          (hwf.kid hmem).2

end BTreeNode

namespace BTree

/-- `exist(key)` reads no key slot outside the array. -/
def ExistInside (garbage : Addr → Nat → Int) (b : BTree) (key : Int) : Prop :=
  ∀ p i, BTree.exist (BTreeNode.readInside garbage) b.root key b.mem ≠
    .error (.keyIndex p i)

/-- The search for the key comes to a full node whose keys are all smaller. -/
def Overruns (garbage : Addr → Nat → Int) (b : BTree) (key : Int) : Prop :=
  ∃ r, b.root = some r ∧ BTreeNode.Overruns garbage b.mem key r

theorem Stores.existInside_iff {b : BTree} {L : List Int} (h : b.Stores L)
    (garbage : Addr → Nat → Int) (key : Int) :
    b.ExistInside garbage key ↔ ¬ b.Overruns garbage key := by
  cases h with
  | vacant h =>
      apply iff_of_true
      · intro p i hrun
        rw [h.root] at hrun
        cases hrun
      · rintro ⟨r, hroot, -⟩
        exact Option.some_ne_none r (hroot.symm.trans h.root)
  | @holding n T h =>
      have hover : b.Overruns garbage key ↔
          BTreeNode.Overruns garbage b.mem key T.id := by
        simp [Overruns, h.root]
      have hexist : BTree.exist (BTreeNode.readInside garbage) b.root key b.mem =
          BTreeNode.exist (BTreeNode.readInside garbage) b.mem.nodes.length T.id
            key b.mem := by
        rw [h.root]
        rfl
      rw [hover, ExistInside, hexist]
      rcases BTreeNode.exist_inside key n T _ h.fuel h.rep
        h.wf with ⟨hyes, q, i, hrun⟩ | ⟨hno, r, hrun⟩
      · exact iff_of_false (fun hin => hin q i hrun) (not_not.mpr hyes)
      · refine iff_of_true (fun p i hrun' => ?_) hno
        rw [hrun] at hrun'
        cases hrun'

/-- On every reachable tree, present key or not, the search stays inside the key
arrays exactly if it comes to no full node whose keys are all smaller. -/
theorem exist_inside_iff (t : Nat) (ht : 2 ≤ t) (ops : List Op) (key : Int)
    (garbage : Addr → Nat → Int) :
    ∃ b, (BTree.new t).run ops = .ok b ∧
      (b.ExistInside garbage key ↔ ¬ b.Overruns garbage key) := by
  obtain ⟨b, hrun, -, h⟩ := run_stores ht ops
  exact ⟨b, hrun, h.existInside_iff garbage key⟩

theorem exist_inside_iff_two :
    ∃ b, (BTree.new 2).run [.insert 1, .insert 2, .insert 3] = .ok b ∧
      (b.ExistInside (fun _ _ => 0) 4 ↔ ¬ b.Overruns (fun _ _ => 0) 4) :=
  exist_inside_iff 2 (by decide) [.insert 1, .insert 2, .insert 3] 4
    fun _ _ => 0

/-- The root holds 1, 2 and 3 and is full; the search for 4 compares `keys[3]`. -/
theorem exist_outside :
    ∃ b, (BTree.new 2).run [.insert 1, .insert 2, .insert 3] = .ok b ∧
      ¬ b.ExistInside (fun _ _ => 0) 4 :=
  ⟨_, rfl, fun hin => hin 0 3 rfl⟩

end BTree

end ParallelBTree.Ports
