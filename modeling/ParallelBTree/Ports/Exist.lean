import Mathlib.Logic.Relation
import ParallelBTree.Ports.Runs

/-!
# `exist`

The comparison behind the loop of `exist` also reads `keys[i]` when the loop has
run to `i == keysnum`, so what stands in a slot behind the live keys decides the
answer together with the keys that are stored.  `exist_run` says how: it answers
true exactly if the key is stored, or if some node on the search path whose live
keys are all smaller holds the key in slot `keysnum`.

## Main results

* `exist_finds` — a stored key is found, whatever stands in the dead slots.
* `exist_sound_iff` — when a key that is found is a stored one.
-/

namespace ParallelBTree.Ports

open Relation
open ParallelBTree.Verified.Program
open ParallelBTree.Verified.Multiway
open ParallelBTree.Ports.NodeMemory
open ParallelBTree.Ports.Descent
open ParallelBTree.Ports.Represent

namespace BTreeNode

/-! ## Reading key slots -/

/-- What stands in `keys[i]` of the node `nd` at `p`; a slot that was never
assigned, or lies outside the array, holds `garbage p i`. -/
def slotValue (garbage : Addr → Nat → Int) (p : Addr) (nd : BTreeNode)
    (i : Nat) : Int :=
  match nd.keys.cells[i]? with
  | some (some v) => v
  | _ => garbage p i

/-- Reading a slot as it stands. -/
def readWith (garbage : Addr → Nat → Int) (p : Addr) (i : Nat) : M Int := do
  pure (slotValue garbage p (← node p) i)

/-- Reading a slot, with any value in place of a dead one. -/
def readLive (dead : Addr → Nat → Int) (p : Addr) (i : Nat) : M Int := do
  if i < (← node p).keysnum then keyAt p i else pure (dead p i)

/-- The value of slot `keysnum`. -/
def pastValue (garbage : Addr → Nat → Int) (m : Mem) (p : Addr) : Int :=
  (m.get p).elim 0 fun nd => slotValue garbage p nd nd.keysnum

/-- `rd` reads live keys right, and `dead p` in slot `keysnum` of `p`. -/
structure Reads (rd : Addr → Nat → M Int) (m : Mem) (dead : Addr → Int) :
    Prop where
  live : ∀ {p nd i v}, m.get p = some nd → i < nd.keysnum →
    nd.keys.cells[i]? = some (some v) → rd p i m = .ok (v, m)
  past : ∀ {p nd}, m.get p = some nd → rd p nd.keysnum m = .ok (dead p, m)

theorem reads_with (garbage : Addr → Nat → Int) (m : Mem) :
    Reads (readWith garbage) m (pastValue garbage m) where
  live := by
    intro p nd i v hget _ hv
    unfold readWith
    rw [bind_run_ok (node_run hget), pure_run, slotValue, hv]
  past := by
    intro p nd hget
    unfold readWith
    rw [bind_run_ok (node_run hget), pure_run, pastValue, hget]
    rfl

theorem reads_live (dead : Addr → Nat → Int) (m : Mem) :
    Reads (readLive dead) m fun p =>
      (m.get p).elim 0 fun nd => dead p nd.keysnum where
  live := by
    intro p nd i v hget hi hv
    unfold readLive
    rw [bind_run_ok (node_run hget), if_pos hi]
    exact keyAt_run hget hv
  past := by
    intro p nd hget
    unfold readLive
    rw [bind_run_ok (node_run hget), if_neg (lt_irrefl _), pure_run, hget]
    rfl

/-! ## The search path -/

/-- Key `i` of the node is smaller than `key`. -/
def KeyBelow (nd : BTreeNode) (i : Nat) (key : Int) : Prop :=
  ∃ v, nd.keys.cells[i]? = some (some v) ∧ v < key

/-- `c` is the child of `p` before the first live key that is not smaller. -/
def SearchStep (m : Mem) (key : Int) (p c : Addr) : Prop :=
  ∃ nd i, m.get p = some nd ∧ nd.leaf = false ∧ i ≤ nd.keysnum ∧
    (∀ j < i, KeyBelow nd j key) ∧ (i < nd.keysnum → ¬ KeyBelow nd i key) ∧
    nd.children.cells[i]? = some (some (some c))

/-- All live keys of `p` are smaller. -/
def AllBelow (m : Mem) (key : Int) (p : Addr) : Prop :=
  ∃ nd, m.get p = some nd ∧ ∀ j < nd.keysnum, KeyBelow nd j key

/-- On the search path from `r` some node whose live keys are all smaller reads
as the key behind them. -/
def Misled (dead : Addr → Int) (m : Mem) (key : Int) (r : Addr) : Prop :=
  ∃ q, ReflTransGen (SearchStep m key) r q ∧ AllBelow m key q ∧ dead q = key

theorem misled_iff (dead : Addr → Int) (m : Mem) (key : Int) (p : Addr) :
    Misled dead m key p ↔ (AllBelow m key p ∧ dead p = key) ∨
      ∃ c, SearchStep m key p c ∧ Misled dead m key c := by
  constructor
  · rintro ⟨q, hpath, hq⟩
    rcases ReflTransGen.cases_head_iff.mp hpath with rfl | ⟨c, hstep, hpath⟩
    · exact Or.inl hq
    · exact Or.inr ⟨c, hstep, q, hpath, hq⟩
  · rintro (hp | ⟨c, hstep, q, hpath, hq⟩)
    · exact ⟨p, .refl, hp⟩
    · exact ⟨q, .head hstep hpath, hq⟩

section Node

variable {m : Mem} {t : Nat} {leaf : Bool} {p : Addr} {ka kb : List Int}
  {P : List Addr} {key : Int}

theorem keyBelow_iff {K : List Int} {nd : BTreeNode} (h : Holds t leaf K P nd)
    {i : Nat} {v : Int} (hv : K[i]? = some v) : KeyBelow nd i key ↔ v < key := by
  have hslot := h.key_at hv
  constructor
  · rintro ⟨w, hw, hlt⟩
    rw [hslot] at hw
    rwa [Option.some.inj (Option.some.inj hw)]
  · intro hlt
    exact ⟨v, hslot, hlt⟩

theorem keyBelow_left {nd : BTreeNode} (h : Holds t leaf (ka ++ kb) P nd)
    (hlt : ∀ a ∈ ka, a < key) {i : Nat} (hi : i < ka.length) :
    KeyBelow nd i key := by
  have hv : (ka ++ kb)[i]? = some ka[i] := by
    rw [List.getElem?_append_left hi, List.getElem?_eq_getElem hi]
  exact (keyBelow_iff h hv).mpr (hlt _ (List.getElem_mem hi))

theorem not_keyBelow_cut {nd : BTreeNode} (h : Holds t leaf (ka ++ kb) P nd)
    (hge : ∀ b ∈ kb.head?, key ≤ b) (hi : ka.length < nd.keysnum) :
    ¬ KeyBelow nd ka.length key := by
  cases kb with
  | nil =>
      rw [h.keysnum_eq, List.append_nil] at hi
      exact absurd hi (lt_irrefl _)
  | cons b kb =>
      have hv : (ka ++ b :: kb)[ka.length]? = some b := by simp
      rw [keyBelow_iff h hv]
      exact not_lt.mpr (hge b rfl)

/-- The scan of a node stops at the cut, if the live keys are read right. -/
theorem scan_run_live {rd : Addr → Nat → M Int} {nd : BTreeNode}
    (hlive : ∀ i v, i < nd.keysnum → nd.keys.cells[i]? = some (some v) →
      rd p i m = .ok (v, m)) {K : List Int} (h : Holds t leaf K P nd) :
    scanUp nd.keysnum (fun i => do pure (decide ((← rd p i) < key))) m =
      .ok (lowerPos K key, m) := by
  have hnum := h.keysnum_eq
  rw [hnum]
  apply scanUp_run
  intro j hj
  show (rd p j >>= fun x => pure (decide (x < key))) m = _
  have hslot := h.key_at (List.getElem?_eq_getElem hj)
  rw [bind_run_ok (hlive j _ (hnum ▸ hj) hslot)]
  rfl

theorem scan_run {rd : Addr → Nat → M Int} {dead : Addr → Int}
    (hrd : Reads rd m dead) {nd : BTreeNode} (hget : m.get p = some nd)
    {K : List Int} (h : Holds t leaf K P nd) :
    scanUp nd.keysnum (fun i => do pure (decide ((← rd p i) < key))) m =
      .ok (lowerPos K key, m) :=
  scan_run_live (fun _ _ hi hv => hrd.live hget hi hv) h

/-- The comparison behind the scan. -/
theorem compare_run {rd : Addr → Nat → M Int} {dead : Addr → Int}
    (hrd : Reads rd m dead) (h : Live m t p leaf (ka ++ kb) P)
    (hs : Sorted (ka ++ kb)) (hlt : ∀ a ∈ ka, a < key)
    (hge : ∀ b ∈ kb.head?, key ≤ b) :
    ∃ v, rd p ka.length m = .ok (v, m) ∧
      (v = key ↔ key ∈ ka ++ kb ∨ (AllBelow m key p ∧ dead p = key)) := by
  obtain ⟨nd, hget, hnd⟩ := h
  have hnum := hnd.keysnum_eq
  rw [mem_cut_iff hs hlt hge]
  cases kb with
  | nil =>
      rw [List.append_nil] at hnum
      have hall : AllBelow m key p := ⟨nd, hget, fun j hj =>
        keyBelow_left hnd hlt (hnum ▸ hj)⟩
      refine ⟨dead p, hnum ▸ hrd.past hget, ?_⟩
      simp [hall]
  | cons b kb =>
      have hb : (ka ++ b :: kb)[ka.length]? = some b := by simp
      have hi : ka.length < nd.keysnum := by
        rw [hnum]
        simp
      have hall : ¬ AllBelow m key p := by
        rintro ⟨nd', hget', hall⟩
        obtain rfl : nd = nd' := Option.some.inj (hget.symm.trans hget')
        exact not_keyBelow_cut hnd hge hi (hall _ hi)
      refine ⟨b, hrd.live hget hi (hnd.key_at hb), ?_⟩
      simp [hall]

/-- The search goes on in the kid at the cut, and nowhere else. -/
theorem searchStep_iff {nd : BTreeNode} (hget : m.get p = some nd)
    {PA PB : List Addr} {c : Addr}
    (h : Holds t false (ka ++ kb) (PA ++ c :: PB) nd)
    (hlen : PA.length = ka.length) (hlt : ∀ a ∈ ka, a < key)
    (hge : ∀ b ∈ kb.head?, key ≤ b) (q : Addr) :
    SearchStep m key p q ↔ q = c := by
  have hslot : nd.children.cells[ka.length]? = some (some (some c)) :=
    h.kid_at (by simp [← hlen])
  constructor
  · rintro ⟨nd', i, hget', -, hi, hbelow, hstop, hc⟩
    obtain rfl : nd = nd' := Option.some.inj (hget.symm.trans hget')
    rcases Nat.lt_trichotomy i ka.length with hlo | rfl | hhi
    · have hin : i < nd.keysnum := by
        rw [h.keysnum_eq, List.length_append]
        omega
      exact absurd (keyBelow_left h hlt hlo) (hstop hin)
    · rw [hslot] at hc
      exact (Option.some.inj (Option.some.inj (Option.some.inj hc))).symm
    · exact absurd (hbelow _ hhi) (not_keyBelow_cut h hge (by omega))
  · rintro rfl
    refine ⟨nd, ka.length, hget, h.leaf_eq, ?_, ?_, ?_, hslot⟩
    · rw [h.keysnum_eq, List.length_append]
      omega
    · exact fun j hj => keyBelow_left h hlt hj
    · exact not_keyBelow_cut h hge

end Node

/-! ## The whole search -/

theorem exist_run {rd : Addr → Nat → M Int} {m : Mem} {dead : Addr → Int}
    {t : Nat} (hrd : Reads rd m dead) (key : Int) :
    ∀ (n : Nat) (T : Tree Int n) (fuel : Nat), n < fuel → Rep m t n T →
      WF t n T → Sorted (inorder n T) →
      ∃ r, exist rd fuel T.id key m = .ok (r, m) ∧
        (r = true ↔ key ∈ inorder n T ∨ Misled dead m key T.id) := by
  intro n
  induction n with
  | zero =>
      intro T fuel hfuel h _ hs
      obtain ⟨f, rfl⟩ := Nat.exists_eq_add_one_of_ne_zero hfuel.ne'
      obtain ⟨p, K, C⟩ := T
      obtain ⟨ka, kb, rfl, hka, hlt, hge⟩ := takeWhile_cut K key
      obtain ⟨v, hread, hv⟩ := compare_run hrd h hs hlt hge
      obtain ⟨nd, hget, hnd⟩ := h
      have hnostep : ∀ c, ¬ SearchStep m key p c := by
        rintro c ⟨nd', i, hget', hleaf, -⟩
        obtain rfl : nd = nd' := Option.some.inj (hget.symm.trans hget')
        exact absurd (hleaf.symm.trans hnd.leaf_eq) (by decide)
      have hpos : lowerPos (ka ++ kb) key = ka.length := hka.symm
      have hgoal : (key ∈ inorder 0 ⟨p, ka ++ kb, C⟩ ∨ Misled dead m key p) ↔
          v = key := by
        rw [misled_iff, hv]
        simp [hnostep, inorder]
      refine ⟨decide (v = key), ?_, ?_⟩
      · unfold exist
        rw [bind_run_ok (node_run hget), bind_run_ok (scan_run hrd hget hnd),
          hpos, bind_run_ok hread]
        by_cases hkey : v = key
        · simp [hkey]
        · simp [hkey, hnd.leaf_eq]
      · rw [decide_eq_true_iff, hgoal]
  | succ n ih =>
      intro T fuel hfuel h hwf hs
      obtain ⟨f, rfl⟩ := Nat.exists_eq_add_one_of_ne_zero
        (Nat.zero_lt_of_lt hfuel).ne'
      obtain ⟨p, K, C⟩ := T
      obtain ⟨ka, kb, rfl, hka, hlt, hge⟩ := takeWhile_cut K key
      obtain ⟨A, c, B, rfl, hA, hB⟩ := exists_kids_cut (hwf.2.1 : C.length = _)
      have hmem : c ∈ A ++ c :: B := by simp
      obtain ⟨v, hread, hv⟩ := compare_run hrd h.1 (sorted_keys hs) hlt hge
      obtain ⟨nd, hget, hnd⟩ := h.1
      have hpos : lowerPos (ka ++ kb) key = ka.length := hka.symm
      have hstep : ∀ q, SearchStep m key p q ↔ q = c.id := by
        have hholds : Holds t false (ka ++ kb)
            (A.map Node.id ++ c.id :: B.map Node.id) nd := by
          have hmap := hnd
          simpa using hmap
        exact searchStep_iff hget hholds (by simpa using hA) hlt hge
      by_cases hkey : v = key
      · refine ⟨true, ?_, ?_⟩
        · unfold exist
          rw [bind_run_ok (node_run hget), bind_run_ok (scan_run hrd hget hnd),
            hpos, bind_run_ok hread, if_pos hkey]
          rfl
        · apply iff_of_true rfl
          rcases hv.mp hkey with hin | hdead
          · exact Or.inl ((keys_sublist _ _).subset hin)
          · exact Or.inr ((misled_iff dead m key p).mpr (Or.inl hdead))
      · have hsort := (List.pairwise_append.mp (List.pairwise_append.mp
          (inorder_focus p ka kb A B c hA.symm ▸ hs)).2.1).1
        obtain ⟨r, hrun, hr⟩ := ih c f (Nat.lt_of_succ_lt_succ hfuel)
          (h.2 c hmem) (hwf.kid hmem).2 hsort
        refine ⟨r, ?_, ?_⟩
        · unfold exist
          rw [bind_run_ok (node_run hget), bind_run_ok (scan_run hrd hget hnd),
            hpos, bind_run_ok hread, if_neg hkey,
            if_neg (by simp [hnd.leaf_eq]),
            bind_run_ok (h.kid_run (kids_cut hA)).1]
          exact hrun
        · obtain ⟨hnotin, hlive⟩ := not_or.mp fun hor => hkey (hv.mpr hor)
          have hgt : ∀ b ∈ kb.head?, key < b := by
            intro b hb
            apply lt_of_le_of_ne (hge b hb)
            rintro rfl
            exact hnotin (List.mem_append_right ka (List.mem_of_mem_head? hb))
          rw [hr, mem_kid_iff hA.symm hB hs hlt hgt, misled_iff dead m key p]
          simp [hstep, hlive]

end BTreeNode

namespace BTree

variable {b : BTree} {L : List Int}

/-- Some node on the search path from the root misleads the search. -/
def Misleads (dead : Addr → Int) (b : BTree) (key : Int) : Prop :=
  ∃ r, b.root = some r ∧ BTreeNode.Misled dead b.mem key r

theorem Stores.exist {rd : Addr → Nat → M Int} {dead : Addr → Int}
    (hrd : BTreeNode.Reads rd b.mem dead) (h : b.Stores L) (key : Int) :
    ∃ r, BTree.exist rd b.root key b.mem = .ok (r, b.mem) ∧
      (r = true ↔ key ∈ L ∨ b.Misleads dead key) := by
  cases h with
  | vacant h =>
      refine ⟨false, ?_, ?_⟩
      · rw [h.root]
        rfl
      · simp [Misleads, h.root]
  | @holding n T h =>
      obtain ⟨r, hrun, hr⟩ := BTreeNode.exist_run hrd key n T _ h.fuel h.rep h.wf
        h.sorted
      refine ⟨r, ?_, ?_⟩
      · rw [h.root]
        exact hrun
      · simpa [Misleads, h.root] using hr

/-- A stored key is found, whatever the dead key slots hold. -/
theorem exist_finds (t : Nat) (ht : 2 ≤ t) (ops : List Op) (key : Int)
    (dead : Addr → Nat → Int) :
    ∃ b L, (BTree.new t).run ops = .ok b ∧ b.contents = .ok L ∧
      (key ∈ L → BTree.exist (BTreeNode.readLive dead) b.root key b.mem =
        .ok (true, b.mem)) := by
  obtain ⟨b, hrun, -, h⟩ := run_stores ht ops
  refine ⟨b, _, hrun, h.contents, fun hmem => ?_⟩
  obtain ⟨r, hexist, hr⟩ := h.exist (BTreeNode.reads_live dead b.mem) key
  rw [hexist, hr.mpr (Or.inl hmem)]

theorem exist_finds_two :
    ∃ b L, (BTree.new 2).run [.insert 1, .insert 2, .insert 3, .insert 4] =
        .ok b ∧ b.contents = .ok L ∧
      (4 ∈ L → BTree.exist (BTreeNode.readLive fun _ _ => 0) b.root 4 b.mem =
        .ok (true, b.mem)) :=
  exist_finds 2 (by decide) [.insert 1, .insert 2, .insert 3, .insert 4] 4
    fun _ _ => 0

/-- If `exist(key)` returns true then the key is stored. -/
def ExistSound (garbage : Addr → Nat → Int) (b : BTree) (key : Int) : Prop :=
  ∃ L r, b.contents = .ok L ∧
    BTree.exist (BTreeNode.readWith garbage) b.root key b.mem =
      .ok (r, b.mem) ∧ (r = true → key ∈ L)

/-- A key that is not stored is found exactly if a slot behind the live keys of
a node on the search path holds it. -/
theorem exist_sound_iff (t : Nat) (ht : 2 ≤ t) (ops : List Op) (key : Int)
    (garbage : Addr → Nat → Int) :
    ∃ b L, (BTree.new t).run ops = .ok b ∧ b.contents = .ok L ∧
      (b.ExistSound garbage key ↔ (key ∈ L ∨
        ¬ b.Misleads (BTreeNode.pastValue garbage b.mem) key)) := by
  obtain ⟨b, hrun, -, h⟩ := run_stores ht ops
  refine ⟨b, _, hrun, h.contents, ?_⟩
  obtain ⟨r, hexist, hr⟩ := h.exist (BTreeNode.reads_with garbage b.mem) key
  constructor
  · rintro ⟨L', r', hL, hexist', hsound⟩
    obtain rfl := Except.ok.inj (h.contents.symm.trans hL)
    obtain rfl : r = r' :=
      congrArg Prod.fst (Except.ok.inj (hexist.symm.trans hexist'))
    by_cases hmem : key ∈ ops.foldl sortedStep []
    · exact Or.inl hmem
    · exact Or.inr fun hmis => hmem (hsound (hr.mpr (Or.inr hmis)))
  · intro hwhen
    refine ⟨_, r, h.contents, hexist, fun htrue => ?_⟩
    rcases hr.mp htrue with hmem | hmis
    · exact hmem
    · exact hwhen.resolve_right (not_not.mpr hmis)

theorem exist_sound_iff_two :
    ∃ b L, (BTree.new 2).run [.insert 1, .insert 2] = .ok b ∧
      b.contents = .ok L ∧ (b.ExistSound (fun _ _ => 0) 2 ↔ (2 ∈ L ∨
        ¬ b.Misleads (BTreeNode.pastValue (fun _ _ => 0) b.mem) 2)) :=
  exist_sound_iff 2 (by decide) [.insert 1, .insert 2] 2 fun _ _ => 0

/-- The key 2 is found after its only occurrence was removed: it still stands in
slot 1 of the root. -/
theorem exist_stale_key :
    ∃ b, (BTree.new 2).run [.insert 1, .insert 2, .remove 2] = .ok b ∧
      ¬ b.ExistSound (fun _ _ => 0) 2 := by
  refine ⟨_, rfl, ?_⟩
  rintro ⟨L, r, hL, hexist, hsound⟩
  obtain rfl : [1] = L := Except.ok.inj hL
  have htrue : true = r := congrArg Prod.fst (Except.ok.inj hexist)
  exact absurd (hsound htrue.symm) (by decide)

end BTree

end ParallelBTree.Ports
