import ParallelBTree.Ports.InsertGuarantee
import ParallelBTree.Ports.Search

/-!
# `exist`, one read at a time

A call of `exist` while another thread inserts: between any two reads of the call
the other one may write, and nothing that was read has to be true any longer when
the call goes on.  `access` makes the next read and says where the call is then.

`Place.Ready` is what makes the next read one of memory that is there.  It
survives whatever `Grows` allows (`Place.Ready.grows`), so a call is ready all the
time, and the levels bound how many reads it makes.

## Main results

* `answers_of_exist` — with nobody else writing, the reads are those of `exist`.
* `Place.Ready.access` — while keys are inserted, every read can be made, and the
  call comes nearer to its end.
-/

namespace ParallelBTree.Ports.Search

open Relation
open ParallelBTree.Verified.Program
open ParallelBTree.Ports.NodeMemory
open ParallelBTree.Ports.BTreeNode
open ParallelBTree.Ports.InsertActions

/-- Where a call of `exist` is. -/
inductive Place where
  /-- before `(root) ?` -/
  | entering
  /-- before `root->exist(key)` -/
  | calling
  /-- before `i < keysnum` -/
  | scanning (p : Addr) (i : Nat)
  /-- before `key > keys[i]` -/
  | comparing (p : Addr) (i : Nat)
  /-- before `keys[i] == key` -/
  | stopped (p : Addr) (i : Nat)
  /-- before `leaf == true` -/
  | testing (p : Addr) (i : Nat)
  /-- before `children[i]->exist(key)` -/
  | descending (p : Addr) (i : Nat)
  deriving DecidableEq, Repr

/-- The next read of `exist(key)`: the answer, or where the call is then; `none`
for `nullptr`, a child slot that was never written, and a node that is not there.
A key slot that was never written reads as `garbage` says. -/
def access (garbage : Addr → Nat → Int) (b : BTree) (key : Int) :
    Place → Option (Bool ⊕ Place)
  | .entering => some (if b.root = none then .inl false else .inr .calling)
  | .calling => b.root.map fun r => .inr (.scanning r 0)
  | .scanning p i => (b.mem.get p).map fun nd =>
      .inr (if i < nd.keysnum then .comparing p i else .stopped p i)
  | .comparing p i => (b.mem.get p).map fun nd =>
      .inr (if slotValue garbage p nd i < key then .scanning p (i + 1)
        else .stopped p i)
  | .stopped p i => (b.mem.get p).map fun nd =>
      if slotValue garbage p nd i = key then .inl true else .inr (.testing p i)
  | .testing p i => (b.mem.get p).map fun nd =>
      if nd.leaf then .inl false else .inr (.descending p i)
  | .descending p i => (b.mem.get p).bind fun nd =>
      match nd.children.cells[i]? with
      | some (some (some c)) => some (.inr (.scanning c 0))
      | _ => none

/-! ## With nobody else writing -/

/-- The call goes on from one place to another. -/
def Moves (garbage : Addr → Nat → Int) (b : BTree) (key : Int) (pl pl' : Place) :
    Prop := access garbage b key pl = some (.inr pl')

/-- The call that is at `pl` will give the answer `found`. -/
def Answers (garbage : Addr → Nat → Int) (b : BTree) (key : Int) (pl : Place)
    (found : Bool) : Prop :=
  ∃ pl', ReflTransGen (Moves garbage b key) pl pl' ∧
    access garbage b key pl' = some (.inl found)

section Alone

variable {garbage : Addr → Nat → Int} {b : BTree} {key : Int} {p : Addr}
  {nd : BTreeNode} {pl pl' : Place} {found : Bool} {m : Mem}

theorem Answers.after (hmoves : ReflTransGen (Moves garbage b key) pl pl')
    (h : Answers garbage b key pl' found) : Answers garbage b key pl found := by
  obtain ⟨last, hrest, hlast⟩ := h
  exact ⟨last, hmoves.trans hrest, hlast⟩

private theorem read_with (hget : b.mem.get p = some nd) (i : Nat) :
    readWith garbage p i b.mem = .ok (slotValue garbage p nd i, b.mem) := by
  unfold readWith
  rw [bind_run_ok (node_run hget)]
  rfl

/-- The reads of the loop. -/
theorem moves_scan (hget : b.mem.get p = some nd) : ∀ (count lo : Nat) {i : Nat},
    lo + count = nd.keysnum →
    scanUpFrom (fun i => do pure (decide ((← readWith garbage p i) < key)))
      lo count b.mem = .ok (i, m) →
    m = b.mem ∧
      ReflTransGen (Moves garbage b key) (.scanning p lo) (.stopped p i) := by
  intro count
  induction count with
  | zero =>
      intro lo i hlo hrun
      obtain ⟨rfl, rfl⟩ := Prod.mk.inj (Except.ok.inj hrun)
      refine ⟨rfl, .single ?_⟩
      have hend : ¬ lo < nd.keysnum := by omega
      simp only [Moves, access, hget, Option.map_some, if_neg hend]
  | succ count ih =>
      intro lo i hlo hrun
      have hlt : lo < nd.keysnum := by omega
      have hin : Moves garbage b key (.scanning p lo) (.comparing p lo) := by
        simp only [Moves, access, hget, Option.map_some, if_pos hlt]
      have htest : (do pure (decide ((← readWith garbage p lo) < key)) : M Bool)
          b.mem = .ok (decide (slotValue garbage p nd lo < key), b.mem) := by
        rw [bind_run_ok (read_with hget lo)]
        rfl
      rw [scanUpFrom, bind_run_ok htest] at hrun
      by_cases hless : slotValue garbage p nd lo < key
      · rw [decide_eq_true hless, if_pos rfl] at hrun
        obtain ⟨hm, hrest⟩ := ih (lo + 1) (by omega) hrun
        refine ⟨hm, .head hin (.head ?_ hrest)⟩
        simp only [Moves, access, hget, Option.map_some, if_pos hless]
      · rw [decide_eq_false hless] at hrun
        obtain ⟨rfl, rfl⟩ := Prod.mk.inj (Except.ok.inj hrun)
        refine ⟨rfl, .head hin (.single ?_)⟩
        simp only [Moves, access, hget, Option.map_some, if_neg hless]

/-- The reads at one node. -/
theorem moves_visit {v : Bool ⊕ Addr}
    (h : visit (readWith garbage) p key b.mem = .ok (v, m)) :
    m = b.mem ∧ match v with
      | .inl found => Answers garbage b key (.scanning p 0) found
      | .inr c => ReflTransGen (Moves garbage b key) (.scanning p 0)
          (.scanning c 0) := by
  obtain ⟨nd, m₁, hnode, hrest⟩ := bind_ok h
  obtain ⟨hget, rfl⟩ := node_ok hnode
  obtain ⟨i, m₂, hscan, hrest⟩ := bind_ok hrest
  obtain ⟨rfl, hmoves⟩ := moves_scan hget nd.keysnum 0 (Nat.zero_add _) hscan
  rw [bind_run_ok (read_with hget i)] at hrest
  by_cases hkey : slotValue garbage p nd i = key
  · rw [if_pos hkey] at hrest
    obtain ⟨rfl, rfl⟩ := Prod.mk.inj (Except.ok.inj hrest)
    refine ⟨rfl, _, hmoves, ?_⟩
    simp only [access, hget, Option.map_some, if_pos hkey]
  · rw [if_neg hkey] at hrest
    have htest : Moves garbage b key (.stopped p i) (.testing p i) := by
      simp only [Moves, access, hget, Option.map_some, if_neg hkey]
    cases hleaf : nd.leaf with
    | true =>
        rw [hleaf, if_pos rfl] at hrest
        obtain ⟨rfl, rfl⟩ := Prod.mk.inj (Except.ok.inj hrest)
        refine ⟨rfl, _, hmoves.tail htest, ?_⟩
        simp only [access, hget, Option.map_some, hleaf, if_true]
    | false =>
        rw [hleaf, if_neg Bool.false_ne_true] at hrest
        obtain ⟨c, m₃, hchild, hend⟩ := bind_ok hrest
        obtain ⟨nd', hget', hcell, rfl⟩ := child_ok hchild
        obtain rfl := Option.some.inj (hget'.symm.trans hget)
        obtain ⟨rfl, rfl⟩ := Prod.mk.inj (Except.ok.inj hend)
        have hinner : Moves garbage b key (.testing p i) (.descending p i) := by
          simp only [Moves, access, hget, Option.map_some, hleaf, if_false,
            Bool.false_eq_true]
        have hdown : Moves garbage b key (.descending p i) (.scanning c 0) := by
          simp only [Moves, access, hget, Option.bind_some, hcell]
        exact ⟨rfl, ((hmoves.tail htest).tail hinner).tail hdown⟩

theorem answers_of_node {fuel : Nat}
    (h : exist (readWith garbage) fuel p key b.mem = .ok (found, m)) :
    Answers garbage b key (.scanning p 0) found := by
  induction fuel generalizing p with
  | zero => cases h
  | succ fuel ih =>
      rw [exist_succ] at h
      obtain ⟨v, m₁, hvisit, hrest⟩ := bind_ok h
      obtain ⟨rfl, hmoves⟩ := moves_visit hvisit
      cases v with
      | inl found' =>
          obtain ⟨rfl, -⟩ := Prod.mk.inj (Except.ok.inj hrest)
          exact hmoves
      | inr c => exact (ih hrest).after hmoves

theorem moves_call {r : Addr} (hroot : b.root = some r) :
    ReflTransGen (Moves garbage b key) .entering (.scanning r 0) := by
  refine .head (b := .calling) ?_ (.single ?_)
  · simp only [Moves, access, hroot, reduceCtorEq, if_false]
  · simp only [Moves, access, hroot, Option.map_some]

/-- With nobody else writing, the reads are those of `exist`. -/
theorem answers_of_exist
    (h : BTree.exist (readWith garbage) b.root key b.mem = .ok (found, m)) :
    Answers garbage b key .entering found := by
  cases hroot : b.root with
  | none =>
      rw [hroot] at h
      obtain ⟨rfl, -⟩ := Prod.mk.inj (Except.ok.inj h)
      exact ⟨_, .refl, by simp only [access, hroot, if_true]⟩
  | some r =>
      rw [hroot] at h
      exact (answers_of_node h).after (moves_call hroot)

end Alone

/-! ## While keys are inserted -/

/-- The node `p` is at level `k`, and its child slot `i` may be read. -/
structure At (g : Levels) (b : BTree) (p : Addr) (i k : Nat) : Prop where
  level : g p = some k
  bound : i ≤ 2 * b.t - 1
  written : k ≠ 0 → Written b p i

/-- What the call relies on. -/
def Place.Ready (g : Levels) (b : BTree) : Place → Prop
  | .entering => True
  | .calling => b.root ≠ none
  | .scanning p i | .stopped p i | .testing p i => ∃ k, At g b p i k
  | .comparing p i => ∃ k, At g b p i k ∧ At g b p (i + 1) k
  | .descending p i => ∃ k, At g b p i (k + 1)

/-- The call is behind its loop, at a slot that was never written, at most one
behind the array, and `key` happens to be there. -/
def Place.Misled (garbage : Addr → Nat → Int) (b : BTree) (key : Int) : Place → Prop
  | .stopped p i => i ≤ 2 * b.t - 1 ∧ ∃ nd, b.mem.get p = some nd ∧
      (∀ v, nd.keys.cells[i]? ≠ some (some v)) ∧ garbage p i = key
  | _ => False

/-- The reads that are left, in trees with levels up to `bound`. -/
def Place.rank (g : Levels) (t bound : Nat) : Place → Nat
  | .entering => (bound + 1) * (4 * t + 4) + 1
  | .calling => (bound + 1) * (4 * t + 4)
  | .scanning p i => (g p).getD 0 * (4 * t + 4) + 2 * (2 * t - 1 - i) + 3
  | .comparing p i => (g p).getD 0 * (4 * t + 4) + 2 * (2 * t - 1 - i) + 2
  | .stopped p _ => (g p).getD 0 * (4 * t + 4) + 2
  | .testing p _ => (g p).getD 0 * (4 * t + 4) + 1
  | .descending p _ => (g p).getD 0 * (4 * t + 4)

section Racing

variable {S : Int → Prop} {g g' : Levels} {b b' : BTree} {p : Addr}
  {h i k bound : Nat} {pl : Place}

theorem At.grows (ha : At g b p i k) (hg : Grows b g b' g') : At g' b' p i k where
  level := hg.levels p k ha.level
  bound := hg.t ▸ ha.bound
  written hk := hg.slots p i (ha.written hk)

/-- Insertions leave a call ready. -/
theorem Place.Ready.grows (hpl : pl.Ready g b) (hg : Grows b g b' g') :
    pl.Ready g' b' := by
  cases pl with
  | entering => trivial
  | calling => exact hg.root hpl
  | comparing p i =>
      obtain ⟨k, ha, hnext⟩ := hpl
      exact ⟨k, ha.grows hg, hnext.grows hg⟩
  | _ =>
      obtain ⟨k, ha⟩ := hpl
      exact ⟨_, ha.grows hg⟩

/-- Insertions leave a call as near to its end. -/
theorem Place.Ready.rank_grows (hpl : pl.Ready g b) (hg : Grows b g b' g') :
    pl.rank g' b'.t bound = pl.rank g b.t bound := by
  have hlevel : ∀ {p i k}, At g b p i k → g' p = g p := fun ha =>
    (hg.levels _ _ ha.level).trans ha.level.symm
  rw [hg.t]
  cases pl with
  | entering => rfl
  | calling => rfl
  | comparing p i =>
      obtain ⟨k, ha, -⟩ := hpl
      simp only [Place.rank, hlevel ha]
  | _ =>
      obtain ⟨k, ha⟩ := hpl
      simp only [Place.rank, hlevel ha]

/-- A call that comes to a node is ready there. -/
theorem At.zero (hb : Searchable S h g b) (hp : g p = some k) :
    At g b p 0 k := by
  obtain ⟨sh, hsh, hs⟩ := hb.node p k hp
  refine ⟨hp, Nat.zero_le _, fun hk => ?_⟩
  obtain ⟨c, hc⟩ := hs.written hk 0 (Nat.zero_le _)
  exact ⟨sh, c, hsh, hc⟩

/-- Slots up to the number of keys may be read. -/
theorem At.le (hb : Searchable S h g b) (hp : g p = some k)
    {nd : BTreeNode} (hget : b.mem.get p = some nd) (hi : i ≤ nd.keysnum) :
    At g b p i k := by
  obtain ⟨sh, hsh, hs⟩ := hb.node p k hp
  obtain rfl : sh = shape nd :=
    Option.some.inj (hsh.symm.trans (shapeAt_of_get hget))
  refine ⟨hp, Nat.le_trans hi hs.keysnum_le, fun hk => ?_⟩
  obtain ⟨c, hc⟩ := hs.written hk i hi
  exact ⟨_, c, hsh, hc⟩

/-- The next read is of memory that is there; it brings the call nearer to its
end, and the key that it finds was inserted, unless it misleads the call. -/
theorem Place.Ready.access (hpl : pl.Ready g b) (hb : Searchable S h g b)
    (hbound : h ≤ bound) (garbage : Addr → Nat → Int) (key : Int) :
    ∃ o, Search.access garbage b key pl = some o ∧
      (o = .inl true → S key ∨ pl.Misled garbage b key) ∧
      ∀ pl', o = .inr pl' → pl'.Ready g b ∧
        pl'.rank g b.t bound < pl.rank g b.t bound := by
  have hnode : ∀ {p i k}, At g b p i k → ∃ nd, b.mem.get p = some nd := by
    intro p i k ha
    obtain ⟨sh, hsh, -⟩ := hb.node p k ha.level
    obtain ⟨nd, hget, -⟩ := get_of_shapeAt hsh
    exact ⟨nd, hget⟩
  cases pl with
  | entering =>
      by_cases hroot : b.root = none
      · exact ⟨.inl false, by simp only [Search.access, if_pos hroot], nofun, nofun⟩
      · refine ⟨.inr .calling, by simp only [Search.access, if_neg hroot], nofun, ?_⟩
        rintro _ ⟨⟩
        exact ⟨hroot, Nat.lt_succ_self _⟩
  | calling =>
      obtain ⟨r, hroot⟩ := Option.ne_none_iff_exists'.mp hpl
      refine ⟨.inr (.scanning r 0), by simp only [Search.access, hroot,
        Option.map_some], nofun, ?_⟩
      rintro _ ⟨⟩
      obtain ⟨k, hr⟩ := hb.root r hroot
      obtain ⟨sh, -, hs⟩ := hb.node r k hr
      have hk := hs.level_le
      refine ⟨⟨k, At.zero hb hr⟩, ?_⟩
      have hmul : (k + 1) * (4 * b.t + 4) ≤ (bound + 1) * (4 * b.t + 4) :=
        Nat.mul_le_mul_right _ (by omega)
      rw [Nat.succ_mul k] at hmul
      simp only [Place.rank, hr, Option.getD_some]
      omega
  | scanning p i =>
      obtain ⟨k, ha⟩ := hpl
      obtain ⟨nd, hget⟩ := hnode ha
      by_cases hi : i < nd.keysnum
      · refine ⟨.inr (.comparing p i), by simp only [Search.access, hget,
          Option.map_some, if_pos hi], nofun, ?_⟩
        rintro _ ⟨⟩
        have hnext := At.le hb ha.level hget hi
        refine ⟨⟨k, ha, hnext⟩, ?_⟩
        simp only [Place.rank]
        omega
      · refine ⟨.inr (.stopped p i), by simp only [Search.access, hget,
          Option.map_some, if_neg hi], nofun, ?_⟩
        rintro _ ⟨⟩
        refine ⟨⟨k, ha⟩, ?_⟩
        simp only [Place.rank]
        omega
  | comparing p i =>
      obtain ⟨k, ha, hnext⟩ := hpl
      obtain ⟨nd, hget⟩ := hnode ha
      have hi := hnext.bound
      by_cases hless : slotValue garbage p nd i < key
      · refine ⟨.inr (.scanning p (i + 1)), by simp only [Search.access, hget,
          Option.map_some, if_pos hless], nofun, ?_⟩
        rintro _ ⟨⟩
        refine ⟨⟨k, hnext⟩, ?_⟩
        simp only [Place.rank]
        omega
      · refine ⟨.inr (.stopped p i), by simp only [Search.access, hget,
          Option.map_some, if_neg hless], nofun, ?_⟩
        rintro _ ⟨⟩
        refine ⟨⟨k, ha⟩, ?_⟩
        simp only [Place.rank]
        omega
  | stopped p i =>
      obtain ⟨k, ha⟩ := hpl
      obtain ⟨nd, hget⟩ := hnode ha
      by_cases hkey : slotValue garbage p nd i = key
      · refine ⟨.inl true, by simp only [Search.access, hget, Option.map_some,
          if_pos hkey], fun _ => ?_, nofun⟩
        unfold slotValue at hkey
        split at hkey
        · rename_i v hv
          exact Or.inl (hkey ▸ hb.keys.keys p nd hget i v hv)
        · rename_i hdead
          exact Or.inr ⟨ha.bound, nd, hget, hdead, hkey⟩
      · refine ⟨.inr (.testing p i), by simp only [Search.access, hget,
          Option.map_some, if_neg hkey], nofun, ?_⟩
        rintro _ ⟨⟩
        exact ⟨⟨k, ha⟩, Nat.lt_succ_self _⟩
  | testing p i =>
      obtain ⟨k, ha⟩ := hpl
      obtain ⟨nd, hget⟩ := hnode ha
      obtain ⟨sh, hsh, hs⟩ := hb.node p k ha.level
      obtain rfl : sh = shape nd :=
        Option.some.inj (hsh.symm.trans (shapeAt_of_get hget))
      cases hleaf : nd.leaf with
      | true => exact ⟨.inl false, by simp only [Search.access, hget, hleaf,
          Option.map_some, if_true], nofun, nofun⟩
      | false =>
          refine ⟨.inr (.descending p i), by simp only [Search.access, hget, hleaf,
            Option.map_some, Bool.false_eq_true, if_false], nofun, ?_⟩
          rintro _ ⟨⟩
          have hk : k ≠ 0 := by
            rintro rfl
            exact Bool.noConfusion (hleaf.symm.trans (hs.leaf_iff.mpr rfl))
          obtain ⟨l, rfl⟩ := Nat.exists_eq_add_one_of_ne_zero hk
          exact ⟨⟨l, ha⟩, Nat.lt_succ_self _⟩
  | descending p i =>
      obtain ⟨k, ha⟩ := hpl
      obtain ⟨nd, hget⟩ := hnode ha
      obtain ⟨sh, hsh, hs⟩ := hb.node p _ ha.level
      obtain rfl : sh = shape nd :=
        Option.some.inj (hsh.symm.trans (shapeAt_of_get hget))
      obtain ⟨sh', c, hsh', hc⟩ := ha.written (Nat.succ_ne_zero k)
      obtain rfl := Option.some.inj (hsh'.symm.trans hsh)
      obtain ⟨q, rfl, hq⟩ := hs.points k rfl i c hc
      have hcell : nd.children.cells[i]? = some (some (some q)) := hc
      refine ⟨.inr (.scanning q 0), by simp only [Search.access, hget, hcell,
        Option.bind_some], nofun, ?_⟩
      rintro _ ⟨⟩
      refine ⟨⟨k, At.zero hb hq⟩, ?_⟩
      simp only [Place.rank, hq, ha.level, Option.getD_some]
      rw [Nat.succ_mul k]
      omega

end Racing

end ParallelBTree.Ports.Search
