import ParallelBTree.Ports.Lifetime

/-!
# All keys in, all keys out

`naive.cpp`, `cpp11.cpp` and `openmp.cpp`, like the random test of `tests.cpp`,
shuffle the keys, insert them all, shuffle them again and remove them all.  What
happens in between differs; what the calls make of the tree does not.
-/

namespace ParallelBTree.Ports

open ParallelBTree.Ports.BTree

/-- The vector `keys` after the first and after the second shuffle. -/
structure Shuffles where
  keys : List Int
  removals : List Int
  shuffled : removals.Perm keys

namespace Shuffles

/-- The calls of the `for_each` that inserts. -/
def inserts (d : Shuffles) : List Op := d.keys.map .insert

/-- The calls of the `for_each` that removes. -/
def removes (d : Shuffles) : List Op := d.removals.map .remove

/-- All calls that change the tree, one after the other. -/
def history (d : Shuffles) : List Op := d.inserts ++ d.removes

variable (d : Shuffles)

@[simp] theorem length_inserts : d.inserts.length = d.keys.length :=
  List.length_map _

@[simp] theorem length_history :
    d.history.length = d.keys.length + d.removals.length := by
  rw [history, List.length_append, length_inserts, removes, List.length_map]

variable {d}

theorem history_insert {i : Nat} {key : Int} (h : d.keys[i]? = some key) :
    d.history[i]? = some (.insert key) := by
  have hlt : i < d.keys.length := (List.getElem?_eq_some_iff.mp h).1
  rw [history, List.getElem?_append_left (by rwa [length_inserts]), inserts,
    List.getElem?_map, h]
  rfl

theorem history_remove {i : Nat} {key : Int} (h : d.removals[i]? = some key) :
    d.history[d.keys.length + i]? = some (.remove key) := by
  rw [history, List.getElem?_append_right (by rw [length_inserts]; omega),
    length_inserts, Nat.add_sub_cancel_left, removes, List.getElem?_map, h]
  rfl

theorem take_history : d.history.take d.keys.length = d.inserts := by
  rw [← d.length_inserts]
  exact List.take_left

theorem inserts_perm : (d.inserts.foldl sortedStep []).Perm d.keys := by
  have hperm := foldl_insert_perm d.keys []
  rwa [List.append_nil] at hperm

variable {t : Nat}

/-- A first part of the calls. -/
theorem take_stores (ht : 2 ≤ t) (k : Nat) :
    ∃ b L, (BTree.new t).run (d.history.take k) = .ok b ∧ b.t = t ∧
      b.Stores L := by
  obtain ⟨b, hrun, hb, h⟩ := run_stores ht (d.history.take k)
  exact ⟨b, _, hrun, hb, h⟩

/-- As long as keys are inserted, the tree is that of the first ones. -/
theorem first_stores (ht : 2 ≤ t) {k : Nat} (hk : k ≤ d.keys.length) :
    ∃ b L, (BTree.new t).run (d.history.take k) = .ok b ∧ b.t = t ∧
      b.Stores L ∧ L.Perm (d.keys.take k) := by
  obtain ⟨b, hrun, hb, h⟩ := run_stores ht (d.history.take k)
  refine ⟨b, _, hrun, hb, h, ?_⟩
  rw [history, List.take_append_of_le_length (by rwa [length_inserts]), inserts,
    ← List.map_take]
  have hperm := foldl_insert_perm (d.keys.take k) []
  rwa [List.append_nil] at hperm

/-- The tree of all keys. -/
theorem inserts_stores (ht : 2 ≤ t) :
    ∃ b L, (BTree.new t).run d.inserts = .ok b ∧ b.t = t ∧ b.Stores L ∧
      L.Perm d.keys := by
  obtain ⟨b, L, hrun, hb, h, hperm⟩ := d.first_stores ht (Nat.le_refl _)
  rw [take_history] at hrun
  rw [List.take_length] at hperm
  exact ⟨b, L, hrun, hb, h, hperm⟩

/-- Removing the first of the keys leaves the others. -/
theorem remaining : ∀ (pre post L : List Int), L.Perm (pre ++ post) →
    ((pre.map Op.remove).foldl sortedStep L).Perm post := by
  intro pre
  induction pre with
  | nil => exact fun _ _ h => h
  | cons key pre ih =>
      intro post L h
      apply ih post (L.erase key)
      simpa using h.erase key

/-- Removing the keys, in whatever order, leaves nothing. -/
theorem history_vacant (ht : 2 ≤ t) :
    ∃ b, (BTree.new t).run d.history = .ok b ∧ b.Vacant := by
  obtain ⟨b, hrun, -, h⟩ := run_stores ht d.history
  refine ⟨b, hrun, ?_⟩
  have hnone : d.history.foldl sortedStep [] = [] := by
    rw [history, List.foldl_append]
    exact foldl_remove_perm _ _ (d.inserts_perm.trans d.shuffled.symm)
  rw [hnone] at h
  exact h.vacant_of_nil

end Shuffles

end ParallelBTree.Ports
