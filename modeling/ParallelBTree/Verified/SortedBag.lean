import Mathlib.Data.List.DropRight
import Mathlib.Data.List.Sort
import Mathlib.Data.List.TakeWhile
import ParallelBTree.Verified.Multiway

/-!
# Multisets as sorted lists

The abstract content of a search structure with repeated keys: a
non-decreasing list, `List.orderedInsert` to add one occurrence of a key and
`List.erase` to take one away.  The lemmas say where in a list that has been cut
at a subtree the two operations act, and how the two stopping points of a linear
search cut a sorted list of keys.
-/

namespace ParallelBTree.Verified.Multiway

variable {α : Type} [LinearOrder α]

/-- Adding one occurrence inside a part of a sorted list that it belongs to. -/
theorem orderedInsert_middle {P M S : List α} {k : α}
    (h : Sorted (P ++ (M ++ S))) (hP : ∀ x ∈ P, x ≤ k) (hS : ∀ x ∈ S, k ≤ x) :
    (P ++ (M ++ S)).orderedInsert (· ≤ ·) k =
      P ++ (M.orderedInsert (· ≤ ·) k ++ S) := by
  have hperm : ((P ++ (M ++ S)).orderedInsert (· ≤ ·) k).Perm
      (P ++ (M.orderedInsert (· ≤ ·) k ++ S)) := by
    apply (List.perm_orderedInsert _ k _).trans
    refine List.perm_middle.symm.trans (List.Perm.append_left P ?_)
    exact (List.perm_orderedInsert _ k M).symm.append_right S
  have hPM := List.pairwise_append.mp h
  have hMS := List.pairwise_append.mp hPM.2.1
  apply hperm.eq_of_pairwise' (List.Pairwise.orderedInsert k _ h)
  refine List.pairwise_append.mpr ⟨hPM.1, List.pairwise_append.mpr
    ⟨List.Pairwise.orderedInsert k _ hMS.1, hMS.2.1, ?_⟩, ?_⟩
  · intro a ha b hb
    rcases (List.mem_orderedInsert _).mp ha with rfl | ha
    · exact hS b hb
    · exact hMS.2.2 a ha b hb
  · intro a ha b hb
    rcases List.mem_append.mp hb with hb | hb
    · rcases (List.mem_orderedInsert _).mp hb with rfl | hb
      · exact hP a ha
      · exact hPM.2.2 a ha b (List.mem_append_left S hb)
    · exact hPM.2.2 a ha b (List.mem_append_right M hb)

/-- Taking one occurrence away inside the only part that can hold one. -/
theorem erase_middle {P M S : List α} {k : α} (hP : ∀ x ∈ P, x < k)
    (hS : ∀ x ∈ S, k < x) :
    (P ++ (M ++ S)).erase k = P ++ (M.erase k ++ S) := by
  have hkP : k ∉ P := fun hk => lt_irrefl k (hP k hk)
  have hkS : k ∉ S := fun hk => lt_irrefl k (hS k hk)
  rw [List.erase_append_right _ hkP, List.erase_append]
  by_cases hk : k ∈ M
  · rw [if_pos hk]
  · rw [if_neg hk, List.erase_of_not_mem hkS, List.erase_of_not_mem hk]

/-- In a sorted list it does not matter which occurrence is taken away. -/
theorem erase_sorted {X Y : List α} {k : α} (h : Sorted (X ++ k :: Y)) :
    (X ++ k :: Y).erase k = X ++ Y := by
  have hperm : ((X ++ k :: Y).erase k).Perm (X ++ Y) := by
    have hmid : (X ++ k :: Y).Perm (k :: (X ++ Y)) := List.perm_middle
    simpa using hmid.erase k
  apply hperm.eq_of_pairwise' (h.sublist List.erase_sublist)
  exact h.sublist (List.Sublist.append_left (List.sublist_cons_self k Y) X)

theorem sorted_keys {n : Nat} {T : Tree α n} (h : Sorted (inorder n T)) :
    Sorted T.keys := by
  cases n with
  | zero => exact h
  | succ n => exact h.sublist (keys_sublist _ _)

/-- The longest prefix below `k`, and what follows it. -/
theorem takeWhile_cut (K : List α) (k : α) :
    ∃ ka kb, K = ka ++ kb ∧ ka.length = (K.takeWhile (· < k)).length ∧
      (∀ a ∈ ka, a < k) ∧ ∀ b ∈ kb.head?, k ≤ b := by
  refine ⟨K.takeWhile (· < k), K.dropWhile (· < k),
    List.takeWhile_append_dropWhile.symm, rfl, ?_, ?_⟩
  · intro a ha
    simpa using List.mem_takeWhile_imp ha
  · intro b hb
    have hnot := List.head?_dropWhile_not (· < k) K
    rw [hb] at hnot
    simpa using hnot

/-- Where the scan for `k` stops is where `k` is, if it is anywhere. -/
theorem mem_cut_iff {ka kb : List α} {k : α} (h : Sorted (ka ++ kb))
    (hlt : ∀ a ∈ ka, a < k) (hge : ∀ b ∈ kb.head?, k ≤ b) :
    k ∈ ka ++ kb ↔ kb.head? = some k := by
  constructor
  · intro hmem
    have hkb : k ∈ kb := (List.mem_append.mp hmem).resolve_left
      fun hka => lt_irrefl k (hlt k hka)
    cases kb with
    | nil => simp at hkb
    | cons b kb =>
        have hb : k ≤ b := hge b rfl
        have hbk : b ≤ k := by
          rcases List.mem_cons.mp hkb with rfl | hkb
          · exact le_refl k
          · exact (List.pairwise_cons.mp
              (List.pairwise_append.mp h).2.1).1 k hkb
        rw [List.head?_cons, le_antisymm hbk hb]
  · intro hhead
    exact List.mem_append_right ka (List.mem_of_mem_head? hhead)

/-- A key that the scan of a node stops short of is in the kid there, if it is
below the node at all. -/
theorem mem_kid_iff {n id : Nat} {ka kb : List α} {A B : List (Tree α n)}
    {c : Tree α n} {k : α} (hA : ka.length = A.length)
    (hB : kb.length = B.length)
    (h : Sorted (inorder (n + 1) ⟨id, ka ++ kb, A ++ c :: B⟩))
    (hlt : ∀ a ∈ ka, a < k) (hgt : ∀ b ∈ kb.head?, k < b) :
    k ∈ inorder (n + 1) ⟨id, ka ++ kb, A ++ c :: B⟩ ↔ k ∈ inorder n c := by
  rw [inorder_focus id ka kb A B c hA] at h ⊢
  have hbefore : k ∉ interleave ka (A.map (inorder n)) := fun hk =>
    lt_irrefl k (interleave_forall (fun x a hxa ha => lt_of_le_of_lt hxa ha) ka _
      (by simpa using hA) (List.pairwise_append.mp h).1 hlt k hk)
  have hafter : k ∉ tailOf kb (B.map (inorder n)) := fun hk =>
    lt_irrefl k (tailOf_forall (fun a x hax ha => lt_of_lt_of_le ha hax)
      (by simpa using hB) (List.pairwise_append.mp
        (List.pairwise_append.mp h).2.1).2.1 hgt k hk)
  simp [hbefore, hafter]

/-- The longest suffix above `k`, and what precedes it. -/
theorem rdropWhile_cut (K : List α) (k : α) :
    ∃ ka kb, K = ka ++ kb ∧ ka.length = (K.rdropWhile (k < ·)).length ∧
      (∀ a ∈ ka.getLast?, a ≤ k) ∧ ∀ b ∈ kb, k < b := by
  refine ⟨K.rdropWhile (k < ·), K.rtakeWhile (k < ·),
    List.rdropWhile_append_rtakeWhile.symm, rfl, ?_, ?_⟩
  · intro a ha
    have hne : K.rdropWhile (k < ·) ≠ [] := by
      intro hnil
      simp [hnil] at ha
    rw [List.getLast?_eq_some_getLast hne, Option.mem_some_iff] at ha
    rw [← ha]
    simpa using List.rdropWhile_last_not (k < ·) K hne
  · intro b hb
    simpa using List.mem_rtakeWhile_imp hb

/-- In a sorted list the last element bounds all others. -/
theorem le_of_getLast {X : List α} {k : α} (h : Sorted X)
    (hlast : ∀ a ∈ X.getLast?, a ≤ k) : ∀ a ∈ X, a ≤ k := by
  cases X using List.reverseRecOn with
  | nil => simp
  | append_singleton X x =>
      intro a ha
      have hx : x ≤ k := hlast x (by simp)
      rcases List.mem_append.mp ha with ha | ha
      · exact le_trans ((List.pairwise_append.mp h).2.2 a ha x (by simp)) hx
      · rw [List.mem_singleton.mp ha]
        exact hx

end ParallelBTree.Verified.Multiway
