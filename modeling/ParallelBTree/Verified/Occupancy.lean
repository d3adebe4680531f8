import Mathlib.Algebra.Order.BigOperators.Group.List
import Mathlib.Algebra.Order.Ring.Nat
import ParallelBTree.Verified.Restructure

/-!
# How many keys a balanced tree holds

With minimum degree `t`, a tree of height `n` holds fewer than `(2t)^(n+1)`
keys.  Below a root with `t - 1` keys there are at least `t^(n+1) - 1`, and if
the root may be short of keys, but has one, at least `2t^n - 1`.

All three bounds are counted on `length + 1`, the number of gaps between the
keys: the gaps of a node are the gaps of its kids taken together.
-/

namespace ParallelBTree.Verified.Multiway

variable {α : Type}

theorem length_interleave : ∀ (ks : List α) (xs : List (List α)),
    (interleave ks xs).length = ks.length + (xs.map List.length).sum
  | ks, [] => by simp
  | [], x :: xs => by
      simp only [interleave, List.length_append, length_interleave [] xs,
        List.length_nil, List.map_cons, List.sum_cons]
      omega
  | k :: ks, x :: xs => by
      simp only [interleave, List.length_append, List.length_cons,
        length_interleave ks xs, List.map_cons, List.sum_cons]
      omega

/-- The gaps of a node are those of its kids. -/
theorem gaps_kids {n : Nat} {T : Tree α (n + 1)}
    (h : T.kids.length = T.size + 1) :
    (inorder (n + 1) T).length + 1 =
      (T.kids.map fun c => (inorder n c).length + 1).sum := by
  have hones : (T.kids.map fun _ => 1).sum = T.kids.length := by simp
  rw [List.sum_map_add, hones, h, inorder, length_interleave, List.map_map]
  simp only [Node.size, Function.comp_def]
  omega

section Bounds

variable {t : Nat}

theorem gaps_le : ∀ (n : Nat) (T : Tree α n), 1 ≤ t → WF t n T →
    (inorder n T).length + 1 ≤ (2 * t) ^ (n + 1) := by
  intro n
  induction n with
  | zero =>
      intro T ht h
      have hle : T.size ≤ 2 * t - 1 := h
      rw [Nat.zero_add, pow_one]
      simp only [inorder, Node.size] at hle ⊢
      omega
  | succ n ih =>
      intro T ht h
      have hsum : (T.kids.map fun c => (inorder n c).length + 1).sum ≤
          T.kids.length • (2 * t) ^ (n + 1) := by
        rw [← List.length_map (fun c => (inorder n c).length + 1)]
        apply List.sum_le_card_nsmul
        intro x hx
        obtain ⟨c, hc, rfl⟩ := List.mem_map.mp hx
        exact ih c ht (h.kid hc).2
      have hkids : T.kids.length ≤ 2 * t := by
        have hlen := h.2.1
        have hle := h.1
        omega
      rw [gaps_kids h.2.1]
      calc (T.kids.map fun c => (inorder n c).length + 1).sum
          ≤ T.kids.length * (2 * t) ^ (n + 1) := hsum
        _ ≤ 2 * t * (2 * t) ^ (n + 1) := Nat.mul_le_mul_right _ hkids
        _ = (2 * t) ^ (n + 1 + 1) := (pow_succ' _ _).symm

/-- What the kids of a node come to when each has at least `g` gaps. -/
private theorem gaps_ge_kids {n g : Nat} {T : Tree α (n + 1)}
    (h : T.kids.length = T.size + 1)
    (hg : ∀ c ∈ T.kids, g ≤ (inorder n c).length + 1) :
    (T.size + 1) * g ≤ (inorder (n + 1) T).length + 1 := by
  rw [gaps_kids h, ← h,
    ← List.length_map (fun c : Tree α n => (inorder n c).length + 1)]
  apply List.card_nsmul_le_sum
  intro x hx
  obtain ⟨c, hc, rfl⟩ := List.mem_map.mp hx
  exact hg c hc

theorem le_gaps : ∀ (n : Nat) (T : Tree α n), WF t n T → t - 1 ≤ T.size →
    t ^ (n + 1) ≤ (inorder n T).length + 1 := by
  intro n
  induction n with
  | zero =>
      intro T _ hsize
      rw [Nat.zero_add, pow_one]
      simp only [inorder, Node.size] at hsize ⊢
      omega
  | succ n ih =>
      intro T h hsize
      calc t ^ (n + 1 + 1) = t * t ^ (n + 1) := pow_succ' _ _
        _ ≤ (T.size + 1) * t ^ (n + 1) :=
            Nat.mul_le_mul_right _ (by omega)
        _ ≤ (inorder (n + 1) T).length + 1 :=
            gaps_ge_kids h.2.1 fun c hc => ih c (h.kid hc).2 (h.kid hc).1

/-- The root needs one key only. -/
theorem le_gaps_root (n : Nat) (T : Tree α n) (h : WF t n T)
    (hsize : 1 ≤ T.size) : 2 * t ^ n ≤ (inorder n T).length + 1 := by
  cases n with
  | zero =>
      rw [pow_zero, Nat.mul_one]
      simp only [inorder, Node.size] at hsize ⊢
      omega
  | succ n =>
      calc 2 * t ^ (n + 1) ≤ (T.size + 1) * t ^ (n + 1) :=
            Nat.mul_le_mul_right _ (by omega)
        _ ≤ (inorder (n + 1) T).length + 1 :=
            gaps_ge_kids h.2.1 fun c hc => le_gaps n c (h.kid hc).2 (h.kid hc).1

end Bounds

end ParallelBTree.Verified.Multiway
