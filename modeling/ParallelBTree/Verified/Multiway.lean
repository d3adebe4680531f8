import Mathlib.Data.List.Induction
import Mathlib.Order.Lattice
import Mathlib.Tactic.Common

/-!
# Multiway search trees, balanced by construction

A `Node α κ` has an identity, a list of keys and a list of kids of type `κ`.
`Tree α n` iterates this: its kids are `Tree α (n - 1)`, and at height `0` there
is nothing a kid could be.  All leaves of a `Tree α n` are therefore `n` levels
below its root, and no invariant has to say so.

A leaf is a node whose list of kids is empty, so an operation that moves keys
and kids between nodes is written once for leaves and inner nodes alike.

Contents are read off in order, `interleave` placing every key between the kids
on its two sides.  The lemmas about it cut a node at one kid: what stands before
the kid, the kid, what stands behind it.

## Main results

* `inorder_focus` — the contents of a node, cut at one of its kids.
* `inorder_joined` — the contents of two neighbours joined around a key.
* `interleave_forall`, `tailOf_forall` — in a sorted node, a bound on the keys
  to one side of a kid is a bound on everything on that side.
-/

namespace ParallelBTree.Verified.Multiway

/-- One node: an identity, its keys, and its kids (none for a leaf). -/
structure Node (α κ : Type) where
  id : Nat
  keys : List α
  kids : List κ

/-- What the kids of a node of height `n` are. -/
@[reducible] def Level (α : Type) : Nat → Type
  | 0 => Empty
  | n + 1 => Node α (Level α n)

/-- Trees whose leaves are `n` levels below the root. -/
abbrev Tree (α : Type) (n : Nat) := Node α (Level α n)

variable {α κ : Type}

/-- The number of keys of a node. -/
def Node.size (N : Node α κ) : Nat := N.keys.length

@[simp] theorem Node.size_mk (id : Nat) (keys : List α) (kids : List κ) :
    (Node.mk id keys kids).size = keys.length := rfl

/-! ## Interleaving keys and the contents of kids -/

/-- `x₀ k₀ x₁ k₁ …`, with whatever is left over of either list at the end. -/
def interleave : List α → List (List α) → List α
  | ks, [] => ks
  | [], x :: xs => x ++ interleave [] xs
  | k :: ks, x :: xs => x ++ k :: interleave ks xs

/-- What stands behind the first kid: `k₀ x₁ k₁ …`. -/
def tailOf : List α → List (List α) → List α
  | [], xs => interleave [] xs
  | k :: ks, xs => k :: interleave ks xs

@[simp] theorem interleave_nil (ks : List α) : interleave ks [] = ks := by
  cases ks <;> rfl

theorem interleave_cons (ks : List α) (x : List α) (xs : List (List α)) :
    interleave ks (x :: xs) = x ++ tailOf ks xs := by
  cases ks <;> rfl

/-- Interleaving is compositional at a key boundary. -/
theorem interleave_append :
    ∀ (ka : List α) (xa : List (List α)) (kb : List α) (xb : List (List α)),
      ka.length = xa.length →
      interleave (ka ++ kb) (xa ++ xb) = interleave ka xa ++ interleave kb xb := by
  intro ka
  induction ka with
  | nil =>
      intro xa kb xb h
      have hxa : xa = [] := List.length_eq_zero_iff.mp h.symm
      simp [hxa]
  | cons k ka ih =>
      intro xa kb xb h
      cases xa with
      | nil => simp at h
      | cons x xa =>
          simp only [List.cons_append, interleave]
          rw [ih xa kb xb (by simpa using h)]
          simp

/-- Interleaving is compositional around a key that stands between two kids. -/
theorem interleave_join (ka kb : List α) (k : α) (xa xb : List (List α))
    (h : xa.length = ka.length + 1) :
    interleave (ka ++ k :: kb) (xa ++ xb) =
      interleave ka xa ++ k :: interleave kb xb := by
  induction xa using List.reverseRecOn with
  | nil => simp at h
  | append_singleton xa x _ =>
      have hlen : ka.length = xa.length := by simpa using h.symm
      have hleft : interleave ka (xa ++ [x]) = interleave ka xa ++ x := by
        have := interleave_append ka xa [] [x] hlen
        simpa [interleave] using this
      rw [hleft, List.append_assoc, interleave_append ka xa (k :: kb) _ hlen]
      simp [interleave]

theorem interleave_focus (ka kb : List α) (xa xb : List (List α)) (x : List α)
    (h : ka.length = xa.length) :
    interleave (ka ++ kb) (xa ++ x :: xb) =
      interleave ka xa ++ (x ++ tailOf kb xb) := by
  rw [interleave_append ka xa kb (x :: xb) h, interleave_cons]

/-- The keys of a node are among its contents, in the same order. -/
theorem keys_sublist : ∀ (ks : List α) (xs : List (List α)),
    ks.Sublist (interleave ks xs)
  | ks, [] => by simp
  | [], x :: xs => List.nil_sublist _
  | k :: ks, x :: xs =>
      ((keys_sublist ks xs).cons_cons k).trans (List.sublist_append_right x _)

/-! ## Contents and identities of a tree -/

/-- The keys of a tree from left to right. -/
def inorder : (n : Nat) → Tree α n → List α
  | 0, T => T.keys
  | n + 1, T => interleave T.keys (T.kids.map (inorder n))

/-- The identities of the nodes of a tree, the root first. -/
def ids : (n : Nat) → Tree α n → List Nat
  | 0, T => [T.id]
  | n + 1, T => T.id :: T.kids.flatMap (ids n)

/-- A tree read from the leaves up: `step` gets the identity and the keys of a
node, and what its kids came to. -/
def fold {β : Type} (step : Nat → List α → List β → β) :
    (n : Nat) → Tree α n → β
  | 0, T => step T.id T.keys []
  | n + 1, T => step T.id T.keys (T.kids.map (fold step n))

theorem fold_interleave (n : Nat) (T : Tree α n) :
    fold (fun _ => interleave) n T = inorder n T := by
  induction n with
  | zero => exact interleave_nil T.keys
  | succ n ih =>
      simp only [fold, inorder]
      rw [funext ih]

theorem fold_ids (n : Nat) (T : Tree α n) :
    fold (fun id _ xs => id :: xs.flatten) n T = ids n T := by
  induction n with
  | zero => rfl
  | succ n ih =>
      simp only [fold, ids, List.flatMap]
      rw [funext ih]

theorem id_mem_ids (n : Nat) (T : Tree α n) : T.id ∈ ids n T := by
  cases n <;> simp [ids]

theorem ids_kid_subset {n : Nat} {T : Tree α (n + 1)} {c : Tree α n}
    (hc : c ∈ T.kids) : ids n c ⊆ ids (n + 1) T := by
  intro q hq
  simp only [ids, List.mem_cons, List.mem_flatMap]
  exact Or.inr ⟨c, hc, hq⟩

/-- `q` is the root of a subtree of height `k`. -/
def AtHeight (k q : Nat) : (n : Nat) → Tree α n → Prop
  | 0, T => k = 0 ∧ T.id = q
  | n + 1, T => (k = n + 1 ∧ T.id = q) ∨ ∃ c ∈ T.kids, AtHeight k q n c

theorem atHeight_root (n : Nat) (T : Tree α n) : AtHeight n T.id n T := by
  cases n with
  | zero => exact ⟨rfl, rfl⟩
  | succ n => exact Or.inl ⟨rfl, rfl⟩

theorem AtHeight.le {k q n : Nat} {T : Tree α n} (h : AtHeight k q n T) :
    k ≤ n := by
  induction n with
  | zero => exact Nat.le_of_eq h.1
  | succ n ih =>
      rcases h with ⟨rfl, -⟩ | ⟨c, -, hc⟩
      · exact Nat.le_refl _
      · exact Nat.le_succ_of_le (ih hc)

/-- The contents of a node, cut at one kid. -/
theorem inorder_focus {n : Nat} (id : Nat) (ka kb : List α)
    (A B : List (Tree α n)) (c : Tree α n) (h : ka.length = A.length) :
    inorder (n + 1) ⟨id, ka ++ kb, A ++ c :: B⟩ =
      interleave ka (A.map (inorder n)) ++
        (inorder n c ++ tailOf kb (B.map (inorder n))) := by
  simp only [inorder, List.map_append, List.map_cons]
  exact interleave_focus ka kb _ _ _ (by simpa using h)

/-- What stands before kid `i`. -/
def beforeKid (n i : Nat) (P : Tree α (n + 1)) : List α :=
  interleave (P.keys.take i) ((P.kids.take i).map (inorder n))

/-- What stands behind kid `i`. -/
def afterKid (n i : Nat) (P : Tree α (n + 1)) : List α :=
  tailOf (P.keys.drop i) ((P.kids.drop (i + 1)).map (inorder n))

theorem beforeKid_mk {n i : Nat} {id : Nat} {ka kb : List α}
    {A B : List (Tree α n)} (hk : ka.length = i) (hA : A.length = i) :
    beforeKid n i ⟨id, ka ++ kb, A ++ B⟩ =
      interleave ka (A.map (inorder n)) := by
  simp only [beforeKid]
  rw [List.take_left' hk, List.take_left' hA]

theorem afterKid_mk {n i : Nat} {id : Nat} {ka kb : List α}
    {A B : List (Tree α n)} {c : Tree α n} (hk : ka.length = i)
    (hA : A.length = i) :
    afterKid n i ⟨id, ka ++ kb, A ++ c :: B⟩ =
      tailOf kb (B.map (inorder n)) := by
  simp only [afterKid]
  rw [List.drop_left' hk, ← List.drop_drop, List.drop_left' hA]
  rfl

/-- `c`, `k` and `s` in one node, which keeps the identity of `c`. -/
def Node.joined (c : Node α κ) (k : α) (s : Node α κ) : Node α κ :=
  ⟨c.id, c.keys ++ k :: s.keys, c.kids ++ s.kids⟩

@[simp] theorem Node.joined_id (c : Node α κ) (k : α) (s : Node α κ) :
    (c.joined k s).id = c.id := rfl

/-- A node has one kid more than keys, unless it is a leaf. -/
def Branching (n : Nat) (N : Node α κ) : Prop :=
  n ≠ 0 → N.kids.length = N.size + 1

/-- The contents of two neighbours joined around a key. -/
theorem inorder_joined (n : Nat) (c s : Tree α n) (k : α)
    (h : Branching n c) :
    inorder n (c.joined k s) = inorder n c ++ k :: inorder n s := by
  cases n with
  | zero => rfl
  | succ n =>
      simp only [inorder, Node.joined, List.map_append]
      exact interleave_join _ _ _ _ _ (by
        simpa [Node.size] using h (Nat.succ_ne_zero n))

theorem ids_joined (n : Nat) (c s : Tree α n) (k : α) :
    (s.id :: ids n (c.joined k s)).Perm (ids n c ++ ids n s) := by
  cases n with
  | zero => exact List.Perm.swap _ _ _
  | succ n =>
      simp only [ids, Node.joined, List.flatMap_append]
      have hmid : (s.id :: ((c.id :: c.kids.flatMap (ids n)) ++
          s.kids.flatMap (ids n))).Perm
          ((c.id :: c.kids.flatMap (ids n)) ++ s.id :: s.kids.flatMap (ids n)) :=
        List.perm_middle.symm
      simpa using hmid

/-! ## Bounds in a sorted node -/

section Order

variable [LinearOrder α]

/-- Contents in non-decreasing order. -/
abbrev Sorted (l : List α) : Prop := l.Pairwise (· ≤ ·)

/-- If every key before a kid satisfies a downward closed property, so does
everything before that kid. -/
theorem interleave_forall {P : α → Prop} (hP : ∀ x a, x ≤ a → P a → P x) :
    ∀ (ks : List α) (xs : List (List α)), ks.length = xs.length →
      Sorted (interleave ks xs) → (∀ a ∈ ks, P a) →
      ∀ x ∈ interleave ks xs, P x := by
  intro ks
  induction ks with
  | nil =>
      intro xs h _ _ x hx
      have hxs : xs = [] := List.length_eq_zero_iff.mp h.symm
      simp [hxs] at hx
  | cons k ks ih =>
      intro xs h hsort hkeys y hy
      cases xs with
      | nil => simp at h
      | cons x xs =>
          simp only [interleave, Sorted, List.pairwise_append,
            List.pairwise_cons] at hsort
          simp only [interleave, List.mem_append, List.mem_cons] at hy
          have hk : P k := hkeys k (by simp)
          rcases hy with hy | rfl | hy
          · exact hP y k (hsort.2.2 y hy k (by simp)) hk
          · exact hk
          · exact ih xs (by simpa using h) hsort.2.1.2
              (fun a ha => hkeys a (by simp [ha])) y hy

/-- If the key behind a kid satisfies an upward closed property, so does
everything behind that kid. -/
theorem tailOf_forall {P : α → Prop} (hP : ∀ a x, a ≤ x → P a → P x)
    {ks : List α} {xs : List (List α)} (h : ks.length = xs.length)
    (hsort : Sorted (tailOf ks xs)) (hkeys : ∀ a ∈ ks.head?, P a) :
    ∀ x ∈ tailOf ks xs, P x := by
  intro x hx
  cases ks with
  | nil =>
      have hxs : xs = [] := List.length_eq_zero_iff.mp h.symm
      simp [tailOf, hxs] at hx
  | cons k ks =>
      have hk : P k := hkeys k (by simp)
      simp only [tailOf, Sorted, List.pairwise_cons] at hsort
      simp only [tailOf, List.mem_cons] at hx
      rcases hx with rfl | hx
      · exact hk
      · exact hP k x (hsort.1 x hx) hk

end Order

end ParallelBTree.Verified.Multiway
