import ParallelBTree.Ports.DescentFill
import ParallelBTree.Verified.SortedBag

/-!
# `insertNonFull` on trees

One step of the descent is described once, by `InsertStep`: the node after the
split, if there was one, cut at the kid the descent goes on with.  Occupancy,
identities and contents after the whole call follow by induction on the height.
-/

namespace ParallelBTree.Ports.Descent

open ParallelBTree.Verified.Multiway
open ParallelBTree.Ports.NodeMemory

/-- `insertNonFull(key)` on the inner node `T` goes on with the kid `c` of the
node `⟨T.id, ka ++ kb, A ++ c :: B⟩`, after creating `d` nodes. -/
structure InsertStep (t : Nat) (key : Int) {n : Nat} (T : Tree Int (n + 1))
    (next : Nat) (ka kb : List Int) (A : List (Tree Int n)) (c : Tree Int n)
    (B : List (Tree Int n)) (d : Nat) : Prop where
  left : ka.length = A.length
  right : kb.length = B.length
  wf : WF t (n + 1) ⟨T.id, ka ++ kb, A ++ c :: B⟩
  room : c.size < 2 * t - 1
  contents : inorder (n + 1) ⟨T.id, ka ++ kb, A ++ c :: B⟩ =
    inorder (n + 1) T
  ids : (ids (n + 1) ⟨T.id, ka ++ kb, A ++ c :: B⟩).Perm
    (List.range' next d ++ ids (n + 1) T)
  size : (ka ++ kb).length = T.size + d
  grow : d ≤ 1
  keys_le : Sorted (inorder (n + 1) T) → ∀ a ∈ ka, a ≤ key
  le_keys : ∀ b ∈ kb.head?, key ≤ b
  tree : (insertNonFull t key (n + 1) T next).tree =
    ⟨T.id, ka ++ kb, A ++ (insertNonFull t key n c (next + d)).tree :: B⟩
  created : (insertNonFull t key (n + 1) T next).created =
    (insertNonFull t key n c (next + d)).created + d
  freed : (insertNonFull t key (n + 1) T next).freed =
    (insertNonFull t key n c (next + d)).freed

theorem insertIn_mk {n i p : Nat} (rec : Tree Int n → Outcome n)
    {K : List Int} {A B : List (Tree Int n)} {c : Tree Int n}
    (hA : A.length = i) :
    insertIn rec ⟨p, K, A ++ c :: B⟩ i =
      ⟨⟨p, K, A ++ (rec c).tree :: B⟩, (rec c).created, (rec c).freed,
        calledIn .insertNonFull (Node.mk p K (A ++ c :: B) : Tree Int (n + 1))
          i c :: (rec c).trace⟩ := by
  subst hA
  simp [insertIn, setKid]

/-- The full node gives away its middle key, which is there. -/
theorem exists_middle {κ : Type} {t : Nat} {y : Node Int κ} (ht : 1 ≤ t)
    (hfull : y.size = 2 * t - 1) : ∃ k K, y.keys.drop (t - 1) = k :: K := by
  have hlt : t - 1 < y.keys.length := by
    simp only [Node.size] at hfull
    omega
  exact ⟨_, _, List.drop_eq_getElem_cons hlt⟩

section Branches

variable {t n p : Nat} {key k : Int} {ka kb K : List Int}
  {A B : List (Tree Int n)} {y : Tree Int n}

/-- The kid is full and is split, and the call goes on with one half. -/
theorem insertNonFull_split (next : Nat) (hA : A.length = ka.length)
    (hka : ka.length = upperPos (ka ++ kb) key) (hfull : y.size = 2 * t - 1)
    (hk : y.keys.drop (t - 1) = k :: K) :
    insertNonFull t key (n + 1)
      (Node.mk p (ka ++ kb) (A ++ y :: B) : Tree Int (n + 1)) next =
      let o := insertIn (fun c => insertNonFull t key n c (next + 1))
        (Node.mk p (ka ++ k :: kb) (A ++ y.splitLeft t ::
          y.splitRight t next :: B) : Tree Int (n + 1))
        (if k < key then ka.length + 1 else ka.length)
      ⟨o.tree, o.created + 1, o.freed,
        called .splitChild (Node.mk p (ka ++ kb) (A ++ y :: B) :
          Tree Int (n + 1)) ka.length (some y.id) :: o.trace⟩ := by
  have hsplitPos : splitPos (ka ++ k :: kb) key ka.length =
      if k < key then ka.length + 1 else ka.length := by
    simp [splitPos]
  simp only [insertNonFull, ← hka, kids_cut hA, if_pos hfull, split_mk rfl hA hk,
    hsplitPos]

/-- The call goes on with a kid that has room. -/
theorem insertNonFull_descend (next : Nat) (hA : A.length = ka.length)
    (hka : ka.length = upperPos (ka ++ kb) key) (hfull : y.size ≠ 2 * t - 1) :
    insertNonFull t key (n + 1)
      (Node.mk p (ka ++ kb) (A ++ y :: B) : Tree Int (n + 1)) next =
      insertIn (fun c => insertNonFull t key n c next)
        (Node.mk p (ka ++ kb) (A ++ y :: B) : Tree Int (n + 1)) ka.length := by
  simp only [insertNonFull, ← hka, kids_cut hA, if_neg hfull]

end Branches

theorem insertNonFull_step {t n : Nat} (key : Int) {T : Tree Int (n + 1)}
    (next : Nat) (ht : 2 ≤ t) (h : WF t (n + 1) T) (hroom : T.size < 2 * t - 1) :
    ∃ ka kb A c B d, InsertStep t key T next ka kb A c B d := by
  obtain ⟨p, K, C⟩ := T
  obtain ⟨ka, kb, rfl, hka, hle, hgt⟩ := rdropWhile_cut K key
  have hlen : C.length = (ka ++ kb).length + 1 := h.2.1
  obtain ⟨A, y, B, rfl, hA, hB⟩ := exists_kids_cut hlen
  have hpos : upperPos (ka ++ kb) key = ka.length := hka.symm
  have hkid : (A ++ y :: B)[ka.length]? = some y := kids_cut hA
  have hkeys : Sorted (inorder (n + 1)
      (Node.mk p (ka ++ kb) (A ++ y :: B) : Tree Int (n + 1))) →
      ∀ a ∈ ka, a ≤ key := fun hs =>
    le_of_getLast (List.pairwise_append.mp (sorted_keys hs)).1 hle
  have hylt := (h.kid (by simp : y ∈ A ++ y :: B)).2.size_le
  by_cases hfull : y.size = 2 * t - 1
  · -- the kid is full and is split
    obtain ⟨m, M, hm⟩ := exists_middle (by omega) hfull
    have hyb := (h.kid (by simp : y ∈ A ++ y :: B)).2.branching
    have hwf := wf_split next (by omega) hm h hfull hroom
    have hcont : inorder (n + 1) ⟨p, ka ++ m :: kb,
          A ++ y.splitLeft t :: y.splitRight t next :: B⟩ =
        inorder (n + 1) ⟨p, ka ++ kb, A ++ y :: B⟩ :=
      inorder_split next (by omega) hm hyb (by omega) hA.symm
    have hids : (ids (n + 1) ⟨p, ka ++ m :: kb,
          A ++ y.splitLeft t :: y.splitRight t next :: B⟩).Perm
        (next :: ids (n + 1) ⟨p, ka ++ kb, A ++ y :: B⟩) :=
      ids_split next (by omega) hm
    have hrun := insertNonFull_split (p := p) (B := B) next hA hka hfull hm
    by_cases hmk : m < key
    · rw [if_pos hmk] at hrun
      have hlist : A ++ y.splitLeft t :: y.splitRight t next :: B =
          (A ++ [y.splitLeft t]) ++ y.splitRight t next :: B := by simp
      have hkl : ka ++ m :: kb = (ka ++ [m]) ++ kb := by simp
      rw [hlist, hkl] at hrun hwf hcont hids
      rw [insertIn_mk _ (by simp [hA])] at hrun
      refine ⟨ka ++ [m], kb, A ++ [y.splitLeft t], y.splitRight t next, B, 1, ?_⟩
      exact
        { left := by simp [hA]
          right := hB
          wf := hwf
          room := by
            simp only [Node.size, Node.splitRight, List.length_drop] at hfull ⊢
            omega
          contents := hcont
          ids := hids
          size := by
            simp only [List.length_append, List.length_singleton, Node.size_mk]
            omega
          grow := Nat.le_refl 1
          keys_le := by
            intro hs a ha
            rcases List.mem_append.mp ha with ha | ha
            · exact hkeys hs a ha
            · rw [List.mem_singleton.mp ha]
              exact Int.le_of_lt hmk
          le_keys := fun b hb => Int.le_of_lt (hgt b (List.mem_of_mem_head? hb))
          tree := by rw [hrun]
          created := by rw [hrun]
          freed := by rw [hrun] }
    · rw [if_neg hmk, insertIn_mk _ hA] at hrun
      refine ⟨ka, m :: kb, A, y.splitLeft t, y.splitRight t next :: B, 1, ?_⟩
      exact
        { left := hA.symm
          right := by simp [hB]
          wf := hwf
          room := by
            simp only [Node.size, Node.splitLeft, List.length_take] at hfull ⊢
            omega
          contents := hcont
          ids := hids
          size := by
            simp only [List.length_append, List.length_cons, Node.size_mk]
            omega
          grow := Nat.le_refl 1
          keys_le := hkeys
          le_keys := fun b hb => by
            obtain rfl : m = b := by simpa using hb
            exact Int.not_lt.mp hmk
          tree := by rw [hrun]
          created := by rw [hrun]
          freed := by rw [hrun] }
  · have hrun := insertNonFull_descend (p := p) (B := B) next hA hka hfull
    rw [insertIn_mk _ hA] at hrun
    refine ⟨ka, kb, A, y, B, 0, ?_⟩
    exact
      { left := hA.symm
        right := hB
        wf := h
        room := by omega
        contents := rfl
        ids := by simp
        size := rfl
        grow := Nat.zero_le 1
        keys_le := hkeys
        le_keys := fun b hb => Int.le_of_lt (hgt b (List.mem_of_mem_head? hb))
        tree := by rw [hrun]; rfl
        created := by rw [hrun]; rfl
        freed := by rw [hrun]; rfl }

/-! ## The whole call -/

/-- The new key in a leaf. -/
theorem insertNonFull_leaf (t : Nat) (key : Int) (T : Tree Int 0) (next : Nat) :
    ∃ ka kb, T.keys = ka ++ kb ∧ (Sorted T.keys → ∀ a ∈ ka, a ≤ key) ∧
      (∀ b ∈ kb, key < b) ∧
      insertNonFull t key 0 T next =
        .same ⟨T.id, ka ++ key :: kb, T.kids⟩ := by
  obtain ⟨ka, kb, hK, hka, hle, hgt⟩ := rdropWhile_cut T.keys key
  refine ⟨ka, kb, hK, ?_, hgt, ?_⟩
  · intro hs
    rw [hK] at hs
    exact le_of_getLast (List.pairwise_append.mp hs).1 hle
  have hpos : upperPos T.keys key = ka.length := hka.symm
  simp only [insertNonFull, hpos]
  rw [hK, List.take_left, List.drop_left]

theorem insertNonFull_id (t : Nat) (key : Int) (n : Nat) (T : Tree Int n)
    (next : Nat) : (insertNonFull t key n T next).tree.id = T.id := by
  cases n with
  | zero => rfl
  | succ n =>
      simp only [insertNonFull]
      split
      · rfl
      · rename_i y _
        have hin : ∀ (f : Tree Int n → Outcome n) (U : Tree Int (n + 1))
            (j : Nat), (insertIn f U j).tree.id = U.id := by
          intro f U j
          simp only [insertIn]
          split <;> rfl
        have hsplit : ∀ (z i : Nat), (T.split t z i).id = T.id := by
          intro z i
          simp only [Node.split]
          split
          · rfl
          · split <;> rfl
        split
        · rw [hin, hsplit]
        · rw [hin]

/-- Occupancy, and at most one key more in the root. -/
theorem insertNonFull_wf {t : Nat} (ht : 2 ≤ t) (key : Int) :
    ∀ (n : Nat) (T : Tree Int n) (next : Nat), WF t n T →
      T.size < 2 * t - 1 →
      WF t n (insertNonFull t key n T next).tree ∧
        T.size ≤ (insertNonFull t key n T next).tree.size ∧
        (insertNonFull t key n T next).tree.size ≤ T.size + 1 := by
  intro n
  induction n with
  | zero =>
      intro T next _ hroom
      obtain ⟨ka, kb, hK, -, -, hrun⟩ := insertNonFull_leaf t key T next
      have hsize : (insertNonFull t key 0 T next).tree.size = T.size + 1 := by
        rw [hrun]
        simp only [Outcome.same, Node.size, hK, List.length_append,
          List.length_cons]
        omega
      refine ⟨?_, by omega, by omega⟩
      show Node.size _ ≤ _
      omega
  | succ n ih =>
      intro T next h hroom
      obtain ⟨ka, kb, A, c, B, d, hstep⟩ :=
        insertNonFull_step key next ht h hroom
      have hc := hstep.wf.kid (by simp : c ∈ A ++ c :: B)
      obtain ⟨hwf, hge, -⟩ := ih c (next + d) hc.2 hstep.room
      have hsize := hstep.size
      have hgrow := hstep.grow
      rw [hstep.tree]
      refine ⟨?_, ?_, ?_⟩
      · refine WF.middle (M := [c])
          (N := [(insertNonFull t key n c (next + d)).tree]) hstep.wf
          hstep.wf.1 rfl ?_
        intro x hx
        rw [List.mem_singleton.mp hx]
        exact ⟨by omega, hwf⟩
      · show T.size ≤ (ka ++ kb).length
        omega
      · show (ka ++ kb).length ≤ T.size + 1
        omega

/-- An insertion changes the height of no subtree. -/
theorem insertNonFull_atHeight (t : Nat) (key : Int) {k q : Nat} :
    ∀ (n : Nat) (T : Tree Int n) (next : Nat), AtHeight k q n T →
      AtHeight k q n (insertNonFull t key n T next).tree := by
  intro n
  induction n with
  | zero => exact fun T next h => h
  | succ n ih =>
      have hin : ∀ (next : Nat) (U : Tree Int (n + 1)) (j : Nat),
          AtHeight k q (n + 1) U → AtHeight k q (n + 1)
            (insertIn (fun c => insertNonFull t key n c next) U j).tree := by
        intro next U j h
        unfold insertIn
        split
        · exact h
        · rename_i c hc
          rcases h with hroot | ⟨x, hx, hq⟩
          · exact Or.inl hroot
          · right
            obtain ⟨i, hi⟩ := List.mem_iff_getElem?.mp hx
            by_cases hij : j = i
            · subst hij
              obtain rfl : x = c := Option.some.inj (hi.symm.trans hc)
              have hlt := (List.getElem?_eq_some_iff.mp hi).1
              exact ⟨_, List.mem_of_getElem? (List.getElem?_set_self hlt),
                ih x next hq⟩
            · refine ⟨x, List.mem_of_getElem? (i := i) ?_, hq⟩
              exact (List.getElem?_set_ne hij).trans hi
      intro T next h
      simp only [insertNonFull]
      split
      · exact h
      · split
        · exact hin (next + 1) _ _ (split_atHeight h)
        · exact hin next T _ h

/-- Every new node is in the tree, and nothing else happens to identities. -/
theorem insertNonFull_ids {t : Nat} (ht : 2 ≤ t) (key : Int) :
    ∀ (n : Nat) (T : Tree Int n) (next : Nat), WF t n T →
      T.size < 2 * t - 1 →
      (ids n (insertNonFull t key n T next).tree).Perm
        (List.range' next (insertNonFull t key n T next).created ++ ids n T) ∧
      (insertNonFull t key n T next).freed = [] := by
  intro n
  induction n with
  | zero =>
      intro T next _ _
      exact ⟨List.Perm.refl _, rfl⟩
  | succ n ih =>
      intro T next h hroom
      obtain ⟨ka, kb, A, c, B, d, hstep⟩ :=
        insertNonFull_step key next ht h hroom
      have hc := hstep.wf.kid (by simp : c ∈ A ++ c :: B)
      obtain ⟨hids, hfreed⟩ := ih c (next + d) hc.2 hstep.room
      rw [hstep.tree, hstep.created, hstep.freed]
      refine ⟨?_, hfreed⟩
      have hkid := ids_middle (n := n) (p := T.id) (K := ka ++ kb)
        (L := ka ++ kb) (A := A) (B := B) (X := []) (M := [(insertNonFull t key n c (next + d)).tree])
        (Y := List.range' (next + d) (insertNonFull t key n c (next + d)).created)
        (N := [c]) (by simpa using hids)
      refine hkid.trans ((hstep.ids.append_left _).trans ?_)
      have hrange : ∀ m, List.range' next (m + d) =
          List.range' next d ++ List.range' (next + d) m := fun m => by
        rw [List.range'_append_1, Nat.add_comm]
      rw [← List.append_assoc, hrange]
      exact List.perm_append_comm.append_right _

/-- The contents gain one occurrence of the key. -/
theorem insertNonFull_contents {t : Nat} (ht : 2 ≤ t) (key : Int) :
    ∀ (n : Nat) (T : Tree Int n) (next : Nat), WF t n T →
      T.size < 2 * t - 1 → Sorted (inorder n T) →
      inorder n (insertNonFull t key n T next).tree =
        (inorder n T).orderedInsert (· ≤ ·) key := by
  intro n
  induction n with
  | zero =>
      intro T next _ _ hs
      obtain ⟨ka, kb, hK, hle, hgt, hrun⟩ := insertNonFull_leaf t key T next
      have hsort : Sorted (ka ++ ([] ++ kb)) := by
        rw [List.nil_append, ← hK]
        exact hs
      have hmid := orderedInsert_middle (k := key) hsort
        (hle (by rw [hK]; exact hsort))
        (fun x hx => Int.le_of_lt (hgt x hx))
      rw [hrun]
      show ka ++ key :: kb = T.keys.orderedInsert (· ≤ ·) key
      rw [hK]
      exact hmid.symm
  | succ n ih =>
      intro T next h hroom hs
      obtain ⟨ka, kb, A, c, B, d, hstep⟩ :=
        insertNonFull_step key next ht h hroom
      have hc := hstep.wf.kid (by simp : c ∈ A ++ c :: B)
      have hcut := inorder_focus T.id ka kb A B c hstep.left
      have hsort : Sorted (interleave ka (A.map (inorder n)) ++
          (inorder n c ++ tailOf kb (B.map (inorder n)))) := by
        rw [← hcut, hstep.contents]
        exact hs
      have hparts := List.pairwise_append.mp hsort
      have hparts' := List.pairwise_append.mp hparts.2.1
      have hrec := ih c (next + d) hc.2 hstep.room hparts'.1
      rw [hstep.tree, inorder_focus T.id ka kb A B _ hstep.left, hrec,
        ← hstep.contents, hcut]
      refine (orderedInsert_middle hsort ?_ ?_).symm
      · exact interleave_forall (fun x a hxa hak => le_trans hxa hak) ka _
          (by simpa using hstep.left) hparts.1 (hstep.keys_le hs)
      · exact tailOf_forall (fun a x hax hka => le_trans hka hax)
          (by simpa using hstep.right) hparts'.2.1 hstep.le_keys

end ParallelBTree.Ports.Descent
