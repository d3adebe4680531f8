import ParallelBTree.Ports.Descent

/-!
# `fill` prepares the descent

Whichever of its four outcomes `fill` takes, it keeps the contents, the
identities and the occupancy of the tree, and leaves a kid with at least `t`
keys for `remove` to descend into.  That kid holds everything the kid passed to
`fill` held, with at most something more on either side: what stood before the
old kid is what stands before the new one followed by that something.
-/

namespace ParallelBTree.Ports.Descent

open ParallelBTree.Verified.Multiway
open ParallelBTree.Ports.NodeMemory

/-- The lists of keys and kids of a node, cut at kid `i`. -/
theorem exists_cut {α κ : Type} {K : List α} {C : List κ} {i : Nat}
    (hlen : C.length = K.length + 1) (hi : i ≤ K.length) :
    ∃ ka kb A c B, K = ka ++ kb ∧ C = A ++ c :: B ∧ ka.length = i ∧
      A.length = i ∧ kb.length = B.length := by
  have hC : i < C.length := by omega
  refine ⟨K.take i, K.drop i, C.take i, C[i], C.drop (i + 1),
    (List.take_append_drop i K).symm, ?_, ?_, ?_, ?_⟩
  · rw [← List.drop_eq_getElem_cons hC, List.take_append_drop]
  · rw [List.length_take]
    omega
  · rw [List.length_take]
    omega
  · rw [List.length_drop, List.length_drop]
    omega

/-- The kids of a node whose keys are already cut. -/
theorem exists_kids_cut {α κ : Type} {ka kb : List α} {C : List κ}
    (hlen : C.length = (ka ++ kb).length + 1) :
    ∃ A c B, C = A ++ c :: B ∧ A.length = ka.length ∧
      kb.length = B.length := by
  have hi : ka.length ≤ (ka ++ kb).length := by simp
  obtain ⟨ka', kb', A, c, B, hK, hC, hka, hA, hB⟩ := exists_cut hlen hi
  obtain ⟨-, rfl⟩ := List.append_inj hK hka.symm
  exact ⟨A, c, B, hC, hA, hB⟩

/-- The lists of keys and kids of a node, cut at kids `i` and `i + 1`. -/
theorem exists_cut_pair {α κ : Type} {K : List α} {C : List κ} {i : Nat}
    (hlen : C.length = K.length + 1) (hi : i < K.length) :
    ∃ ka k kb A c s B, K = ka ++ k :: kb ∧ C = A ++ c :: s :: B ∧
      ka.length = i ∧ A.length = i ∧ kb.length = B.length := by
  obtain ⟨ka, kb, A, c, B, rfl, rfl, hka, hA, hB⟩ :=
    exists_cut hlen (Nat.le_of_lt hi)
  cases kb with
  | nil =>
      simp only [List.append_nil] at hi
      omega
  | cons k kb =>
      cases B with
      | nil => simp at hB
      | cons s B =>
          exact ⟨ka, k, kb, A, c, s, B, rfl, rfl, hka, hA, by simpa using hB⟩

section Kids

variable {n i p : Nat} {K : List Int} {A B : List (Tree Int n)}
  {c s : Tree Int n}

theorem kids_cut (hA : A.length = i) : (A ++ c :: B)[i]? = some c := by
  simp [← hA]

theorem kids_cut_succ (hA : A.length = i) :
    (A ++ c :: s :: B)[i + 1]? = some s := by
  simp [← hA]

theorem kidSize_mk (hA : A.length = i) :
    kidSize (Node.mk p K (A ++ c :: B) : Tree Int (n + 1)) i = c.size := by
  simp only [kidSize, kids_cut hA, Option.elim]

theorem kidSize_mk_succ (hA : A.length = i) :
    kidSize (Node.mk p K (A ++ c :: s :: B) : Tree Int (n + 1)) (i + 1) =
      s.size := by
  simp only [kidSize, kids_cut_succ hA, Option.elim]

theorem kidId_mk_succ (hA : A.length = i) :
    kidId (Node.mk p K (A ++ c :: s :: B) : Tree Int (n + 1)) (i + 1) =
      [s.id] := by
  simp only [kidId, kids_cut_succ hA, Option.toList, List.map]

end Kids

/-- What `fill(idx)` on `T` has to leave behind, when the kids' kids are `P`. -/
structure Prepared (t : Nat) (P : (n : Nat) → Tree Int n → Prop) {n : Nat}
    (T : Tree Int (n + 1)) (idx : Nat) (o : Outcome (n + 1)) : Prop where
  id_eq : o.tree.id = T.id
  created : o.created = 0
  occupied : Occupied t P n o.tree
  contents : inorder (n + 1) o.tree = inorder (n + 1) T
  size_le : o.tree.size ≤ T.size
  size_ge : T.size ≤ o.tree.size + 1
  ids : (ids (n + 1) o.tree ++ o.freed).Perm (ids (n + 1) T)
  /-- the kid to descend into -/
  target : ∃ c c' u v, T.kids[idx]? = some c ∧
    o.tree.kids[fillPos idx T.size o.tree.size]? = some c' ∧ t ≤ c'.size ∧
    inorder n c' = u ++ (inorder n c ++ v) ∧
    beforeKid n idx T =
      beforeKid n (fillPos idx T.size o.tree.size) o.tree ++ u ∧
    afterKid n idx T =
      v ++ afterKid n (fillPos idx T.size o.tree.size) o.tree

/-- The same in a tree that is occupied all the way down. -/
structure Filled (t : Nat) {n : Nat} (T : Tree Int (n + 1)) (idx : Nat)
    (o : Outcome (n + 1)) : Prop where
  id_eq : o.tree.id = T.id
  created : o.created = 0
  wf : WF t (n + 1) o.tree
  contents : inorder (n + 1) o.tree = inorder (n + 1) T
  size_le : o.tree.size ≤ T.size
  size_ge : T.size ≤ o.tree.size + 1
  ids : (ids (n + 1) o.tree ++ o.freed).Perm (ids (n + 1) T)
  /-- the kid to descend into -/
  target : ∃ c c' u v, T.kids[idx]? = some c ∧
    o.tree.kids[fillPos idx T.size o.tree.size]? = some c' ∧ t ≤ c'.size ∧
    inorder n c' = u ++ (inorder n c ++ v) ∧
    beforeKid n idx T =
      beforeKid n (fillPos idx T.size o.tree.size) o.tree ++ u ∧
    afterKid n idx T =
      v ++ afterKid n (fillPos idx T.size o.tree.size) o.tree

theorem Prepared.filled {t n idx : Nat} {T : Tree Int (n + 1)}
    {o : Outcome (n + 1)}
    (h : Prepared t (fun n c => t - 1 ≤ c.size ∧ WF t n c) T idx o) :
    Filled t T idx o :=
  { h with wf := wf_iff_occupied.mpr h.occupied }

theorem fillPos_of_le {idx size size' : Nat} (h : idx ≤ size') :
    fillPos idx size size' = idx := by
  rw [fillPos, if_neg (by omega)]

section Outcomes

variable {t n p i : Nat} {P : (n : Nat) → Tree Int n → Prop} {ka kb : List Int} {k x : Int}
  {A B : List (Tree Int n)} {c s : Tree Int n}

theorem prepared_rotateRight (tr : List Event) (ht : 1 ≤ t)
    (hx : s.keys.getLast? = some x) (hka : ka.length = i) (hA : A.length = i)
    (hB : kb.length = B.length)
    (h : Occupied t P n ⟨p, ka ++ k :: kb, A ++ s :: c :: B⟩)
    (hs : t ≤ s.size) (hc : c.size + 1 = t) :
    Prepared t P (Node.mk p (ka ++ k :: kb) (A ++ s :: c :: B) : Tree Int (n + 1))
      (i + 1) ⟨⟨p, ka ++ x :: kb,
        A ++ s.init :: (s.last c.id).joined k c :: B⟩, 0, [], tr⟩ := by
  have hsb := (h.kid (by simp : s ∈ A ++ s :: c :: B)).2.branching
  have hlen : ka.length = A.length := by omega
  have hpos : fillPos (i + 1) (ka ++ k :: kb).length (ka ++ x :: kb).length =
      i + 1 := fillPos_of_le (by simp; omega)
  have hsplit : inorder n s =
      inorder n s.init ++ x :: inorder n (s.last c.id) := by
    rw [← inorder_joined n _ _ x (init_branching hsb (by omega)),
      ← eq_init_joined c.id hx]
  have hleft : ∀ (y : Int) (L : Tree Int n) (R : List (Tree Int n)),
      beforeKid n (i + 1) (Node.mk p (ka ++ y :: kb) (A ++ L :: R)) =
        interleave ka (A.map (inorder n)) ++ (inorder n L ++ [y]) := by
    intro y L R
    have hcut : beforeKid n (i + 1) ⟨p, (ka ++ [y]) ++ kb, (A ++ [L]) ++ R⟩ =
        interleave (ka ++ [y]) ((A ++ [L]).map (inorder n)) :=
      beforeKid_mk (by simp [hka]) (by simp [hA])
    rw [List.append_assoc, List.append_assoc] at hcut
    apply hcut.trans
    rw [List.map_append, interleave_append ka _ [y] _ (by simpa using hlen)]
    rfl
  have hright : ∀ (y : Int) (L R : Tree Int n),
      afterKid n (i + 1) (Node.mk p (ka ++ y :: kb) (A ++ L :: R :: B)) =
        tailOf kb (B.map (inorder n)) := by
    intro y L R
    have hcut : afterKid n (i + 1)
        ⟨p, (ka ++ [y]) ++ kb, (A ++ [L]) ++ R :: B⟩ =
        tailOf kb (B.map (inorder n)) :=
      afterKid_mk (by simp [hka]) (by simp [hA])
    rwa [List.append_assoc, List.append_assoc] at hcut
  refine
    { id_eq := rfl
      created := rfl
      occupied := occupied_rotateRight hx h hs ht (by omega)
      contents := inorder_rotateRight hx hsb (by omega) hlen
      size_le := by simp [Node.size]
      size_ge := by simp [Node.size]
      ids := by simpa using ids_rotateRight hx
      target := ?_ }
  refine ⟨c, (s.last c.id).joined k c, inorder n (s.last c.id) ++ [k], [],
    kids_cut_succ hA, ?_, ?_, ?_, ?_, ?_⟩
  · simp only [Node.size_mk, hpos]
    exact kids_cut_succ hA
  · simp only [Node.size, Node.joined, Node.last, List.length_append,
      List.length_cons, List.length_nil] at hc ⊢
    omega
  · rw [inorder_joined n _ _ k (last_branching c.id hsb)]
    simp
  · simp only [Node.size_mk, hpos]
    rw [hleft, hleft, hsplit]
    simp
  · simp only [Node.size_mk, hpos]
    rw [hright, hright, List.nil_append]

theorem prepared_rotateLeft (tr : List Event) (hx : s.keys.head? = some x)
    (hka : ka.length = i) (hA : A.length = i) (hB : kb.length = B.length)
    (h : Occupied t P n ⟨p, ka ++ k :: kb, A ++ c :: s :: B⟩)
    (hs : t ≤ s.size) (hc : c.size + 1 = t) :
    Prepared t P (Node.mk p (ka ++ k :: kb) (A ++ c :: s :: B) : Tree Int (n + 1))
      i ⟨⟨p, ka ++ x :: kb,
        A ++ c.joined k (s.first s.id) :: s.rest :: B⟩, 0, [], tr⟩ := by
  have hcb := (h.kid (by simp : c ∈ A ++ c :: s :: B)).2.branching
  have hsb := (h.kid (by simp : s ∈ A ++ c :: s :: B)).2.branching
  have hlen : ka.length = A.length := by omega
  have hpos : fillPos i (ka ++ k :: kb).length (ka ++ x :: kb).length = i :=
    fillPos_of_le (by simp; omega)
  have hsplit : inorder n s =
      inorder n (s.first s.id) ++ x :: inorder n s.rest := by
    rw [← inorder_joined n _ _ x (first_branching s.id hsb),
      ← eq_first_joined hx]
  refine
    { id_eq := rfl
      created := rfl
      occupied := occupied_rotateLeft hx h hs (by omega)
      contents := inorder_rotateLeft hx hcb hsb hlen
      size_le := by simp [Node.size]
      size_ge := by simp [Node.size]
      ids := by simpa using ids_rotateLeft hx
      target := ?_ }
  refine ⟨c, c.joined k (s.first s.id), [], k :: inorder n (s.first s.id),
    kids_cut hA, ?_, ?_, ?_, ?_, ?_⟩
  · simp only [Node.size_mk, hpos]
    exact kids_cut hA
  · simp only [Node.size, Node.joined, Node.first, List.length_append,
      List.length_cons, List.length_nil] at hc ⊢
    omega
  · rw [inorder_joined n _ _ k hcb]
    simp
  · simp only [Node.size_mk, hpos]
    rw [beforeKid_mk hka hA, beforeKid_mk hka hA, List.append_nil]
  · simp only [Node.size_mk, hpos]
    rw [afterKid_mk hka hA, afterKid_mk hka hA]
    simp [tailOf, interleave_cons, hsplit]

/-- `merge` with the next kid, and descent into the merged one. -/
theorem prepared_merge_next (tr : List Event) (hka : ka.length = i)
    (hA : A.length = i) (hB : kb.length = B.length)
    (h : Occupied t P n ⟨p, ka ++ k :: kb, A ++ c :: s :: B⟩)
    (hs : s.size + 1 = t) (hc : c.size + 1 = t) (ht : 2 ≤ t) :
    Prepared t P (Node.mk p (ka ++ k :: kb) (A ++ c :: s :: B) : Tree Int (n + 1))
      i ⟨⟨p, ka ++ kb, A ++ c.joined k s :: B⟩, 0, [s.id], tr⟩ := by
  have hcb := (h.kid (by simp : c ∈ A ++ c :: s :: B)).2.branching
  have hlen : ka.length = A.length := by omega
  have hpos : fillPos i (ka ++ k :: kb).length (ka ++ kb).length = i :=
    fillPos_of_le (by simp; omega)
  refine
    { id_eq := rfl
      created := rfl
      occupied := occupied_merge h (by omega)
      contents := inorder_merge hcb hlen
      size_le := by simp [Node.size]
      size_ge := by
        simp only [Node.size, List.length_append, List.length_cons]
        omega
      ids := ids_merge
      target := ?_ }
  refine ⟨c, c.joined k s, [], k :: inorder n s, kids_cut hA, ?_, ?_, ?_, ?_, ?_⟩
  · simp only [Node.size_mk, hpos]
    exact kids_cut hA
  · simp only [Node.size, Node.joined, List.length_append,
      List.length_cons] at hs hc ⊢
    omega
  · rw [inorder_joined n _ _ k hcb]
    simp
  · simp only [Node.size_mk, hpos]
    rw [beforeKid_mk hka hA, beforeKid_mk hka hA, List.append_nil]
  · simp only [Node.size_mk, hpos]
    rw [afterKid_mk hka hA, afterKid_mk hka hA]
    simp [tailOf, interleave_cons]

/-- `merge` of the last kid with the previous one, and descent into that. -/
theorem prepared_merge_prev (tr : List Event) (hka : ka.length = i)
    (hA : A.length = i)
    (h : Occupied t P n ⟨p, ka ++ [k], A ++ [s, c]⟩)
    (hs : s.size + 1 = t) (hc : c.size + 1 = t) (ht : 2 ≤ t) :
    Prepared t P (Node.mk p (ka ++ [k]) (A ++ [s, c]) : Tree Int (n + 1))
      (i + 1) ⟨⟨p, ka, A ++ [s.joined k c]⟩, 0, [c.id], tr⟩ := by
  have hsb := (h.kid (by simp : s ∈ A ++ [s, c])).2.branching
  have hlen : ka.length = A.length := by omega
  have hpos : fillPos (i + 1) (ka ++ [k]).length ka.length = i := by
    rw [fillPos, if_pos (by simp [hka])]
    rfl
  have hocc := occupied_merge h (by omega)
  have hcont : inorder (n + 1) ⟨p, ka ++ [], A ++ [s.joined k c]⟩ =
      inorder (n + 1) ⟨p, ka ++ [k], A ++ [s, c]⟩ := inorder_merge hsb hlen
  have hids : (ids (n + 1) ⟨p, ka ++ [], A ++ [s.joined k c]⟩ ++ [c.id]).Perm
      (ids (n + 1) ⟨p, ka ++ [k], A ++ [s, c]⟩) := ids_merge
  rw [List.append_nil] at hocc hcont hids
  refine
    { id_eq := rfl
      created := rfl
      occupied := hocc
      contents := hcont
      size_le := by simp [Node.size]
      size_ge := by simp [Node.size]
      ids := hids
      target := ?_ }
  refine ⟨c, s.joined k c, inorder n s ++ [k], [], kids_cut_succ hA, ?_, ?_, ?_,
    ?_, ?_⟩
  · simp only [Node.size_mk, hpos]
    exact kids_cut hA
  · simp only [Node.size, Node.joined, List.length_append,
      List.length_cons] at hs hc ⊢
    omega
  · rw [inorder_joined n _ _ k hsb]
    simp
  · simp only [Node.size_mk, hpos]
    have hold : beforeKid n (i + 1)
        ⟨p, (ka ++ [k]) ++ [], (A ++ [s]) ++ [c]⟩ =
        interleave (ka ++ [k]) ((A ++ [s]).map (inorder n)) :=
      beforeKid_mk (by simp [hka]) (by simp [hA])
    have hnew : beforeKid n i ⟨p, ka ++ [], A ++ [s.joined k c]⟩ =
        interleave ka (A.map (inorder n)) := beforeKid_mk hka hA
    rw [List.append_nil, List.append_assoc] at hold
    rw [List.append_nil] at hnew
    apply hold.trans
    rw [hnew, List.map_append, interleave_append ka _ [k] _ (by simpa using hlen)]
    rfl
  · simp only [Node.size_mk, hpos]
    have hold : afterKid n (i + 1)
        ⟨p, (ka ++ [k]) ++ [], (A ++ [s]) ++ [c]⟩ = tailOf [] [] :=
      afterKid_mk (by simp [hka]) (by simp [hA])
    have hnew : afterKid n i ⟨p, ka ++ [], A ++ [s.joined k c]⟩ =
        tailOf [] [] := afterKid_mk hka hA
    rw [List.append_nil, List.append_assoc] at hold
    rw [List.append_nil] at hnew
    exact hold.trans hnew.symm

end Outcomes

theorem exists_getLast? {t : Nat} {κ : Type} {s : Node Int κ}
    (ht : 1 ≤ t) (hs : t ≤ s.size) : ∃ x, s.keys.getLast? = some x := by
  rw [← Option.isSome_iff_exists, List.getLast?_isSome]
  intro hnil
  simp only [Node.size, hnil, List.length_nil] at hs
  omega

theorem exists_head? {t : Nat} {κ : Type} {s : Node Int κ}
    (ht : 1 ≤ t) (hs : t ≤ s.size) : ∃ x, s.keys.head? = some x := by
  cases hkeys : s.keys with
  | nil =>
      simp only [Node.size, hkeys, List.length_nil] at hs
      omega
  | cons x xs => exact ⟨x, rfl⟩

/-- `fill(idx)` on a node of which kid `idx` holds `t - 1` keys. -/
theorem fill_prepared {t n : Nat} {P : (n : Nat) → Tree Int n → Prop}
    {T : Tree Int (n + 1)} {idx : Nat} (ht : 2 ≤ t) (h : Occupied t P n T)
    (hsize : 1 ≤ T.size) (hidx : idx ≤ T.size) (hlow : kidSize T idx < t) :
    Prepared t P T idx (fill t T idx) := by
  obtain ⟨p, K, C⟩ := T
  have hlen : C.length = K.length + 1 := h.2.1
  simp only [Node.size_mk] at hsize hidx
  by_cases hprev : idx ≠ 0 ∧
      t ≤ kidSize (Node.mk p K C : Tree Int (n + 1)) (idx - 1)
  · -- a key comes from the previous kid
    rw [fill, if_pos hprev]
    obtain ⟨h0, hps⟩ := hprev
    obtain ⟨i, rfl⟩ : ∃ i, idx = i + 1 := ⟨idx - 1, by omega⟩
    obtain ⟨ka, k, kb, A, s, c, B, rfl, rfl, hka, hA, hB⟩ :=
      exists_cut_pair hlen (by omega : i < K.length)
    rw [Nat.add_sub_cancel, kidSize_mk hA] at hps
    rw [kidSize_mk_succ hA] at hlow
    have hc := (h.kid (by simp : c ∈ A ++ s :: c :: B)).1
    obtain ⟨x, hx⟩ := exists_getLast? (by omega) hps
    rw [Nat.add_sub_cancel, rotateRight_mk hka hA hx]
    exact prepared_rotateRight _ (by omega) hx hka hA hB h hps (by omega)
  rw [fill, if_neg hprev]
  by_cases hnext : idx ≠ (Node.mk p K C : Tree Int (n + 1)).size ∧
      t ≤ kidSize (Node.mk p K C : Tree Int (n + 1)) (idx + 1)
  · -- a key comes from the next kid
    rw [if_pos hnext]
    obtain ⟨hne, hns⟩ := hnext
    simp only [Node.size_mk] at hne
    obtain ⟨ka, k, kb, A, c, s, B, rfl, rfl, hka, hA, hB⟩ :=
      exists_cut_pair hlen (by omega : idx < K.length)
    rw [kidSize_mk_succ hA] at hns
    rw [kidSize_mk hA] at hlow
    have hc := (h.kid (by simp : c ∈ A ++ c :: s :: B)).1
    obtain ⟨x, hx⟩ := exists_head? (by omega) hns
    rw [rotateLeft_mk hka hA hx]
    exact prepared_rotateLeft _ hx hka hA hB h hns (by omega)
  rw [if_neg hnext]
  by_cases hlast : idx ≠ (Node.mk p K C : Tree Int (n + 1)).size
  · -- no key to spare on either side: merge with the next kid
    rw [if_pos hlast]
    simp only [Node.size_mk] at hlast
    obtain ⟨ka, k, kb, A, c, s, B, rfl, rfl, hka, hA, hB⟩ :=
      exists_cut_pair hlen (by omega : idx < K.length)
    rw [kidSize_mk_succ hA, Node.size_mk, not_and, Nat.not_le] at hnext
    rw [kidSize_mk hA] at hlow
    have hc := (h.kid (by simp : c ∈ A ++ c :: s :: B)).1
    have hs := (h.kid (by simp : s ∈ A ++ c :: s :: B)).1
    have hslow := hnext hlast
    rw [merge_mk hka hA, kidId_mk_succ hA]
    exact prepared_merge_next _ hka hA hB h (by omega) (by omega) ht
  · -- the last kid merges with the one before it
    rw [if_neg hlast]
    simp only [Node.size_mk, ne_eq, not_not] at hlast
    obtain ⟨i, rfl⟩ : ∃ i, idx = i + 1 := ⟨idx - 1, by omega⟩
    obtain ⟨ka, k, kb, A, s, c, B, rfl, rfl, hka, hA, hB⟩ :=
      exists_cut_pair hlen (by omega : i < K.length)
    have hkb : kb = [] := List.length_eq_zero_iff.mp (by
      simp only [List.length_append, List.length_cons] at hlast
      omega)
    have hBnil : B = [] := List.length_eq_zero_iff.mp (by
      rw [← hB, hkb]
      rfl)
    subst hkb hBnil
    rw [Nat.add_sub_cancel, kidSize_mk hA, not_and, Nat.not_le] at hprev
    rw [kidSize_mk_succ hA] at hlow
    have hc := (h.kid (by simp : c ∈ A ++ [s, c])).1
    have hs := (h.kid (by simp : s ∈ A ++ [s, c])).1
    have hslow := hprev (Nat.succ_ne_zero i)
    rw [Nat.add_sub_cancel, merge_mk hka hA, kidId_mk_succ hA, List.append_nil]
    exact prepared_merge_prev _ hka hA h (by omega) (by omega) ht

theorem fill_filled {t n : Nat} {T : Tree Int (n + 1)} {idx : Nat} (ht : 2 ≤ t)
    (h : WF t (n + 1) T) (hsize : 1 ≤ T.size) (hidx : idx ≤ T.size)
    (hlow : kidSize T idx < t) : Filled t T idx (fill t T idx) :=
  (fill_prepared ht (wf_iff_occupied.mp h) hsize hidx hlow).filled

/-- With or without `fill`, the kid to descend into is in place and has
room. -/
theorem filled_if_low {t n : Nat} {T : Tree Int (n + 1)} {idx : Nat}
    (ht : 2 ≤ t) (h : WF t (n + 1) T) (hsize : 1 ≤ T.size)
    (hidx : idx ≤ T.size) :
    Filled t T idx (if kidSize T idx < t then fill t T idx else .same T) := by
  by_cases hlow : kidSize T idx < t
  · rw [if_pos hlow]
    exact fill_filled ht h hsize hidx hlow
  · rw [if_neg hlow]
    have hpos : fillPos idx T.size T.size = idx := fillPos_of_le hidx
    have hlt : idx < T.kids.length := by
      rw [show T.kids.length = T.size + 1 from h.2.1]
      omega
    have hc := List.getElem?_eq_getElem hlt
    have hk : kidSize T idx = T.kids[idx].size := by
      rw [kidSize, hc]
      rfl
    exact
      { id_eq := rfl
        created := rfl
        wf := h
        contents := rfl
        size_le := Nat.le_refl _
        size_ge := Nat.le_succ _
        ids := by simp [Outcome.same]
        target := by
          refine ⟨T.kids[idx], T.kids[idx], [], [], hc, ?_, by omega, by simp,
            ?_, ?_⟩
          · simpa only [Outcome.same, hpos] using hc
          · simp [Outcome.same, hpos]
          · simp [Outcome.same, hpos] }

end ParallelBTree.Ports.Descent
