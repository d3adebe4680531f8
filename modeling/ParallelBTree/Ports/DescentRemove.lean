import ParallelBTree.Ports.DescentInsert

/-!
# `remove` on trees

As for insertion, one step of the descent is described once, by `RemoveStep`:
the node after the restructuring that the step makes, cut at the kid the descent
goes on with, and the key that is removed from that kid (the key itself, or the
predecessor or successor that has taken its place).  There is one lemma for each
way a step can go; occupancy, identities and contents of the whole call follow
by induction on the height.
-/

namespace ParallelBTree.Ports.Descent

open ParallelBTree.Verified.Multiway
open ParallelBTree.Ports.NodeMemory

/-- `remove(key)` on the inner node `T` deletes the nodes `fr` and goes on with
removing `key'` from the kid `c` of the node `⟨T.id, ka ++ kb, A ++ c :: B⟩`. -/
structure RemoveStep (t : Nat) (key : Int) {n : Nat} (T : Tree Int (n + 1))
    (o : Outcome (n + 1)) (ka kb : List Int) (A : List (Tree Int n))
    (c : Tree Int n) (B : List (Tree Int n)) (key' : Int) (fr : List Addr) :
    Prop where
  left : ka.length = A.length
  right : kb.length = B.length
  wf : WF t (n + 1) ⟨T.id, ka ++ kb, A ++ c :: B⟩
  room : t ≤ c.size
  size_le : (ka ++ kb).length ≤ T.size
  size_ge : T.size ≤ (ka ++ kb).length + 1
  ids : (ids (n + 1) ⟨T.id, ka ++ kb, A ++ c :: B⟩ ++ fr).Perm
    (ids (n + 1) T)
  sorted : Sorted (inorder (n + 1) T) → Sorted (inorder n c)
  contents : Sorted (inorder (n + 1) T) →
    interleave ka (A.map (inorder n)) ++ ((inorder n c).erase key' ++
      tailOf kb (B.map (inorder n))) = (inorder (n + 1) T).erase key
  tree : o.tree = ⟨T.id, ka ++ kb, A ++ (remove t n key' c).tree :: B⟩
  created : o.created = (remove t n key' c).created
  freed : o.freed = fr ++ (remove t n key' c).freed

theorem removeIn_mk {n i p : Nat} (rec : Tree Int n → Outcome n)
    {K : List Int} {A B : List (Tree Int n)} {c : Tree Int n}
    (hA : A.length = i) :
    removeIn rec ⟨p, K, A ++ c :: B⟩ i =
      ⟨⟨p, K, A ++ (rec c).tree :: B⟩, (rec c).created, (rec c).freed,
        calledIn .remove (Node.mk p K (A ++ c :: B) : Tree Int (n + 1)) i c ::
          (rec c).trace ++
          [calledIn .removed (Node.mk p K (A ++ (rec c).tree :: B) :
            Tree Int (n + 1)) i (rec c).tree]⟩ := by
  subst hA
  simp [removeIn, setKid]

theorem inorder_ne_nil {n : Nat} {T : Tree Int n} (h : 1 ≤ T.size) :
    inorder n T ≠ [] := by
  have hsub : T.keys.Sublist (inorder n T) := by
    cases n with
    | zero => exact List.Sublist.refl _
    | succ n => exact keys_sublist _ _
  intro hnil
  rw [hnil] at hsub
  simp [Node.size, List.sublist_nil.mp hsub] at h

section Steps

variable {t n p : Nat} {key : Int} {ka kb : List Int}
  {A B : List (Tree Int n)} {c s : Tree Int n}

/-- The predecessor takes the key's place and is removed from the kid before
the key. -/
theorem removeStep_pred (h : WF t (n + 1) ⟨p, ka ++ key :: kb, A ++ c :: s :: B⟩)
    (hA : A.length = ka.length) (hB : kb.length = B.length)
    (ht : 2 ≤ t) (hc : t ≤ c.size) :
    ∃ pred, RemoveStep t key
      (Node.mk p (ka ++ key :: kb) (A ++ c :: s :: B) : Tree Int (n + 1))
      (removeFromNonLeaf t (remove t n)
        ⟨p, ka ++ key :: kb, A ++ c :: s :: B⟩ ka.length key)
      ka (pred :: kb) A c (s :: B) pred [] := by
  obtain ⟨M, pred, hM⟩ : ∃ M pred, inorder n c = M ++ [pred] := by
    have hne := inorder_ne_nil (show 1 ≤ c.size by omega)
    exact ⟨_, _, (List.dropLast_append_getLast hne).symm⟩
  have hrun : removeFromNonLeaf t (remove t n)
      (Node.mk p (ka ++ key :: kb) (A ++ c :: s :: B) : Tree Int (n + 1))
      ka.length key =
      removeIn (remove t n pred)
        (Node.mk p (ka ++ pred :: kb) (A ++ c :: s :: B) : Tree Int (n + 1))
        ka.length := by
    have hlast : (inorder n c).getLast? = some pred := by simp [hM]
    simp only [removeFromNonLeaf, kids_cut hA, kids_cut_succ hA, if_pos hc,
      hlast, setKeyOf]
    rw [List.set_append_right _ _ (Nat.le_refl _), Nat.sub_self,
      List.set_cons_zero]
  rw [removeIn_mk _ hA] at hrun
  have hcut := inorder_focus p ka (key :: kb) A (s :: B) c hA.symm
  refine ⟨pred, ?_⟩
  exact
    { left := hA.symm
      right := by simp [hB]
      wf := WF.middle (M := []) (N := []) h
        (by simpa using h.size_le) (by simp) (by simp)
      room := hc
      size_le := by simp [Node.size]
      size_ge := by simp [Node.size]
      ids := by simp [ids]
      sorted := fun hs => by
        rw [hcut] at hs
        exact (List.pairwise_append.mp (List.pairwise_append.mp hs).2.1).1
      contents := fun hs => by
        rw [hcut] at hs
        have hcs := (List.pairwise_append.mp
          (List.pairwise_append.mp hs).2.1).1
        rw [hcut]
        rw [hM] at hs hcs ⊢
        rw [erase_sorted hcs]
        have hform : interleave ka (A.map (inorder n)) ++ ((M ++ [pred]) ++
            tailOf (key :: kb) ((s :: B).map (inorder n))) =
            (interleave ka (A.map (inorder n)) ++ (M ++ [pred])) ++ key ::
              interleave kb ((s :: B).map (inorder n)) := by
          simp [tailOf]
        rw [hform] at hs ⊢
        rw [erase_sorted hs]
        simp [tailOf]
      tree := by rw [hrun]
      created := by rw [hrun]
      freed := by rw [hrun]; rfl }

/-- The successor takes the key's place and is removed from the kid behind the
key. -/
theorem removeStep_succ (h : WF t (n + 1) ⟨p, ka ++ key :: kb, A ++ c :: s :: B⟩)
    (hA : A.length = ka.length) (hB : kb.length = B.length)
    (hc : ¬ t ≤ c.size) (hsize : t ≤ s.size) :
    ∃ succ, RemoveStep t key
      (Node.mk p (ka ++ key :: kb) (A ++ c :: s :: B) : Tree Int (n + 1))
      (removeFromNonLeaf t (remove t n)
        ⟨p, ka ++ key :: kb, A ++ c :: s :: B⟩ ka.length key)
      (ka ++ [succ]) kb (A ++ [c]) s B succ [] := by
  obtain ⟨succ, M, hM⟩ : ∃ succ M, inorder n s = succ :: M :=
    List.exists_cons_of_ne_nil (inorder_ne_nil (show 1 ≤ s.size by omega))
  have hrun : removeFromNonLeaf t (remove t n)
      (Node.mk p (ka ++ key :: kb) (A ++ c :: s :: B) : Tree Int (n + 1))
      ka.length key =
      removeIn (remove t n succ)
        (Node.mk p (ka ++ succ :: kb) (A ++ c :: s :: B) : Tree Int (n + 1))
        (ka.length + 1) := by
    have hhead : (inorder n s).head? = some succ := by simp [hM]
    simp only [removeFromNonLeaf, kids_cut hA, kids_cut_succ hA, if_neg hc,
      if_pos hsize, hhead, setKeyOf]
    rw [List.set_append_right _ _ (Nat.le_refl _), Nat.sub_self,
      List.set_cons_zero]
  have hlist : A ++ c :: s :: B = (A ++ [c]) ++ s :: B := by simp
  have hkeys : ∀ k : Int, ka ++ k :: kb = (ka ++ [k]) ++ kb := by simp
  conv_rhs at hrun => rw [hlist, hkeys succ, removeIn_mk _ (by simp [hA])]
  have hleft : interleave (ka ++ [succ]) ((A ++ [c]).map (inorder n)) =
      interleave ka (A.map (inorder n)) ++ (inorder n c ++ [succ]) := by
    rw [List.map_append, interleave_append ka _ _ _ (by simp [hA])]
    rfl
  have hcut : inorder (n + 1)
      (Node.mk p (ka ++ key :: kb) (A ++ c :: s :: B) : Tree Int (n + 1)) =
      (interleave ka (A.map (inorder n)) ++ inorder n c) ++ key ::
        (inorder n s ++ tailOf kb (B.map (inorder n))) := by
    rw [inorder_pair hA.symm]
    simp
  refine ⟨succ, ?_⟩
  exact
    { left := by simp [hA]
      right := hB
      wf := by
        rw [← hlist, ← hkeys succ]
        exact WF.middle (M := []) (N := []) h
          (by simpa using h.size_le) (by simp) (by simp)
      room := hsize
      size_le := by simp [Node.size]
      size_ge := by simp [Node.size]
      ids := by simp [ids]
      sorted := fun hs => by
        rw [hcut] at hs
        have htail := (List.pairwise_append.mp hs).2.1
        exact (List.pairwise_append.mp (List.pairwise_cons.mp htail).2).1
      contents := fun hs => by
        rw [hcut] at hs ⊢
        rw [erase_sorted hs, hleft, hM, List.erase_cons_head]
        simp
      tree := by rw [hrun]
      created := by rw [hrun]
      freed := by rw [hrun]; rfl }

/-- Neither neighbour has a key to spare: they are merged around the key, which
is then removed from the merged kid. -/
theorem removeStep_merge
    (h : WF t (n + 1) ⟨p, ka ++ key :: kb, A ++ c :: s :: B⟩)
    (hA : A.length = ka.length) (hB : kb.length = B.length) (ht : 2 ≤ t)
    (hc : ¬ t ≤ c.size) (hsize : ¬ t ≤ s.size) :
    RemoveStep t key
      (Node.mk p (ka ++ key :: kb) (A ++ c :: s :: B) : Tree Int (n + 1))
      (removeFromNonLeaf t (remove t n)
        ⟨p, ka ++ key :: kb, A ++ c :: s :: B⟩ ka.length key)
      ka kb A (c.joined key s) B key [s.id] := by
  obtain ⟨hcs, hcwf⟩ := h.kid (by simp : c ∈ A ++ c :: s :: B)
  obtain ⟨hss, -⟩ := h.kid (by simp : s ∈ A ++ c :: s :: B)
  have hcb := hcwf.branching
  have hrun : removeFromNonLeaf t (remove t n)
      (Node.mk p (ka ++ key :: kb) (A ++ c :: s :: B) : Tree Int (n + 1))
      ka.length key =
      (mergeAt (Node.mk p (ka ++ key :: kb) (A ++ c :: s :: B) :
        Tree Int (n + 1)) ka.length).andThen fun T' =>
          removeIn (remove t n key) T' ka.length := by
    simp only [removeFromNonLeaf, kids_cut hA, kids_cut_succ hA, if_neg hc,
      if_neg hsize]
  simp only [mergeAt, merge_mk rfl hA, Outcome.andThen, removeIn_mk _ hA,
    kidId_mk_succ hA] at hrun
  have hcut : inorder (n + 1)
      (Node.mk p (ka ++ key :: kb) (A ++ c :: s :: B) : Tree Int (n + 1)) =
      (interleave ka (A.map (inorder n)) ++ inorder n c) ++ key ::
        (inorder n s ++ tailOf kb (B.map (inorder n))) := by
    rw [inorder_pair hA.symm]
    simp
  have hjoin := inorder_joined n c s key hcb
  have hsort : Sorted (inorder (n + 1)
      (Node.mk p (ka ++ key :: kb) (A ++ c :: s :: B) : Tree Int (n + 1))) →
      Sorted (inorder n (c.joined key s)) := by
    intro hs
    rw [hjoin]
    rw [inorder_pair hA.symm] at hs
    exact (List.pairwise_append.mp (List.pairwise_append.mp hs).2.1).1
  exact
    { left := hA.symm
      right := hB
      wf := wf_merge h (by omega)
      room := by
        simp only [Node.size, Node.joined, List.length_append,
          List.length_cons] at hcs hss ⊢
        omega
      size_le := by simp [Node.size]
      size_ge := by
        simp only [Node.size, List.length_append, List.length_cons]
        omega
      ids := ids_merge
      sorted := hsort
      contents := fun hs => by
        have hjs := hsort hs
        rw [hcut] at hs ⊢
        rw [hjoin] at hjs ⊢
        rw [erase_sorted hs, erase_sorted hjs]
        simp
      tree := by rw [hrun]
      created := by rw [hrun, Nat.zero_add]
      freed := by rw [hrun] }

/-- The key is not in the node: the search goes on in one kid, after `fill` has
given it enough keys. -/
theorem removeStep_descend {T : Tree Int (n + 1)} (ht : 2 ≤ t)
    (h : WF t (n + 1) T) (hsize : 1 ≤ T.size) (hK : T.keys = ka ++ kb)
    (hlt : ∀ a ∈ ka, a < key) (hgt : ∀ b ∈ kb.head?, key < b) :
    ∃ ka' kb' A c B fr, RemoveStep t key T
      ((if kidSize T ka.length < t then fill t T ka.length
        else .same T).andThen fun T' =>
          removeIn (remove t n key) T' (fillPos ka.length T.size T'.size))
      ka' kb' A c B key fr := by
  have hidx : ka.length ≤ T.size := by simp [Node.size, hK]
  have hlen : T.kids.length = (ka ++ kb).length + 1 := by
    rw [← hK]
    exact h.2.1
  obtain ⟨A₀, c₀, B₀, hkids, hA₀, hB₀⟩ := exists_kids_cut hlen
  have hT : T = ⟨T.id, ka ++ kb, A₀ ++ c₀ :: B₀⟩ := by
    rw [← hK, ← hkids]
  have hc₀ : T.kids[ka.length]? = some c₀ := by
    rw [hkids]
    exact kids_cut hA₀
  have hcut₀ : inorder (n + 1) T = beforeKid n ka.length T ++
      (inorder n c₀ ++ afterKid n ka.length T) := by
    rw [hT, inorder_focus T.id ka kb A₀ B₀ c₀ hA₀.symm, beforeKid_mk rfl hA₀,
      afterKid_mk rfl hA₀]
  have hbefore : Sorted (inorder (n + 1) T) →
      ∀ x ∈ beforeKid n ka.length T, x < key := by
    intro hs
    rw [hcut₀] at hs
    have hs' := (List.pairwise_append.mp hs).1
    rw [hT, beforeKid_mk rfl hA₀] at hs' ⊢
    exact interleave_forall (fun x a hxa hak => lt_of_le_of_lt hxa hak) ka _
      (by simp [hA₀]) hs' hlt
  have hafter : Sorted (inorder (n + 1) T) →
      ∀ x ∈ afterKid n ka.length T, key < x := by
    intro hs
    rw [hcut₀] at hs
    have hs' := (List.pairwise_append.mp (List.pairwise_append.mp hs).2.1).2.1
    rw [hT, afterKid_mk rfl hA₀] at hs' ⊢
    exact tailOf_forall (fun a x hax hka => lt_of_lt_of_le hka hax)
      (by simp [hB₀]) hs' hgt
  have hfilled := filled_if_low ht h hsize hidx
  generalize (if kidSize T ka.length < t then fill t T ka.length
    else Outcome.same T) = o at hfilled ⊢
  obtain ⟨c₁, c, u, v, hc₁, hc, hroom, hcont, hb, ha⟩ := hfilled.target
  obtain rfl : c₀ = c₁ := Option.some.inj (hc₀.symm.trans hc₁)
  generalize hj : fillPos ka.length T.size o.tree.size = j at hc hb ha ⊢
  have hlen' : o.tree.kids.length = o.tree.size + 1 := hfilled.wf.2.1
  have hjlt : j < o.tree.kids.length := (List.getElem?_eq_some_iff.mp hc).1
  obtain ⟨ka', kb', A, c', B, hK', hkids', hka', hA, hB⟩ :=
    exists_cut (K := o.tree.keys) hlen' (show j ≤ o.tree.keys.length by
      simp only [Node.size] at hlen'
      omega)
  obtain rfl : c' = c := by
    rw [hkids', kids_cut hA] at hc
    exact Option.some.inj hc
  have hU : o.tree = ⟨T.id, ka' ++ kb', A ++ c' :: B⟩ := by
    rw [← hK', ← hkids', ← hfilled.id_eq]
  have hrun : o.andThen (fun T' =>
      removeIn (remove t n key) T' (fillPos ka.length T.size T'.size)) =
      ⟨⟨T.id, ka' ++ kb', A ++ (remove t n key c').tree :: B⟩,
        (remove t n key c').created, o.freed ++ (remove t n key c').freed,
        o.trace ++ (removeIn (remove t n key) o.tree j).trace⟩ := by
    simp only [Outcome.andThen, hj, hfilled.created, Nat.zero_add]
    rw [hU, removeIn_mk _ hA]
  have hbefore' : beforeKid n j o.tree = interleave ka' (A.map (inorder n)) := by
    rw [hU]
    exact beforeKid_mk hka' hA
  have hafter' : afterKid n j o.tree = tailOf kb' (B.map (inorder n)) := by
    rw [hU]
    exact afterKid_mk hka' hA
  rw [hbefore'] at hb
  rw [hafter'] at ha
  have hcut : inorder (n + 1) T = interleave ka' (A.map (inorder n)) ++
      (inorder n c' ++ tailOf kb' (B.map (inorder n))) := by
    rw [← hfilled.contents, hU]
    exact inorder_focus T.id ka' kb' A B c' (by omega)
  have hsz : o.tree.size = (ka' ++ kb').length := by
    rw [← hK']
    rfl
  refine ⟨ka', kb', A, c', B, o.freed, ?_⟩
  exact
    { left := by omega
      right := hB
      wf := hU ▸ hfilled.wf
      room := hroom
      size_le := hsz ▸ hfilled.size_le
      size_ge := hsz ▸ hfilled.size_ge
      ids := hU ▸ hfilled.ids
      sorted := fun hs => by
        rw [hcut] at hs
        exact (List.pairwise_append.mp (List.pairwise_append.mp hs).2.1).1
      contents := fun hs => by
        rw [hcut]
        refine (erase_middle ?_ ?_).symm
        · intro x hx
          exact hbefore hs x (by rw [hb]; exact List.mem_append_left u hx)
        · intro x hx
          exact hafter hs x (by rw [ha]; exact List.mem_append_right v hx)
      tree := by rw [hrun]
      created := by rw [hrun]
      freed := by rw [hrun] }

/-- Every step of `remove` is one of the four. -/
theorem remove_step {t n : Nat} (key : Int) {T : Tree Int (n + 1)}
    (ht : 2 ≤ t) (h : WF t (n + 1) T) (hsize : 1 ≤ T.size) :
    ∃ ka kb A c B key' fr,
      RemoveStep t key T (remove t (n + 1) key T) ka kb A c B key' fr := by
  obtain ⟨ka, kb, hK, hka, hlt, hge⟩ := takeWhile_cut T.keys key
  have hpos : lowerPos T.keys key = ka.length := hka.symm
  have hhead : T.keys[ka.length]? = kb.head? := by
    rw [hK, List.getElem?_append_right (Nat.le_refl _), Nat.sub_self,
      List.head?_eq_getElem?]
  by_cases hfound : kb.head? = some key
  · have hrun : remove t (n + 1) key T =
        removeFromNonLeaf t (remove t n) T ka.length key := by
      simp only [remove, hpos, hhead, if_pos hfound]
    obtain ⟨kb, rfl⟩ : ∃ kb', kb = key :: kb' := by
      cases kb with
      | nil => simp at hfound
      | cons k kb =>
          obtain rfl : k = key := by simpa using hfound
          exact ⟨kb, rfl⟩
    obtain ⟨p, K, C⟩ := T
    obtain rfl : K = ka ++ key :: kb := hK
    obtain ⟨ka', k', kb', A, c, s, B, hK', rfl, hka', hA, hB⟩ :=
      exists_cut_pair h.2.1 (show ka.length < (ka ++ key :: kb).length by simp)
    obtain ⟨rfl, hkk⟩ := List.append_inj hK' hka'.symm
    obtain ⟨rfl, rfl⟩ := List.cons.inj hkk
    rw [hrun]
    by_cases hc : t ≤ c.size
    · obtain ⟨pred, hstep⟩ := removeStep_pred h hA hB ht hc
      exact ⟨_, _, _, _, _, _, _, hstep⟩
    · by_cases hs : t ≤ s.size
      · obtain ⟨succ, hstep⟩ := removeStep_succ h hA hB hc hs
        exact ⟨_, _, _, _, _, _, _, hstep⟩
      · exact ⟨_, _, _, _, _, _, _, removeStep_merge h hA hB ht hc hs⟩
  · have hrun : remove t (n + 1) key T =
        (if kidSize T ka.length < t then fill t T ka.length
          else .same T).andThen fun T' =>
            removeIn (remove t n key) T' (fillPos ka.length T.size T'.size) := by
      simp only [remove, hpos, hhead, if_neg hfound]
    have hgt : ∀ b ∈ kb.head?, key < b := by
      intro b hb
      have hne : b ≠ key := fun hbk => hfound (hbk ▸ hb)
      exact lt_of_le_of_ne (hge b hb) hne.symm
    rw [hrun]
    obtain ⟨ka', kb', A, c, B, fr, hstep⟩ :=
      removeStep_descend ht h hsize hK hlt hgt
    exact ⟨ka', kb', A, c, B, key, fr, hstep⟩

/-! ## The whole call -/

/-- What happens at a leaf. -/
theorem remove_leaf (t : Nat) (key : Int) (T : Tree Int 0) :
    (∃ ka kb, T.keys = ka ++ key :: kb ∧
      remove t 0 key T = .same ⟨T.id, ka ++ kb, T.kids⟩) ∨
    ((Sorted T.keys → key ∉ T.keys) ∧
      remove t 0 key T = ⟨T, 0, [], [.print (BTreeNode.notFound key)]⟩) := by
  obtain ⟨ka, kb, hK, hka, hlt, hge⟩ := takeWhile_cut T.keys key
  have hpos : lowerPos T.keys key = ka.length := hka.symm
  have hhead : T.keys[ka.length]? = kb.head? := by
    rw [hK, List.getElem?_append_right (Nat.le_refl _), Nat.sub_self,
      List.head?_eq_getElem?]
  by_cases hfound : kb.head? = some key
  · left
    obtain ⟨kb, rfl⟩ : ∃ kb', kb = key :: kb' := by
      cases kb with
      | nil => simp at hfound
      | cons k kb =>
          obtain rfl : k = key := by simpa using hfound
          exact ⟨kb, rfl⟩
    refine ⟨ka, kb, hK, ?_⟩
    simp only [remove, hpos, hhead, if_pos hfound]
    rw [hK, List.take_left, ← List.drop_drop, List.drop_left,
      List.drop_succ_cons, List.drop_zero]
  · right
    constructor
    · intro hs hmem
      rw [hK] at hs hmem
      exact hfound ((mem_cut_iff hs hlt hge).mp hmem)
    · simp only [remove, hpos, hhead, if_neg hfound]

/-- Occupancy, and at most one key less in the root. -/
theorem remove_wf {t : Nat} (ht : 2 ≤ t) :
    ∀ (n : Nat) (key : Int) (T : Tree Int n), WF t n T →
      (n ≠ 0 → 1 ≤ T.size) →
      WF t n (remove t n key T).tree ∧
        (remove t n key T).tree.size ≤ T.size ∧
        T.size ≤ (remove t n key T).tree.size + 1 := by
  intro n
  induction n with
  | zero =>
      intro key T h _
      rcases remove_leaf t key T with ⟨ka, kb, hK, hrun⟩ | ⟨-, hrun⟩
      · have hsize : (remove t 0 key T).tree.size + 1 = T.size := by
          rw [hrun]
          simp only [Outcome.same, Node.size, hK, List.length_append,
            List.length_cons]
          omega
        have hle : T.size ≤ 2 * t - 1 := h
        refine ⟨?_, by omega, by omega⟩
        show Node.size _ ≤ _
        omega
      · rw [hrun]
        exact ⟨h, Nat.le_refl _, Nat.le_succ _⟩
  | succ n ih =>
      intro key T h hsize
      obtain ⟨ka, kb, A, c, B, key', fr, hstep⟩ :=
        remove_step key ht h (hsize (Nat.succ_ne_zero n))
      have hc := hstep.wf.kid (by simp : c ∈ A ++ c :: B)
      have hroom := hstep.room
      obtain ⟨hwf, -, hge⟩ := ih key' c hc.2 fun _ => by omega
      rw [hstep.tree]
      refine ⟨?_, hstep.size_le, hstep.size_ge⟩
      refine WF.middle (M := [c]) (N := [(remove t n key' c).tree]) hstep.wf
        hstep.wf.1 rfl ?_
      intro x hx
      rw [List.mem_singleton.mp hx]
      exact ⟨by omega, hwf⟩

/-- The nodes that leave the tree are the ones that are deleted. -/
theorem remove_ids {t : Nat} (ht : 2 ≤ t) :
    ∀ (n : Nat) (key : Int) (T : Tree Int n), WF t n T →
      (n ≠ 0 → 1 ≤ T.size) →
      (ids n (remove t n key T).tree ++ (remove t n key T).freed).Perm
        (ids n T) ∧ (remove t n key T).created = 0 := by
  intro n
  induction n with
  | zero =>
      intro key T _ _
      rcases remove_leaf t key T with ⟨ka, kb, -, hrun⟩ | ⟨-, hrun⟩
      · rw [hrun]
        exact ⟨List.Perm.refl _, rfl⟩
      · rw [hrun]
        exact ⟨by simp, rfl⟩
  | succ n ih =>
      intro key T h hsize
      obtain ⟨ka, kb, A, c, B, key', fr, hstep⟩ :=
        remove_step key ht h (hsize (Nat.succ_ne_zero n))
      have hc := hstep.wf.kid (by simp : c ∈ A ++ c :: B)
      have hroom := hstep.room
      obtain ⟨hids, hcreated⟩ := ih key' c hc.2 fun _ => by omega
      rw [hstep.tree, hstep.created, hstep.freed]
      refine ⟨?_, hcreated⟩
      have hkid : ((remove t n key' c).freed ++ ids (n + 1) ⟨T.id, ka ++ kb,
            A ++ ([(remove t n key' c).tree] ++ B)⟩).Perm
          ([] ++ ids (n + 1) ⟨T.id, ka ++ kb, A ++ ([c] ++ B)⟩) :=
        ids_middle (by simpa using List.perm_append_comm.trans hids)
      refine List.Perm.trans ?_ ((hkid.append_right fr).trans hstep.ids)
      apply List.perm_append_comm.trans
      rw [List.append_assoc]
      exact List.perm_append_comm

/-- The contents lose one occurrence of the key, if there is one. -/
theorem remove_contents {t : Nat} (ht : 2 ≤ t) :
    ∀ (n : Nat) (key : Int) (T : Tree Int n), WF t n T →
      (n ≠ 0 → 1 ≤ T.size) → Sorted (inorder n T) →
      inorder n (remove t n key T).tree = (inorder n T).erase key := by
  intro n
  induction n with
  | zero =>
      intro key T _ _ hs
      rcases remove_leaf t key T with ⟨ka, kb, hK, hrun⟩ | ⟨hnot, hrun⟩
      · rw [hrun]
        show ka ++ kb = T.keys.erase key
        have hsK : Sorted T.keys := hs
        rw [hK] at hsK ⊢
        exact (erase_sorted hsK).symm
      · rw [hrun]
        exact (List.erase_of_not_mem (hnot hs)).symm
  | succ n ih =>
      intro key T h hsize hs
      obtain ⟨ka, kb, A, c, B, key', fr, hstep⟩ :=
        remove_step key ht h (hsize (Nat.succ_ne_zero n))
      have hc := hstep.wf.kid (by simp : c ∈ A ++ c :: B)
      have hroom := hstep.room
      have hrec := ih key' c hc.2 (fun _ => by omega) (hstep.sorted hs)
      rw [hstep.tree, inorder_focus T.id ka kb A B _ hstep.left, hrec]
      exact hstep.contents hs

theorem remove_id {t : Nat} (ht : 2 ≤ t) {n : Nat} (key : Int) {T : Tree Int n}
    (h : WF t n T) (hsize : n ≠ 0 → 1 ≤ T.size) :
    (remove t n key T).tree.id = T.id := by
  cases n with
  | zero =>
      rcases remove_leaf t key T with ⟨ka, kb, -, hrun⟩ | ⟨-, hrun⟩
      · rw [hrun]
        rfl
      · rw [hrun]
  | succ n =>
      obtain ⟨ka, kb, A, c, B, key', fr, hstep⟩ :=
        remove_step key ht h (hsize (Nat.succ_ne_zero n))
      rw [hstep.tree]

end Steps

end ParallelBTree.Ports.Descent
