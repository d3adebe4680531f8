import ParallelBTree.Ports.DescentRemove
import ParallelBTree.Ports.RefineInsert

/-!
# `remove` in memory

`remove` run on a memory that holds a tree leaves a memory that holds the tree
of `Descent.remove`, and has the effect stated there.  As for insertion the
proof is an induction on the height, with one lemma for each thing a call can
do: at a leaf, at a node that has the key, at a node that has not.
-/

namespace ParallelBTree.Ports.Represent

open ParallelBTree.Verified.Program
open ParallelBTree.Verified.Multiway
open ParallelBTree.Ports.NodeMemory
open ParallelBTree.Ports.Descent

section Search

variable {m : Mem} {t : Nat} {leaf : Bool} {p : Addr} {K : List Int}
  {P : List Addr} {nd : BTreeNode}

theorem findKey_run (hget : m.get p = some nd) (hnd : Holds t leaf K P nd)
    (key : Int) : BTreeNode.findKey p key m = .ok (lowerPos K key, m) := by
  unfold BTreeNode.findKey
  rw [bind_run_ok (node_run hget), hnd.keysnum_eq]
  apply scanUp_run
  intro j hj
  show (keyAt p j >>= fun x => pure (decide (x < key))) m = _
  rw [bind_run_ok (keyAt_run hget (hnd.key_at (List.getElem?_eq_getElem hj)))]
  rfl

/-- `idx < keysnum && keys[idx] == key` -/
theorem found_run (hget : m.get p = some nd) (hnd : Holds t leaf K P nd)
    (key : Int) (idx : Nat) :
    (if idx < nd.keysnum then do pure (decide ((← keyAt p idx) = key))
      else pure false : M Bool) m =
      .ok (decide (K[idx]? = some key), m) := by
  rw [hnd.keysnum_eq]
  by_cases hlt : idx < K.length
  · have hk := List.getElem?_eq_getElem hlt
    rw [if_pos hlt, bind_run_ok (keyAt_run hget (hnd.key_at hk)), hk]
    simp
  · rw [if_neg hlt, List.getElem?_eq_none (Nat.le_of_not_lt hlt)]
    rfl

end Search

section Leaves

variable {t : Nat}

/-- The rightmost leaf holds the last key of the tree. -/
theorem rightmostLeaf_run (ht : 2 ≤ t) {m : Mem} :
    ∀ (n : Nat) (T : Tree Int n) (fuel : Nat), n < fuel → Rep m t n T →
      WF t n T → 1 ≤ T.size →
      ∃ q nq K, BTreeNode.rightmostLeaf fuel T.id m = .ok (q, m) ∧
        m.get q = some nq ∧ Holds t true K [] nq ∧ 1 ≤ K.length ∧
        (inorder n T).getLast? = K.getLast? := by
  intro n
  induction n with
  | zero =>
      intro T fuel hfuel h _ hsize
      obtain ⟨f, rfl⟩ := Nat.exists_eq_add_one_of_ne_zero hfuel.ne'
      obtain ⟨nd, hget, hnd⟩ := h
      refine ⟨T.id, nd, T.keys, ?_, hget, hnd, hsize, rfl⟩
      unfold BTreeNode.rightmostLeaf
      rw [bind_run_ok (node_run hget), if_pos hnd.leaf_eq]
      rfl
  | succ n ih =>
      intro T fuel hfuel h hwf hsize
      obtain ⟨f, rfl⟩ := Nat.exists_eq_add_one_of_ne_zero
        (Nat.zero_lt_of_lt hfuel).ne'
      obtain ⟨nd, hget, hnd⟩ := h.1
      have hlen : T.kids.length = T.keys.length + 1 := hwf.2.1
      obtain ⟨A, c, hC⟩ : ∃ A c, T.kids = A ++ [c] := by
        have hne : T.kids ≠ [] := by
          intro hnil
          simp [hnil] at hlen
        exact ⟨_, _, (List.dropLast_append_getLast hne).symm⟩
      have hA : A.length = T.keys.length := by
        rw [hC, List.length_append, List.length_singleton] at hlen
        omega
      have hc : T.kids[T.keys.length]? = some c := by
        rw [hC]
        exact kids_cut hA
      have hmem : c ∈ T.kids := by simp [hC]
      have hcwf := hwf.kid hmem
      have hcsize : 1 ≤ c.size := by omega
      obtain ⟨q, nq, K, hrun, hq, hK, hne, hlast⟩ :=
        ih c f (by omega) (h.2 c hmem) hcwf.2 hcsize
      refine ⟨q, nq, K, ?_, hq, hK, hne, ?_⟩
      · unfold BTreeNode.rightmostLeaf
        rw [bind_run_ok (node_run hget), if_neg (by simp [hnd.leaf_eq]),
          hnd.keysnum_eq, bind_run_ok (h.kid_run hc).1]
        exact hrun
      · have hT : T = ⟨T.id, T.keys ++ [], A ++ c :: []⟩ := by
          rw [List.append_nil, ← hC]
        rw [hT, inorder_focus T.id T.keys [] A [] c hA.symm, ← hlast]
        simp only [List.map_nil, tailOf, interleave_nil, List.append_nil]
        rw [List.getLast?_append_of_ne_nil _ (inorder_ne_nil hcsize)]

/-- The leftmost leaf holds the first key of the tree. -/
theorem leftmostLeaf_run (ht : 2 ≤ t) {m : Mem} :
    ∀ (n : Nat) (T : Tree Int n) (fuel : Nat), n < fuel → Rep m t n T →
      WF t n T → 1 ≤ T.size →
      ∃ q nq K, BTreeNode.leftmostLeaf fuel T.id m = .ok (q, m) ∧
        m.get q = some nq ∧ Holds t true K [] nq ∧ 1 ≤ K.length ∧
        (inorder n T).head? = K.head? := by
  intro n
  induction n with
  | zero =>
      intro T fuel hfuel h _ hsize
      obtain ⟨f, rfl⟩ := Nat.exists_eq_add_one_of_ne_zero hfuel.ne'
      obtain ⟨nd, hget, hnd⟩ := h
      refine ⟨T.id, nd, T.keys, ?_, hget, hnd, hsize, rfl⟩
      unfold BTreeNode.leftmostLeaf
      rw [bind_run_ok (node_run hget), if_pos hnd.leaf_eq]
      rfl
  | succ n ih =>
      intro T fuel hfuel h hwf hsize
      obtain ⟨f, rfl⟩ := Nat.exists_eq_add_one_of_ne_zero
        (Nat.zero_lt_of_lt hfuel).ne'
      obtain ⟨nd, hget, hnd⟩ := h.1
      have hlen : T.kids.length = T.keys.length + 1 := hwf.2.1
      obtain ⟨c, B, hC⟩ : ∃ c B, T.kids = c :: B :=
        List.exists_cons_of_length_eq_add_one hlen
      have hc : T.kids[0]? = some c := by rw [hC]; rfl
      have hmem : c ∈ T.kids := by simp [hC]
      have hcwf := hwf.kid hmem
      have hcsize : 1 ≤ c.size := by omega
      obtain ⟨q, nq, K, hrun, hq, hK, hne, hhead⟩ :=
        ih c f (by omega) (h.2 c hmem) hcwf.2 hcsize
      refine ⟨q, nq, K, ?_, hq, hK, hne, ?_⟩
      · unfold BTreeNode.leftmostLeaf
        rw [bind_run_ok (node_run hget), if_neg (by simp [hnd.leaf_eq]),
          bind_run_ok (h.kid_run hc).1]
        exact hrun
      · have hT : T = ⟨T.id, [] ++ T.keys, [] ++ c :: B⟩ := by
          rw [List.nil_append, List.nil_append, ← hC]
        rw [hT, inorder_focus T.id [] T.keys [] B c rfl, ← hhead]
        simp only [List.map_nil, interleave_nil, List.nil_append]
        rw [List.head?_append_of_ne_nil _ (inorder_ne_nil hcsize)]

theorem getPred_run (ht : 2 ≤ t) {n fuel idx : Nat} (hfuel : n < fuel)
    {m : Mem} {T : Tree Int (n + 1)} (h : Rep m t (n + 1) T) {c : Tree Int n}
    (hc : T.kids[idx]? = some c) (hwf : WF t n c) (hsize : 1 ≤ c.size)
    {pred : Int} (hpred : (inorder n c).getLast? = some pred) :
    BTreeNode.getPred fuel T.id idx m = .ok (pred, m) := by
  obtain ⟨q, nq, K, hrun, hq, hK, hne, hlast⟩ := rightmostLeaf_run ht n c fuel
    hfuel (h.2 c (List.mem_of_getElem? hc)) hwf hsize
  have hkey : K[nq.keysnum - 1]? = some pred := by
    rw [hK.keysnum_eq, ← List.getLast?_eq_getElem?, ← hlast, hpred]
  unfold BTreeNode.getPred
  rw [bind_run_ok (h.kid_run hc).1, bind_run_ok hrun,
    bind_run_ok (node_run hq), bind_run_ok (below_run (by
      rw [hK.keysnum_eq]
      exact hne))]
  exact keyAt_run hq (hK.key_at hkey)

theorem getSucc_run (ht : 2 ≤ t) {n fuel idx : Nat} (hfuel : n < fuel)
    {m : Mem} {T : Tree Int (n + 1)} (h : Rep m t (n + 1) T) {s : Tree Int n}
    (hs : T.kids[idx + 1]? = some s) (hwf : WF t n s) (hsize : 1 ≤ s.size)
    {succ : Int} (hsucc : (inorder n s).head? = some succ) :
    BTreeNode.getSucc fuel T.id idx m = .ok (succ, m) := by
  obtain ⟨q, nq, K, hrun, hq, hK, -, hhead⟩ := leftmostLeaf_run ht n s fuel
    hfuel (h.2 s (List.mem_of_getElem? hs)) hwf hsize
  have hkey : K[0]? = some succ := by
    rw [← List.head?_eq_getElem?, ← hhead, hsucc]
  unfold BTreeNode.getSucc
  rw [bind_run_ok (h.kid_run hs).1, bind_run_ok hrun]
  exact keyAt_run hq (hK.key_at hkey)

end Leaves

section Remove

variable {t n : Nat}

/-- `remove(key)` computes `Descent.remove` on the trees of height `n`. -/
def RemoveRefines (t n : Nat) : Prop :=
  ∀ (key : Int) (T : Tree Int n) (m : Mem) (fuel : Nat), n < fuel →
    Rep m t n T → (ids n T).Nodup → WF t n T → (n ≠ 0 → 1 ≤ T.size) →
    Returns (BTreeNode.remove fuel T.id key) m fun _ m' =>
      Rep m' t n (remove t n key T).tree ∧
      Effect m m' (ids n T) (remove t n key T).created
        (remove t n key T).freed (remove t n key T).trace

/-- A leaf: the keys behind the removed one close the gap. -/
theorem removeRefines_zero : RemoveRefines t 0 := by
  intro key T m fuel hfuel h _ _ _
  obtain ⟨f, rfl⟩ := Nat.exists_eq_add_one_of_ne_zero hfuel.ne'
  obtain ⟨nd, hget, hnd⟩ := h
  unfold BTreeNode.remove
  apply Returns.step (findKey_run hget hnd key)
  apply Returns.step (node_run hget)
  apply Returns.step (found_run hget hnd key _)
  by_cases hfound : T.keys[lowerPos T.keys key]? = some key
  · rw [if_pos (decide_eq_true hfound), if_pos hnd.leaf_eq]
    have hpost : remove t 0 key T = .same ⟨T.id, T.keys.take
        (lowerPos T.keys key) ++ T.keys.drop (lowerPos T.keys key + 1),
        T.kids⟩ := by
      simp only [remove, if_pos hfound]
    rw [hpost]
    generalize lowerPos T.keys key = idx at hfound ⊢
    obtain ⟨ka, kb, hK, hka⟩ := exists_kid_cut hfound
    have F : Focus T.id (m.set T.id) := .of_get hget
    have hself : m.set T.id nd = m := Mem.set_self hget
    have hkeysnum := hnd.keysnum_eq
    have hlen : nd.keysnum = ka.length + 1 + kb.length := by
      rw [hkeysnum, hK, List.length_append, List.length_cons]
      omega
    rw [hK] at hnd
    unfold BTreeNode.removeFromLeaf
    apply Returns.step (node_run hget)
    obtain ⟨nd₁, hrun, hnd₁⟩ := F.keys_down (idx + 1) nd.keysnum hnd.cut
      (by simp [hka]) (by simp [hlen])
    rw [hself] at hrun
    apply Returns.step hrun
    apply Returns.step (node_run (F.get nd₁))
    apply Returns.step (below_run (by
      rw [hnd₁.keysnum_eq, ← hK, ← hkeysnum, hlen]
      omega))
    obtain ⟨nd₂, hrun, hnd₂⟩ := F.setKeysnum_run hnd₁ (nd₁.keysnum - 1)
    apply Returns.of_ok hrun
    have hkeys : T.keys.take idx ++ T.keys.drop (idx + 1) = ka ++ kb := by
      rw [hK, ← hka, List.take_left, ← List.drop_drop, List.drop_left,
        List.drop_succ_cons, List.drop_zero]
    rw [hkeys]
    refine ⟨⟨nd₂, F.get nd₂, ?_⟩, Effect.of_set m T.id nd₂⟩
    refine Holds.of_cells (K := ka ++ kb) hnd₂ ?_ (by simp)
      fun h => Bool.noConfusion h
    rw [hnd₁.keysnum_eq]
    simp only [List.length_append, List.length_cons]
    omega
  · rw [if_neg (by simp [hfound]), if_pos hnd.leaf_eq]
    have hpost : remove t 0 key T =
        ⟨T, 0, [], [.print (BTreeNode.notFound key)]⟩ := by
      simp only [remove, if_neg hfound]
    rw [hpost]
    apply Returns.of_ok (modify_run _ m)
    refine ⟨⟨nd, hget, hnd⟩, ?_⟩
    exact (Effect.of_logs m _).mono (List.nil_subset _)

/-- The recursive call, on kid `j`. -/
theorem removeIn_refines (ht : 2 ≤ t) (ih : RemoveRefines t n)
    {T : Tree Int (n + 1)} {m : Mem} {fuel j : Nat} {c : Tree Int n}
    (hfuel : n < fuel) (h : Rep m t (n + 1) T) (hnd : (ids (n + 1) T).Nodup)
    (hwf : WF t (n + 1) T) (hc : T.kids[j]? = some c) (hroom : t ≤ c.size)
    (key : Int) :
    Returns (BTreeNode.removeIn (BTreeNode.remove fuel) T.id j key) m
      fun _ m' =>
        let o := removeIn (remove t n key) T j
        Rep m' t (n + 1) o.tree ∧
          Effect m m' (ids (n + 1) T) o.created o.freed o.trace := by
  have hmem : c ∈ T.kids := List.mem_of_getElem? hc
  have hcwf := (hwf.kid hmem).2
  have hsize : n ≠ 0 → 1 ≤ c.size := fun _ => by omega
  have hsub : (ids n c).Nodup := kid_nodup hnd hmem
  have hrec := h.view_calledIn (j := j) hwf.branching hmem hcwf.branching
    .remove
  have h₁ : Rep (m.logs [calledIn .remove T j c]) t (n + 1) T :=
    h.frame fun _ _ => rfl
  unfold BTreeNode.removeIn
  apply Returns.step (h.kid_run hc).1
  apply Returns.step hrec
  apply (ih key c _ fuel hfuel (h₁.2 c hmem) hsub hcwf hsize).seq
  rintro - m₂ ⟨hrep, heff⟩
  have hid := remove_id ht key hcwf hsize
  have hwf' := (remove_wf ht n key c hcwf hsize).1
  simp only [removeIn, hc]
  generalize remove t n key c = o at hrep heff hid hwf' ⊢
  have h₂ : Rep m₂ t (n + 1) (setKid T j o.tree) :=
    h₁.descend hnd hc hid hrep heff
  have hlt : j < T.kids.length := (List.getElem?_eq_some_iff.mp hc).1
  have hbr : Branching (n + 1) (setKid T j o.tree) := by
    intro _
    show (T.kids.set j o.tree).length = T.size + 1
    rw [List.length_set]
    exact hwf.2.1
  have hrec₂ := h₂.view_calledIn (j := j) hbr
    (List.mem_set hlt o.tree) hwf'.branching .removed
  rw [hid] at hrec₂
  apply Returns.of_ok hrec₂
  constructor
  · exact h₂.frame fun _ _ => rfl
  · have hcomp := (Effect.of_logs m [calledIn .remove T j c]).comp heff
      (H := ids (n + 1) T) (List.nil_subset _)
      fun q hq => Or.inl (ids_kid_subset hmem hq)
    have hcomp₂ := hcomp.comp (Effect.of_logs m₂
      [calledIn .removed (setKid T j o.tree) j o.tree]) (H := ids (n + 1) T)
      (fun _ hq => hq) fun _ hq => absurd hq List.not_mem_nil
    simpa using hcomp₂

/-- What a call with an effect inside `T` adds to one before it. -/
private theorem Effect.within {m m₁ m₂ : Mem} {T U : Tree Int n}
    {F fr gr : List Addr} {cr dr : Nat} {tr ur : List Event}
    (h : Effect m m₁ F cr fr tr) (hF : F ⊆ ids n T)
    (hU : ids n U ⊆ ids n T) (h' : Effect m₁ m₂ (ids n U) dr gr ur) :
    Effect m m₂ (ids n T) (cr + dr) (fr ++ gr) (tr ++ ur) :=
  h.comp h' hF fun _ hq => Or.inl (hU hq)

/-- A key is replaced, and the new one removed from kid `j`. -/
private theorem replaceKey_refines (ht : 2 ≤ t) (ih : RemoveRefines t n)
    {p : Addr} {ka kb : List Int} {k : Int} {C : List (Tree Int n)} {m : Mem}
    {fuel : Nat} (hfuel : n < fuel)
    (h : Rep m t (n + 1) ⟨p, ka ++ k :: kb, C⟩)
    (hnd : (ids (n + 1) ⟨p, ka ++ k :: kb, C⟩).Nodup)
    (hwf : WF t (n + 1) ⟨p, ka ++ k :: kb, C⟩) (k' : Int) {j : Nat}
    {d : Tree Int n} (hd : C[j]? = some d) (hroom : t ≤ d.size) :
    Returns (do
      setKey p ka.length k'
      BTreeNode.removeIn (BTreeNode.remove fuel) p j k') m fun _ m' =>
      let o := removeIn (remove t n k')
        (Node.mk p (ka ++ k' :: kb) C : Tree Int (n + 1)) j
      Rep m' t (n + 1) o.tree ∧
        Effect m m' (ids (n + 1) ⟨p, ka ++ k :: kb, C⟩) o.created o.freed
          o.trace := by
  obtain ⟨nd, hget, hholds⟩ := h.1
  have F : Focus p (m.set p) := .of_get hget
  obtain ⟨nd₁, hrun, hnd₁⟩ := F.setKey_run hholds.cut k' (i := ka.length)
    (by rw [List.length_map])
  rw [Mem.set_self hget] at hrun
  have hkeys : Holds t false (ka ++ k' :: kb) (C.map Node.id) nd₁ :=
    .of_cells hnd₁ (by simp) (by simp) fun _ => rfl
  have h₁ : Rep (m.set p nd₁) t (n + 1) ⟨p, ka ++ k' :: kb, C⟩ :=
    h.set_root hnd hkeys
  have hwf₁ : WF t (n + 1) ⟨p, ka ++ k' :: kb, C⟩ := by
    refine ⟨by simpa using hwf.size_le, ?_, fun c hc => hwf.kid hc⟩
    simpa using hwf.2.1
  apply Returns.step hrun
  apply (removeIn_refines ht ih hfuel h₁ hnd hwf₁ hd hroom k').mono
  rintro - m' ⟨hrep, heff⟩
  refine ⟨hrep, ?_⟩
  have hcomp := Effect.within
    (T := (Node.mk p (ka ++ k :: kb) C : Tree Int (n + 1)))
    (Effect.of_set m p nd₁) (by simp [ids]) (fun _ hq => hq) heff
  simpa using hcomp

/-- The key is in an inner node. -/
theorem removeFromNonLeaf_refines (ht : 2 ≤ t) (ih : RemoveRefines t n)
    {T : Tree Int (n + 1)} {m : Mem} {fuel : Nat} (hfuel : n < fuel)
    (h : Rep m t (n + 1) T) (hnd : (ids (n + 1) T).Nodup)
    (hwf : WF t (n + 1) T) {idx : Nat} {key : Int}
    (hkey : T.keys[idx]? = some key) :
    Returns (BTreeNode.removeFromNonLeaf fuel (BTreeNode.remove fuel) T.id idx)
      m fun _ m' =>
        let o := removeFromNonLeaf t (remove t n) T idx key
        Rep m' t (n + 1) o.tree ∧
          Effect m m' (ids (n + 1) T) o.created o.freed o.trace := by
  obtain ⟨nd, hget, hholds⟩ := h.1
  obtain ⟨p, K, C⟩ := T
  have hlt : idx < K.length := (List.getElem?_eq_some_iff.mp hkey).1
  obtain ⟨ka, k, kb, A, c, s, B, rfl, rfl, rfl, hA, hB⟩ :=
    exists_cut_pair hwf.2.1 hlt
  obtain rfl : k = key := by simpa using hkey
  have hc : (A ++ c :: s :: B)[ka.length]? = some c := kids_cut hA
  have hs : (A ++ c :: s :: B)[ka.length + 1]? = some s := kids_cut_succ hA
  obtain ⟨hcsize, hcwf⟩ := hwf.kid (by simp : c ∈ A ++ c :: s :: B)
  obtain ⟨hssize, hswf⟩ := hwf.kid (by simp : s ∈ A ++ c :: s :: B)
  obtain ⟨hchild, nc, hnode, hcnum⟩ := h.kid_run hc
  obtain ⟨hchild', ns, hnode', hsnum⟩ := h.kid_run hs
  unfold BTreeNode.removeFromNonLeaf
  apply Returns.step (keyAt_run hget (hholds.key_at hkey))
  apply Returns.step (node_run hget)
  apply Returns.step hchild
  apply Returns.step hnode
  rw [hcnum, hholds.t_eq]
  by_cases hct : t ≤ c.size
  · have hne := inorder_ne_nil (show 1 ≤ c.size by omega)
    obtain ⟨pred, hpred⟩ : ∃ pred, (inorder n c).getLast? = some pred :=
      ⟨_, List.getLast?_eq_some_getLast hne⟩
    have hpost : removeFromNonLeaf t (remove t n)
        (Node.mk p (ka ++ k :: kb) (A ++ c :: s :: B) : Tree Int (n + 1))
        ka.length k = removeIn (remove t n pred)
          (Node.mk p (ka ++ pred :: kb) (A ++ c :: s :: B) : Tree Int (n + 1))
          ka.length := by
      simp only [removeFromNonLeaf, hc, hs, if_pos hct, hpred, setKeyOf]
      rw [List.set_append_right _ _ (Nat.le_refl _), Nat.sub_self,
        List.set_cons_zero]
    rw [if_pos hct, hpost]
    apply Returns.step (getPred_run ht hfuel h hc hcwf (by omega) hpred)
    exact replaceKey_refines ht ih hfuel h hnd hwf pred hc hct
  rw [if_neg hct]
  apply Returns.step hchild'
  apply Returns.step hnode'
  rw [hsnum]
  by_cases hst : t ≤ s.size
  · have hne := inorder_ne_nil (show 1 ≤ s.size by omega)
    obtain ⟨succ, M, hM⟩ := List.exists_cons_of_ne_nil hne
    have hsucc : (inorder n s).head? = some succ := by rw [hM]; rfl
    have hpost : removeFromNonLeaf t (remove t n)
        (Node.mk p (ka ++ k :: kb) (A ++ c :: s :: B) : Tree Int (n + 1))
        ka.length k = removeIn (remove t n succ)
          (Node.mk p (ka ++ succ :: kb) (A ++ c :: s :: B) : Tree Int (n + 1))
          (ka.length + 1) := by
      simp only [removeFromNonLeaf, hc, hs, if_neg hct, if_pos hst, hsucc,
        setKeyOf]
      rw [List.set_append_right _ _ (Nat.le_refl _), Nat.sub_self,
        List.set_cons_zero]
    rw [if_pos hst, hpost]
    apply Returns.step (getSucc_run ht hfuel h hs hswf (by omega) hsucc)
    exact replaceKey_refines ht ih hfuel h hnd hwf succ hs hst
  · have hpost : removeFromNonLeaf t (remove t n)
        (Node.mk p (ka ++ k :: kb) (A ++ c :: s :: B) : Tree Int (n + 1))
        ka.length k = (mergeAt (Node.mk p (ka ++ k :: kb)
          (A ++ c :: s :: B) : Tree Int (n + 1)) ka.length).andThen fun T' =>
            removeIn (remove t n k) T' ka.length := by
      simp only [removeFromNonLeaf, hc, hs, if_neg hct, if_neg hst]
    rw [if_neg hst, hpost]
    have hmerge := merge_refines h hnd (wf_iff_occupied.mp hwf) hA hB.symm
      (by omega) (by omega)
    apply hmerge.seq
    rintro - m₁ ⟨h₁, heff₁⟩
    have hids : (ids (n + 1) ⟨p, ka ++ kb, A ++ c.joined k s :: B⟩ ++
        [s.id]).Perm (ids (n + 1) ⟨p, ka ++ k :: kb, A ++ c :: s :: B⟩) :=
      ids_merge
    have hnd₁ := (List.nodup_append'.mp (hids.nodup_iff.mpr hnd)).1
    have hwf₁ := wf_merge hwf (by omega)
    have hroom : t ≤ (c.joined k s).size := by
      simp only [Node.size, Node.joined, List.length_append,
        List.length_cons] at hcsize hssize ⊢
      omega
    apply (removeIn_refines ht ih hfuel h₁ hnd₁ hwf₁ (kids_cut hA) hroom k).mono
    rintro - m' ⟨hrep, heff⟩
    simp only [mergeAt, merge_mk rfl hA, Outcome.andThen, kidId_mk_succ hA]
    refine ⟨hrep, ?_⟩
    have hcomp := Effect.within (T := ⟨p, ka ++ k :: kb, A ++ c :: s :: B⟩)
      heff₁ ?_ (fun q hq => hids.subset (List.mem_append_left _ hq)) heff
    · simpa using hcomp
    · intro q hq
      simp only [List.mem_cons, List.not_mem_nil, or_false] at hq
      rcases hq with rfl | rfl | rfl
      · exact id_mem_ids (n + 1) _
      · exact ids_kid_subset (by simp) (id_mem_ids n c)
      · exact ids_kid_subset (by simp) (id_mem_ids n s)

/-- An inner node: the key is in it, or the search goes on in a kid. -/
theorem removeRefines_succ (ht : 2 ≤ t) (ih : RemoveRefines t n) :
    RemoveRefines t (n + 1) := by
  intro key T m fuel hfuel h hnd hwf hsize
  obtain ⟨f, rfl⟩ := Nat.exists_eq_add_one_of_ne_zero
    (Nat.zero_lt_of_lt hfuel).ne'
  have hone : 1 ≤ T.size := hsize (Nat.succ_ne_zero n)
  obtain ⟨nd, hget, hholds⟩ := h.1
  unfold BTreeNode.remove
  apply Returns.step (findKey_run hget hholds key)
  apply Returns.step (node_run hget)
  apply Returns.step (found_run hget hholds key _)
  have hidx : lowerPos T.keys key ≤ T.size := by
    rw [lowerPos]
    exact (List.takeWhile_prefix _).length_le
  by_cases hfound : T.keys[lowerPos T.keys key]? = some key
  · rw [if_pos (decide_eq_true hfound), if_neg (by simp [hholds.leaf_eq])]
    have hpost : remove t (n + 1) key T = removeFromNonLeaf t (remove t n) T
        (lowerPos T.keys key) key := by
      simp only [remove, if_pos hfound]
    rw [hpost]
    exact removeFromNonLeaf_refines ht ih (by omega) h hnd hwf hfound
  · rw [if_neg (by simp [hfound]), if_neg (by simp [hholds.leaf_eq])]
    have hpost : remove t (n + 1) key T =
        (if kidSize T (lowerPos T.keys key) < t then
          fill t T (lowerPos T.keys key) else .same T).andThen fun T' =>
            removeIn (remove t n key) T'
              (fillPos (lowerPos T.keys key) T.size T'.size) := by
      simp only [remove, if_neg hfound]
    rw [hpost]
    generalize lowerPos T.keys key = idx at hidx ⊢
    have hlt : idx < T.kids.length := by
      rw [show T.kids.length = T.size + 1 from hwf.2.1]
      omega
    have hc := List.getElem?_eq_getElem hlt
    have hk : kidSize T idx = T.kids[idx].size := by
      rw [kidSize, hc]
      rfl
    obtain ⟨hchild, nc, hnode, hnum⟩ := h.kid_run hc
    apply Returns.step hchild
    apply Returns.step hnode
    rw [hnum, ← hk, hholds.t_eq, hholds.keysnum_eq]
    have hfilled := filled_if_low ht hwf hone hidx
    have hfill : Returns (onlyIf (decide (kidSize T idx < t))
        (BTreeNode.fill T.id idx)) m fun _ m' =>
        let o := if kidSize T idx < t then fill t T idx else .same T
        Rep m' t (n + 1) o.tree ∧
          Effect m m' (ids (n + 1) T) 0 o.freed o.trace := by
      by_cases hlow : kidSize T idx < t
      · rw [onlyIf_pos (decide_eq_true hlow), if_pos hlow]
        exact fill_refines ht h hnd (wf_iff_occupied.mp hwf) hone hidx hlow
      · rw [onlyIf_neg (decide_eq_false hlow), if_neg hlow]
        exact Returns.pure ⟨h, (Effect.refl m).mono (List.nil_subset _)⟩
    apply hfill.seq
    generalize (if kidSize T idx < t then fill t T idx else Outcome.same T) = o
      at hfilled ⊢
    rintro - m₁ ⟨h₁, heff₁⟩
    obtain ⟨c₁, c, u, v, -, hc', hroom, -⟩ := hfilled.target
    have hnd₁ := (List.nodup_append'.mp
      (hfilled.ids.nodup_iff.mpr hnd)).1
    obtain ⟨np, hget₁, hnp⟩ := h₁.1
    rw [hfilled.id_eq] at hget₁
    apply Returns.step (node_run hget₁)
    have hin : Returns (BTreeNode.removeIn (BTreeNode.remove f) T.id
        (fillPos idx T.size o.tree.size) key) m₁ fun _ m' =>
        let r := o.andThen fun T' =>
          removeIn (remove t n key) T' (fillPos idx T.size T'.size)
        Rep m' t (n + 1) r.tree ∧
          Effect m m' (ids (n + 1) T) r.created r.freed r.trace := by
      have hrec := removeIn_refines ht ih (Nat.lt_of_succ_lt_succ hfuel) h₁ hnd₁
        hfilled.wf hc' hroom key
      rw [hfilled.id_eq] at hrec
      apply hrec.mono
      rintro - m' ⟨hrep, heff⟩
      refine ⟨hrep, ?_⟩
      have hcomp := Effect.within heff₁ (fun _ hq => hq)
        (fun q hq => hfilled.ids.subset (List.mem_append_left _ hq)) heff
      simpa only [Outcome.andThen, hfilled.created] using hcomp
    have hpnum : np.keysnum = o.tree.size := hnp.keysnum_eq
    rw [hpnum]
    by_cases hback : idx = T.size ∧ o.tree.size < idx
    · rw [fillPos, if_pos hback] at hin
      rw [if_pos (by
        rw [Bool.and_eq_true, decide_eq_true_iff, decide_eq_true_iff]
        exact hback)]
      exact Returns.step (below_run (by omega)) hin
    · rw [fillPos, if_neg hback] at hin
      rw [if_neg (by
        rw [Bool.and_eq_true, decide_eq_true_iff, decide_eq_true_iff]
        exact hback)]
      exact hin

theorem remove_refines (ht : 2 ≤ t) (n : Nat) : RemoveRefines t n := by
  induction n with
  | zero => exact removeRefines_zero
  | succ n ih => exact removeRefines_succ ht ih

end Remove

end ParallelBTree.Ports.Represent
