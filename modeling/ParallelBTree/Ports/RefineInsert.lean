import ParallelBTree.Ports.DescentInsert
import ParallelBTree.Ports.RefineSteps

/-!
# `insertNonFull` in memory

`insertNonFull` run on a memory that holds a tree leaves a memory that holds the
tree of `Descent.insertNonFull`, and has the effect stated there.  The proof is
an induction on the height; `Rep.descend` puts the subtree that the recursive
call leaves back into the node above it.
-/

namespace ParallelBTree.Ports.Represent

open ParallelBTree.Verified.Program
open ParallelBTree.Verified.Multiway
open ParallelBTree.Ports.NodeMemory
open ParallelBTree.Ports.Descent

/-- Only nodes that were created have been deleted. -/
def DeletedOld (m : Mem) : Prop := ∀ q ∈ m.deleted, q < m.nodes.length

theorem DeletedOld.fresh {m : Mem} (h : DeletedOld m) :
    m.nodes.length ∉ m.deleted := fun hq => lt_irrefl _ (h _ hq)

theorem DeletedOld.effect {m m' : Mem} (h : DeletedOld m) {F fr : List Addr}
    {cr : Nat} {tr : List Event} (he : Effect m m' F cr fr tr)
    (hfr : ∀ q ∈ fr, q < m.nodes.length) : DeletedOld m' := by
  intro q hq
  rw [he.deleted, List.mem_append] at hq
  have hlt : q < m.nodes.length := by
    rcases hq with hq | hq
    · exact h q hq
    · exact hfr q hq
  rw [he.nodes]
  exact lt_of_lt_of_le hlt (Nat.le_add_right _ _)

section Descend

variable {m m' : Mem} {t n : Nat}

theorem exists_kid_cut {κ : Type} {C : List κ} {j : Nat} {c : κ}
    (hc : C[j]? = some c) : ∃ A B, C = A ++ c :: B ∧ A.length = j := by
  obtain ⟨hlt, rfl⟩ := List.getElem?_eq_some_iff.mp hc
  refine ⟨C.take j, C.drop (j + 1), ?_, by rw [List.length_take]; omega⟩
  rw [← List.drop_eq_getElem_cons hlt, List.take_append_drop]

theorem kid_nodup {T : Tree Int (n + 1)} (hnd : (ids (n + 1) T).Nodup)
    {c : Tree Int n} (hc : c ∈ T.kids) : (ids n c).Nodup := by
  obtain ⟨A, B, hC⟩ := List.append_of_mem hc
  simp only [ids, hC, List.flatMap_append, List.flatMap_cons,
    List.nodup_cons, List.nodup_append'] at hnd
  exact hnd.2.2.1.1

/-- New keys in the root, everything else as it was. -/
theorem Rep.set_root {T : Tree Int n} (h : Rep m t n T)
    (hnd : (ids n T).Nodup) {K : List Int} {nd : BTreeNode}
    (hK : Holds t (isLeaf n) K (ptrs n T.kids) nd) :
    Rep (m.set T.id nd) t n ⟨T.id, K, T.kids⟩ := by
  obtain ⟨⟨old, hget, -⟩, hkids⟩ := (rep_iff T).mp h
  refine (rep_iff _).mpr ⟨⟨nd, Mem.get_set_self hget, hK⟩, ?_⟩
  apply hkids.frame
  intro q hq
  apply Mem.get_set_ne
  rintro rfl
  rw [ids_eq] at hnd
  exact (List.nodup_cons.mp hnd).1 hq

/-- One kid after a call that worked below it. -/
theorem Rep.descend {T : Tree Int (n + 1)} (h : Rep m t (n + 1) T)
    (hnd : (ids (n + 1) T).Nodup) {j : Nat} {c c' : Tree Int n}
    (hc : T.kids[j]? = some c) (hid : c'.id = c.id) (hrep : Rep m' t n c')
    {cr : Nat} {fr : List Addr} {tr : List Event}
    (heff : Effect m m' (ids n c) cr fr tr) :
    Rep m' t (n + 1) (setKid T j c') := by
  obtain ⟨p, K, C⟩ := T
  obtain ⟨A, B, rfl, rfl⟩ := exists_kid_cut hc
  simp only [ids, List.flatMap_append, List.flatMap_cons, List.nodup_cons,
    List.nodup_append', List.mem_append, not_or] at hnd
  obtain ⟨hp, -, ⟨-, -, hcB⟩, hA⟩ := hnd
  have hkeep : ∀ x ∈ A ++ c :: B, (∀ q ∈ ids n x, q ∉ ids n c) →
      Rep m' t n x := by
    intro x hx hq
    exact (h.2 x hx).frame fun q hqx =>
      heff.frame q ((h.2 x hx).lt_length hqx) (hq q hqx)
  have hset : (A ++ c :: B).set A.length c' = A ++ c' :: B := by simp
  constructor
  · obtain ⟨nd, hget, hnd⟩ := h.1
    refine ⟨nd, (heff.frame p (Mem.lt_of_get hget) hp.2.1).trans hget, ?_⟩
    simpa [setKid, hset, hid] using hnd
  · intro x hx
    simp only [setKid, hset, List.mem_append, List.mem_cons] at hx
    rcases hx with hx | rfl | hx
    · refine hkeep x (by simp [hx]) fun q hqx hqc => ?_
      exact hA (List.mem_flatMap.mpr ⟨x, hx, hqx⟩)
        (List.mem_append_left _ hqc)
    · exact hrep
    · refine hkeep x (by simp [hx]) fun q hqx hqc => ?_
      exact hcB hqc (List.mem_flatMap.mpr ⟨x, hx, hqx⟩)

/-- The event of a call that a member function of `T` makes on a kid. -/
theorem Rep.view_calledIn {T : Tree Int (n + 1)} (h : Rep m t (n + 1) T)
    (hT : Branching (n + 1) T) {j : Nat} {c : Tree Int n} (hc : c ∈ T.kids)
    (hcb : Branching n c) (fn : Fn) :
    record fn (some T.id) c.id j none m =
      .ok ((), m.logs [calledIn fn T j c]) := by
  rw [calledIn, ← h.view_eq hT, ← (h.2 c hc).view_eq hcb]
  rfl

end Descend

section Insert

variable {t n : Nat} {key : Int}

/-- `insertNonFull(key)` computes `Descent.insertNonFull` on the trees of height
`n`. -/
def InsertRefines (t : Nat) (key : Int) (n : Nat) : Prop :=
  ∀ (T : Tree Int n) (m : Mem) (fuel : Nat), n < fuel → Rep m t n T →
    (ids n T).Nodup → WF t n T → T.size < 2 * t - 1 → DeletedOld m →
    Returns (BTreeNode.insertNonFull fuel T.id key) m fun _ m' =>
      Rep m' t n (insertNonFull t key n T m.nodes.length).tree ∧
      Effect m m' (ids n T) (insertNonFull t key n T m.nodes.length).created
        (insertNonFull t key n T m.nodes.length).freed
        (insertNonFull t key n T m.nodes.length).trace

/-- A leaf: larger keys move up, the key goes into the gap. -/
theorem insertRefines_zero : InsertRefines t key 0 := by
  intro T m fuel hfuel h _ hwf hroom _
  obtain ⟨f, rfl⟩ := Nat.exists_eq_add_one_of_ne_zero hfuel.ne'
  obtain ⟨nd, hget, hnd⟩ := h
  obtain ⟨L, U, hK, hL, hlast, hU⟩ := rdropWhile_cut T.keys key
  have hlen : T.keys.length = L.length + U.length := by
    rw [hK, List.length_append]
  have F : Focus T.id (m.set T.id) := .of_get hget
  have hself : m.set T.id nd = m := Mem.set_self hget
  obtain ⟨d, hroomy⟩ := hnd.extend (by simpa [Node.size] using hroom)
  have hcells : Cells t true T.keys.length
      (L.map some ++ (U.map some ++ [d])) ([].map some) nd := by
    rw [hK, List.map_append, List.append_assoc] at hroomy
    rw [hK]
    exact hroomy
  unfold BTreeNode.insertNonFull
  apply Returns.step (node_run hget)
  rw [if_pos hnd.leaf_eq]
  obtain ⟨nd₁, w, hrun, hnd₁⟩ := F.keys_scan nd.keysnum key hcells
    (fun x hx => not_lt.mpr (hlast x hx)) hU (by rw [hnd.keysnum_eq, hlen])
  rw [hself] at hrun
  apply Returns.step hrun
  obtain ⟨nd₂, hrun, hnd₂⟩ := F.setKey_run hnd₁ key
    (i := L.length) (by rw [List.length_map])
  apply Returns.step hrun
  apply Returns.step (node_run (F.get nd₂))
  obtain ⟨nd₃, hrun, hnd₃⟩ := F.setKeysnum_run hnd₂ (nd₂.keysnum + 1)
  have hpost : insertNonFull t key 0 T m.nodes.length =
      .same ⟨T.id, L ++ key :: U, T.kids⟩ := by
    simp only [insertNonFull, upperPos, ← hL]
    rw [hK, List.take_left, List.drop_left]
  apply Returns.of_ok hrun
  rw [hpost]
  refine ⟨⟨nd₃, F.get nd₃, ?_⟩, ?_⟩
  · refine Holds.of_cells (K := L ++ key :: U) hnd₃ ?_ (by simp)
      fun h => Bool.noConfusion h
    rw [hnd₂.keysnum_eq, hlen, List.length_append, List.length_cons,
      Nat.add_assoc]
  · exact Effect.of_set m T.id nd₃

/-- The recursive call, on kid `j`. -/
theorem insertIn_refines (ih : InsertRefines t key n) {T : Tree Int (n + 1)}
    {m : Mem} {fuel j : Nat} {c : Tree Int n} (hfuel : n < fuel)
    (h : Rep m t (n + 1) T) (hnd : (ids (n + 1) T).Nodup)
    (hwf : WF t (n + 1) T) (hc : T.kids[j]? = some c)
    (hroom : c.size < 2 * t - 1) (hold : DeletedOld m) :
    Returns (do
        let c ← child T.id j
        record .insertNonFull (some T.id) c j none
        BTreeNode.insertNonFull fuel c key) m fun _ m' =>
      let o := insertIn (fun c => insertNonFull t key n c m.nodes.length) T j
      Rep m' t (n + 1) o.tree ∧
        Effect m m' (ids (n + 1) T) o.created o.freed o.trace := by
  have hmem : c ∈ T.kids := List.mem_of_getElem? hc
  have hcwf := (hwf.kid hmem).2
  have hsub : (ids n c).Nodup := kid_nodup hnd hmem
  have hrec := h.view_calledIn (j := j) hwf.branching hmem hcwf.branching
    .insertNonFull
  have hlog := Effect.of_logs m [calledIn .insertNonFull T j c]
  have h₁ : Rep (m.logs [calledIn .insertNonFull T j c]) t (n + 1) T :=
    h.frame fun _ _ => rfl
  apply Returns.step (h.kid_run hc).1
  apply Returns.step hrec
  apply (ih c _ fuel hfuel (h₁.2 c hmem) hsub hcwf hroom hold).mono
  rintro - m' ⟨hrep, heff⟩
  simp only [insertIn, hc]
  constructor
  · exact h₁.descend hnd hc (insertNonFull_id t key n c _) hrep heff
  · have hcomp := hlog.comp heff (H := ids (n + 1) T) (List.nil_subset _)
      fun q hq => Or.inl (ids_kid_subset hmem hq)
    simpa [Mem.logs] using hcomp

section Split

variable {m : Mem} {p fuel : Nat} {k : Int} {ka kb M : List Int}
  {A B : List (Tree Int n)} {y : Tree Int n}

/-- A full kid is split, and the call goes on with the half the key belongs
to. -/
theorem splitInsert_refines (ht : 2 ≤ t) (ih : InsertRefines t key n)
    (hfuel : n < fuel) (h : Rep m t (n + 1) ⟨p, ka ++ kb, A ++ y :: B⟩)
    (hnd : (ids (n + 1) ⟨p, ka ++ kb, A ++ y :: B⟩).Nodup)
    (hwf : WF t (n + 1) ⟨p, ka ++ kb, A ++ y :: B⟩) (hA : A.length = ka.length)
    (hka : ka.length = upperPos (ka ++ kb) key) (hfull : y.size = 2 * t - 1)
    (hk : y.keys.drop (t - 1) = k :: M) (hroom : (ka ++ kb).length < 2 * t - 1)
    (hold : DeletedOld m) :
    Returns (BTreeNode.splitChild p ka.length y.id) m fun _ m₁ =>
      keyAt p ka.length m₁ = .ok (k, m₁) ∧
      Returns (do
          let c ← child p (if k < key then ka.length + 1 else ka.length)
          record .insertNonFull (some p) c
            (if k < key then ka.length + 1 else ka.length) none
          BTreeNode.insertNonFull fuel c key) m₁ fun _ m' =>
        let T : Tree Int (n + 1) := ⟨p, ka ++ kb, A ++ y :: B⟩
        Rep m' t (n + 1) (insertNonFull t key (n + 1) T m.nodes.length).tree ∧
          Effect m m' (ids (n + 1) T)
            (insertNonFull t key (n + 1) T m.nodes.length).created
            (insertNonFull t key (n + 1) T m.nodes.length).freed
            (insertNonFull t key (n + 1) T m.nodes.length).trace := by
  have hy := hwf.kid (by simp : y ∈ A ++ y :: B)
  have hB : B.length = kb.length := by
    have hlen := hwf.2.1
    simp only [List.length_append, List.length_cons, Node.size] at hlen
    omega
  apply (splitChild_refines h hnd hwf.branching hy.2.branching hA hB hk
    (by omega) hfull hroom hold.fresh).mono
  rintro - m₁ ⟨h₁, heff₁⟩
  have hwf₁ := wf_split m.nodes.length (by omega) hk hwf hfull hroom
  have hids : (ids (n + 1) ⟨p, ka ++ k :: kb,
        A ++ y.splitLeft t :: y.splitRight t m.nodes.length :: B⟩).Perm
      (m.nodes.length :: ids (n + 1) ⟨p, ka ++ kb, A ++ y :: B⟩) :=
    ids_split m.nodes.length (by omega) hk
  have hnd₁ : (ids (n + 1) ⟨p, ka ++ k :: kb,
      A ++ y.splitLeft t :: y.splitRight t m.nodes.length :: B⟩).Nodup :=
    hids.nodup_iff.mpr (List.nodup_cons.mpr
      ⟨fun hq => lt_irrefl _ (h.lt_length hq), hnd⟩)
  have hold₁ : DeletedOld m₁ := hold.effect heff₁
    fun _ hq => absurd hq List.not_mem_nil
  have hlen₁ : m₁.nodes.length = m.nodes.length + 1 := heff₁.nodes
  obtain ⟨np₁, hget₁, hholds₁⟩ := h₁.1
  constructor
  · exact keyAt_run hget₁ (hholds₁.key_at (by simp))
  -- which half the key goes to
  obtain ⟨c, hc, hroom₁⟩ : ∃ c : Tree Int n,
      (A ++ y.splitLeft t :: y.splitRight t m.nodes.length :: B)[
        if k < key then ka.length + 1 else ka.length]? = some c ∧
      c.size < 2 * t - 1 := by
    simp only [Node.size] at hfull
    by_cases hkey : k < key
    · rw [if_pos hkey]
      refine ⟨y.splitRight t m.nodes.length, kids_cut_succ hA, ?_⟩
      simp only [Node.size, Node.splitRight, List.length_drop]
      omega
    · rw [if_neg hkey]
      refine ⟨y.splitLeft t, kids_cut hA, ?_⟩
      simp only [Node.size, Node.splitLeft, List.length_take]
      omega
  apply (insertIn_refines ih hfuel h₁ hnd₁ hwf₁ hc hroom₁ hold₁).mono
  rw [hlen₁]
  rintro - m' ⟨hrep, heff⟩
  simp only [insertNonFull_split _ hA hka hfull hk]
  refine ⟨hrep, ?_⟩
  have hcomp := heff₁.comp heff
    (H := ids (n + 1) ⟨p, ka ++ kb, A ++ y :: B⟩) ?_ ?_
  · rw [Nat.add_comm 1] at hcomp
    simpa using hcomp
  · intro q hq
    simp only [List.mem_cons, List.not_mem_nil, or_false] at hq
    rcases hq with rfl | rfl
    · exact id_mem_ids (n + 1) _
    · exact ids_kid_subset (by simp) (id_mem_ids n y)
  · intro q hq
    rcases List.mem_cons.mp (hids.mem_iff.mp hq) with rfl | hq
    · exact Or.inr (Nat.le_refl _)
    · exact Or.inl hq

end Split

/-- An inner node: the kid is split if it is full, and takes the key. -/
theorem insertRefines_succ (ht : 2 ≤ t) (ih : InsertRefines t key n) :
    InsertRefines t key (n + 1) := by
  intro T m fuel hfuel h hnd hwf hroom hold
  obtain ⟨f, rfl⟩ := Nat.exists_eq_add_one_of_ne_zero
    (Nat.zero_lt_of_lt hfuel).ne'
  obtain ⟨p, K, C⟩ := T
  obtain ⟨ka, kb, rfl, hka, hlast, hkb⟩ := rdropWhile_cut K key
  obtain ⟨A, y, B, rfl, hA, hB⟩ := exists_kids_cut (hwf.2.1 : C.length = _)
  have hkid : (A ++ y :: B)[ka.length]? = some y := kids_cut hA
  have hy := hwf.kid (by simp : y ∈ A ++ y :: B)
  have hylen := hy.2.size_le
  obtain ⟨nd, hget, hholds⟩ := h.1
  have hscan : scanDown
      (fun i => do pure (decide (key < (← keyAt p i)))) (fun _ => pure ())
      nd.keysnum m = .ok (ka.length, m) := by
    rw [hholds.keysnum_eq, List.length_append]
    refine scanDown_run (fun x => decide (key < x)) ka
      (fun x hx => decide_eq_false (not_lt.mpr (hlast x hx))) kb
      (fun x hx => decide_eq_true (hkb x hx)) fun j x hj => ?_
    show (keyAt p j >>= fun x => pure (decide (key < x))) m = _
    rw [bind_run_ok (keyAt_run hget (hholds.key_at hj))]
    rfl
  unfold BTreeNode.insertNonFull
  apply Returns.step (node_run hget)
  rw [if_neg (by simp [hholds.leaf_eq])]
  apply Returns.step hscan
  obtain ⟨hchild, ny, hnode, hysize⟩ := h.kid_run hkid
  apply Returns.step hchild
  apply Returns.step hnode
  apply Returns.bind
  rw [hysize, hholds.t_eq]
  by_cases hfull : y.size = 2 * t - 1
  · rw [if_pos hfull]
    obtain ⟨k, M, hk⟩ := exists_middle (by omega) hfull
    have hsplit := splitInsert_refines ht ih (Nat.lt_of_succ_lt_succ hfuel) h
      hnd hwf hA hka hfull hk hroom hold
    apply hsplit.seq
    rintro - m₁ ⟨hkey, hgo⟩
    apply Returns.step hkey
    by_cases hlt : k < key
    · rw [if_pos hlt] at hgo ⊢
      exact Returns.pure hgo
    · rw [if_neg hlt] at hgo ⊢
      exact Returns.pure hgo
  · rw [if_neg hfull, insertNonFull_descend _ hA hka hfull]
    apply Returns.pure
    exact insertIn_refines ih (by omega) h hnd hwf hkid (by omega) hold

theorem insertNonFull_refines (ht : 2 ≤ t) (key : Int) (n : Nat) :
    InsertRefines t key n := by
  induction n with
  | zero => exact insertRefines_zero
  | succ n ih => exact insertRefines_succ ht ih

end Insert

end ParallelBTree.Ports.Represent
