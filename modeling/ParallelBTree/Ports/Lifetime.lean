import ParallelBTree.Ports.Runs

/-!
# Every node is deleted exactly once

`~BTreeNode` deletes the children in its live slots first, so deleting the root
of a tree in memory deletes the nodes of the tree, each once
(`delete_run`, by induction on the height).  With the accounts that every
history keeps, the destructor of `BTree` leaves nothing behind.
-/

namespace ParallelBTree.Ports

open ParallelBTree.Verified.Program
open ParallelBTree.Verified.Multiway
open ParallelBTree.Ports.NodeMemory
open ParallelBTree.Ports.Descent
open ParallelBTree.Ports.Represent

namespace Represent

variable {t n : Nat}

/-- `delete` deletes the nodes of the trees of height `n`, each once. -/
def Deletes (t n : Nat) : Prop :=
  ∀ (T : Tree Int n) (m : Mem) (fuel : Nat), n < fuel → Rep m t n T →
    WF t n T → (ids n T).Nodup →
    Returns (BTreeNode.delete fuel (some T.id)) m fun _ m' =>
      ∃ fr, Effect m m' (ids n T) 0 fr [] ∧ fr.Perm (ids n T)

/-- The loop of the destructor, from the child behind `A` on. -/
private theorem deleteKids_run (ih : Deletes t n) {p fuel : Nat}
    (hfuel : n < fuel) {K : List Int} {C : List (Tree Int n)} {nd : BTreeNode}
    (hnd : Holds t false K (C.map Node.id) nd) :
    ∀ (B A : List (Tree Int n)) (m : Mem), C = A ++ B → m.get p = some nd →
      (∀ c ∈ B, Rep m t n c ∧ WF t n c) → (p :: B.flatMap (ids n)).Nodup →
      Returns (upFrom (fun i => do BTreeNode.delete fuel (← childPtr p i))
        A.length B.length) m fun _ m' =>
          ∃ fr, Effect m m' (B.flatMap (ids n)) 0 fr [] ∧
            fr.Perm (B.flatMap (ids n)) := by
  intro B
  induction B with
  | nil =>
      intro A m _ _ _ _
      exact Returns.pure ⟨[], Effect.refl m, List.Perm.refl _⟩
  | cons c B ihB =>
      intro A m hC hget hB hnodup
      have hslot : (C.map Node.id)[A.length]? = some c.id := by
        rw [hC]
        simp
      simp only [List.flatMap_cons, List.nodup_cons, List.mem_append, not_or,
        List.nodup_append'] at hnodup
      obtain ⟨⟨hpc, hpB⟩, hc, hBnd, hcB⟩ := hnodup
      have hrep := hB c (by simp)
      rw [List.length_cons, upFrom]
      apply Returns.bind
      apply Returns.step (childPtr_run hget (hnd.kid_at hslot))
      apply (ih c m fuel hfuel hrep.1 hrep.2 hc).mono
      rintro - m₁ ⟨fr, heff, hfr⟩
      have hget₁ : m₁.get p = some nd :=
        (heff.frame p (Mem.lt_of_get hget) hpc).trans hget
      have hkeep : ∀ x ∈ B, Rep m₁ t n x ∧ WF t n x := by
        intro x hx
        obtain ⟨hxrep, hxwf⟩ := hB x (by simp [hx])
        refine ⟨hxrep.frame fun q hq => ?_, hxwf⟩
        exact heff.frame q (hxrep.lt_length hq) fun hqc =>
          hcB hqc (List.mem_flatMap.mpr ⟨x, hx, hq⟩)
      have hrest := ihB (A ++ [c]) m₁ (by simp [hC]) hget₁ hkeep
        (List.nodup_cons.mpr ⟨hpB, hBnd⟩)
      rw [List.length_append, List.length_singleton] at hrest
      apply hrest.mono
      rintro - m' ⟨gr, heff', hgr⟩
      refine ⟨fr ++ gr, ?_, hfr.append hgr⟩
      exact heff.comp heff' (List.subset_append_left _ _)
        fun q hq => Or.inl (List.mem_append_right _ hq)

theorem delete_run (t n : Nat) : Deletes t n := by
  induction n with
  | zero =>
      intro T m fuel hfuel h _ _
      obtain ⟨f, rfl⟩ := Nat.exists_eq_add_one_of_ne_zero hfuel.ne'
      obtain ⟨nd, hget, hnd⟩ := h
      unfold BTreeNode.delete
      apply Returns.step (node_run hget)
      rw [onlyIf_neg (by simp [hnd.leaf_eq])]
      apply Returns.step (pure_run () m)
      exact Returns.of_ok (modify_run _ m)
        ⟨[T.id], Effect.of_release m T.id, List.Perm.refl _⟩
  | succ n ih =>
      intro T m fuel hfuel h hwf hnodup
      obtain ⟨f, rfl⟩ := Nat.exists_eq_add_one_of_ne_zero
        (Nat.zero_lt_of_lt hfuel).ne'
      obtain ⟨nd, hget, hnd⟩ := h.1
      have hloop := deleteKids_run ih (Nat.lt_of_succ_lt_succ hfuel) hnd T.kids
        [] m rfl hget (fun c hc => ⟨h.2 c hc, (hwf.kid hc).2⟩) hnodup
      have hlen : T.kids.length = T.keys.length + 1 := hwf.2.1
      unfold BTreeNode.delete
      apply Returns.step (node_run hget)
      rw [onlyIf_pos (by simp [hnd.leaf_eq]), hnd.keysnum_eq, ← hlen]
      apply hloop.seq
      rintro - m₁ ⟨fr, heff, hfr⟩
      apply Returns.of_ok (modify_run _ m₁)
      refine ⟨fr ++ [T.id], ?_, ?_⟩
      · exact heff.comp (Effect.of_release m₁ T.id)
          (fun q hq => List.mem_cons_of_mem _ hq)
          fun q hq => Or.inl (List.mem_singleton.mp hq ▸ id_mem_ids (n + 1) T)
      · exact (List.perm_append_singleton T.id fr).trans (hfr.cons T.id)

end Represent

namespace BTree

variable {b : BTree} {L : List Int}

/-- The destructor deletes what is left. -/
theorem Stores.destroy (h : b.Stores L) :
    ∃ m, destroy b.root b.mem = .ok ((), m) ∧
      m.nodes.length = b.mem.nodes.length ∧
      m.deleted.Perm (List.range m.nodes.length) := by
  cases h with
  | vacant h =>
      refine ⟨b.mem, ?_, rfl, h.accounts⟩
      rw [h.root, BTree.destroy, bind_run_ok (get_run b.mem)]
      cases b.mem.nodes.length <;> rfl
  | @holding n T h =>
      obtain ⟨_, m, hrun, fr, heff, hfr⟩ :=
        delete_run b.t n T b.mem _ h.fuel h.rep h.wf h.ids_nodup
      refine ⟨m, ?_, heff.nodes, ?_⟩
      · rw [h.root, BTree.destroy, bind_run_ok (get_run b.mem)]
        exact hrun
      · rw [heff.nodes, heff.deleted]
        exact ((hfr.append_left _).trans List.perm_append_comm).trans h.accounts

/-- After every history the nodes reached from the root, each reached in one
way, are exactly the created ones that were not deleted, no node was deleted
twice, and the destructor deletes every remaining one. -/
theorem node_accounts (t : Nat) (ht : 2 ≤ t) (ops : List Op) :
    ∃ b l m, (BTree.new t).run ops = .ok b ∧ b.reached = .ok l ∧ l.Nodup ∧
      (∀ q, q ∈ l ↔ q < b.mem.nodes.length ∧ q ∉ b.mem.deleted) ∧
      b.mem.deleted.Nodup ∧ destroy b.root b.mem = .ok ((), m) ∧
      m.nodes.length = b.mem.nodes.length ∧
      m.deleted.Perm (List.range m.nodes.length) := by
  obtain ⟨b, hrun, -, h⟩ := run_stores ht ops
  obtain ⟨l, hreached, hacc⟩ := h.reached
  obtain ⟨m, hdestroy, hlen, hall⟩ := h.destroy
  have hnodup := hacc.nodup_iff.mpr List.nodup_range
  obtain ⟨hl, hdeleted, happart⟩ := List.nodup_append'.mp hnodup
  refine ⟨b, l, m, hrun, hreached, hl, ?_, hdeleted, hdestroy, hlen, hall⟩
  intro q
  have hmem : q ∈ l ∨ q ∈ b.mem.deleted ↔ q < b.mem.nodes.length := by
    rw [← List.mem_append, hacc.mem_iff, List.mem_range]
  constructor
  · intro hq
    exact ⟨hmem.mp (Or.inl hq), fun hd => happart hq hd⟩
  · rintro ⟨hq, hd⟩
    exact (hmem.mpr hq).resolve_right hd

theorem node_accounts_two :
    ∃ b l m, (BTree.new 2).run [.insert 1, .insert 2, .insert 3, .insert 4,
        .remove 1, .remove 2] = .ok b ∧ b.reached = .ok l ∧ l.Nodup ∧
      (∀ q, q ∈ l ↔ q < b.mem.nodes.length ∧ q ∉ b.mem.deleted) ∧
      b.mem.deleted.Nodup ∧ destroy b.root b.mem = .ok ((), m) ∧
      m.nodes.length = b.mem.nodes.length ∧
      m.deleted.Perm (List.range m.nodes.length) :=
  node_accounts 2 (by decide) [.insert 1, .insert 2, .insert 3, .insert 4,
    .remove 1, .remove 2]

end BTree

end ParallelBTree.Ports
