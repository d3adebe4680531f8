import Mathlib.Data.List.Nodup
import ParallelBTree.Ports.NodeSteps
import ParallelBTree.Ports.DescentFill

/-!
# The member functions on trees in memory

Each member function that works on a few nodes takes a memory that holds a tree
to one that holds the tree `Ports.Descent` says, and touches those nodes only.

`Rep.rebuild` is where this comes from: after a call that touched a node `p` and
some of its kids, the tree is in memory again if `p` holds the new keys and
pointers and each new kid is live and has only kids of the old ones.
-/

namespace ParallelBTree.Ports.Represent

open ParallelBTree.Verified.Program
open ParallelBTree.Verified.Multiway
open ParallelBTree.Ports.NodeMemory
open ParallelBTree.Ports.Descent

section Rebuild

variable {m m' : Mem} {t n : Nat} {p : Addr} {K L : List Int}
  {A M N B : List (Tree Int n)}

private theorem flatMap_ids_perm (M : List (Tree Int n)) :
    (M.flatMap (ids n)).Perm
      (M.map Node.id ++ M.flatMap fun c => idsBelow n c.kids) := by
  induction M with
  | nil => exact List.Perm.refl _
  | cons c M ih =>
      simp only [List.flatMap_cons, List.map_cons, ids_eq c, List.cons_append]
      apply List.Perm.cons _
      apply (List.Perm.append_left _ ih).trans
      rw [← List.append_assoc, ← List.append_assoc]
      exact List.perm_append_comm.append_right _

/-- What is not touched when `p` and its kids `M` are: the other kids, and
everything below `M`. -/
theorem touched_apart (hnd : (ids (n + 1) ⟨p, K, A ++ (M ++ B)⟩).Nodup) :
    (p :: M.map Node.id).Nodup ∧
      ∀ q, (q ∈ A.flatMap (ids n) ∨ q ∈ B.flatMap (ids n) ∨
        q ∈ M.flatMap fun c => idsBelow n c.kids) →
        q ∉ p :: M.map Node.id := by
  have hperm : (ids (n + 1) ⟨p, K, A ++ (M ++ B)⟩).Perm
      ((p :: M.map Node.id) ++ (M.flatMap (fun c => idsBelow n c.kids) ++
        (A.flatMap (ids n) ++ B.flatMap (ids n)))) := by
    simp only [ids, List.flatMap_append, List.cons_append]
    apply List.Perm.cons _
    rw [← List.append_assoc, ← List.append_assoc (List.map _ _)]
    apply (List.perm_append_comm.append_right _).trans
    rw [List.append_assoc]
    exact (flatMap_ids_perm M).append_right _
  obtain ⟨htouched, -, hdisj⟩ := List.nodup_append'.mp (hperm.nodup_iff.mp hnd)
  refine ⟨htouched, fun q hq hmem => hdisj hmem ?_⟩
  simp only [List.mem_append]
  tauto

/-- The tree after a call that touched `p` and its kids `M`, and put the kids
`N` in their place. -/
theorem Rep.rebuild (h : Rep m t (n + 1) ⟨p, K, A ++ (M ++ B)⟩)
    (hnd : (ids (n + 1) ⟨p, K, A ++ (M ++ B)⟩).Nodup)
    (hother : ∀ q < m.nodes.length, q ∉ p :: M.map Node.id →
      m'.get q = m.get q)
    (hp : Live m' t p false L ((A ++ (N ++ B)).map Node.id))
    (hlive : ∀ x ∈ N, Live m' t x.id (isLeaf n) x.keys (ptrs n x.kids))
    (hkids : ∀ x ∈ N, ∀ k ∈ x.kids, ∃ c ∈ M, k ∈ c.kids) :
    Rep m' t (n + 1) ⟨p, L, A ++ (N ++ B)⟩ := by
  obtain ⟨-, hapart⟩ := touched_apart hnd
  have hkeep : ∀ c ∈ A ++ (M ++ B), (∀ q ∈ ids n c, q ∈ A.flatMap (ids n) ∨
      q ∈ B.flatMap (ids n)) → Rep m' t n c := by
    intro c hc hq
    refine (h.2 c hc).frame fun q hqc => hother q ((h.2 c hc).lt_length hqc) ?_
    rcases hq q hqc with hA | hB
    · exact hapart q (Or.inl hA)
    · exact hapart q (Or.inr (Or.inl hB))
  refine ⟨hp, fun x hx => ?_⟩
  simp only [List.mem_append] at hx
  rcases hx with hx | hx | hx
  · exact hkeep x (by simp [hx]) fun q hq =>
      Or.inl (List.mem_flatMap.mpr ⟨x, hx, hq⟩)
  · refine (rep_iff x).mpr ⟨hlive x hx, ?_⟩
    -- what is below the touched kids has not been touched
    have hbelow : ∀ c ∈ M, Reps m' t n c.kids := by
      intro c hc
      have hrep := h.2 c (by simp [hc])
      refine ((rep_iff c).mp hrep).2.frame fun q hq => ?_
      apply hother q (hrep.lt_length (by rw [ids_eq]; simp [hq]))
      exact hapart q (Or.inr (Or.inr (List.mem_flatMap.mpr ⟨c, hc, hq⟩)))
    cases n with
    | zero => trivial
    | succ n =>
        intro k hk
        obtain ⟨c, hc, hkc⟩ := hkids x hx k hk
        exact hbelow c hc k hkc
  · exact hkeep x (by simp [hx]) fun q hq =>
      Or.inr (List.mem_flatMap.mpr ⟨x, hx, hq⟩)

end Rebuild

section Siblings

variable {m : Mem} {t n : Nat} {P : (n : Nat) → Tree Int n → Prop} {p : Addr}
  {ka kb : List Int} {k x : Int} {A B : List (Tree Int n)} {c s : Tree Int n}

/-- A node and two of its kids. -/
theorem Rep.trio {K : List Int}
    (h : Rep m t (n + 1) ⟨p, K, A ++ ([c, s] ++ B)⟩)
    (hnd : (ids (n + 1) ⟨p, K, A ++ ([c, s] ++ B)⟩).Nodup) :
    Trio m p c.id s.id := by
  have hne := (touched_apart hnd).1
  simp only [List.map_cons, List.map_nil, List.nodup_cons, List.mem_cons,
    List.not_mem_nil, or_false, not_or] at hne
  obtain ⟨np, hp, -⟩ := h.1
  obtain ⟨nc, hc, -⟩ := (h.2 c (by simp)).root
  obtain ⟨ns, hs, -⟩ := (h.2 s (by simp)).root
  exact
    { p_ne_c := hne.1.1
      p_ne_s := hne.1.2
      c_ne_s := hne.2.1
      p_alive := ⟨np, hp⟩
      c_alive := ⟨nc, hc⟩
      s_alive := ⟨ns, hs⟩ }

/-- The trace a call leaves behind in front of everything else. -/
theorem Rep.view_called {T : Tree Int n} (h : Rep m t n T) (hT : Branching n T)
    (fn : Fn) (idx : Nat) (arg : Ptr) :
    Event.call ⟨fn, none, idx, arg, m.view T.id⟩ = called fn T idx arg := by
  rw [h.view_eq hT]
  rfl

private theorem ptrs_dropLast {C : List (Level Int n)} {l : Nat}
    (h : isLeaf n = false → C.length = l + 1) :
    ptrs n C.dropLast = (ptrs n C).take l ∧
      ptrs n C.getLast?.toList = (ptrs n C).drop l := by
  cases n with
  | zero => simp [ptrs]
  | succ n =>
      have hlen := h rfl
      cases C using List.reverseRecOn with
      | nil => simp at hlen
      | append_singleton C x =>
          obtain rfl : C.length = l := by simpa using hlen
          simp [ptrs]

theorem borrowFromPrev_refines
    (h : Rep m t (n + 1) ⟨p, ka ++ k :: kb, A ++ s :: c :: B⟩)
    (hnd : (ids (n + 1) ⟨p, ka ++ k :: kb, A ++ s :: c :: B⟩).Nodup)
    (hocc : Occupied t P n ⟨p, ka ++ k :: kb, A ++ s :: c :: B⟩)
    (hA : A.length = ka.length) (hx : s.keys.getLast? = some x)
    (hroom : c.size < 2 * t - 1) :
    Returns (BTreeNode.borrowFromPrev p (ka.length + 1)) m fun _ m' =>
      Rep m' t (n + 1) ⟨p, ka ++ x :: kb,
        A ++ s.init :: (s.last c.id).joined k c :: B⟩ ∧
      Effect m m' [p, c.id, s.id] 0 []
        (called .borrowFromPrev (Node.mk p (ka ++ k :: kb) (A ++ s :: c :: B) :
          Tree Int (n + 1)) (ka.length + 1) none ::
        staleCopy (Node.mk p (ka ++ k :: kb) (A ++ s :: c :: B) :
          Tree Int (n + 1)) ka.length) := by
  have hcb := (hocc.kid (by simp : c ∈ A ++ s :: c :: B)).2.branching
  have hsb := (hocc.kid (by simp : s ∈ A ++ s :: c :: B)).2.branching
  have htrio : Trio m p c.id s.id := (Rep.trio h hnd).swap
  obtain ⟨np, hp, hnp⟩ := h.1
  obtain ⟨nc, hc, hnc⟩ := (h.2 c (by simp)).root
  obtain ⟨ns, hs, hns⟩ := (h.2 s (by simp)).root
  have hskeys : s.keys = s.keys.dropLast ++ [x] := by
    have hne : s.keys ≠ [] := by
      intro hnil
      simp [hnil] at hx
    rw [List.getLast?_eq_some_getLast hne, Option.some.injEq] at hx
    rw [← hx, List.dropLast_append_getLast]
  have hslen : s.keys.length = s.keys.dropLast.length + 1 := by
    conv_lhs => rw [hskeys, List.length_append, List.length_singleton]
  rw [hskeys] at hns
  have hSP : isLeaf n = false →
      (ptrs n s.kids).length = s.keys.dropLast.length + 2 := fun hl => by
    rw [ptrs_length hsb hl, hslen]
  have hes : (Event.call ⟨.borrowFromPrev, none, ka.length + 1, none, m.view p⟩ ::
      if isLeaf n then [.unwritten s.id (s.keys.dropLast.length + 1)] else []) =
      called .borrowFromPrev (Node.mk p (ka ++ k :: kb) (A ++ s :: c :: B) :
        Tree Int (n + 1)) (ka.length + 1) none ::
        staleCopy (Node.mk p (ka ++ k :: kb) (A ++ s :: c :: B) :
          Tree Int (n + 1)) ka.length := by
    have hview := h.view_called hocc.branching .borrowFromPrev (ka.length + 1) none
    rw [← hview, ← hslen]
    simp [staleCopy, isLeaf, ← hA, Node.size]
  obtain ⟨htake, hdrop⟩ := ptrs_dropLast (n := n) (C := s.kids)
    (l := s.keys.dropLast.length + 1) fun hl => by
      rw [kids_length hsb hl, hslen]
  apply (borrowFromPrev_run htrio hp hc hs hnp hnc hns (by simp [← hA])
    (by simp [← hA]) (ptrs_length hcb) hSP hroom).mono
  rintro - m' ⟨np', nc', ns', rfl, hnp', hnc', hns'⟩
  rw [hes]
  generalize called _ _ _ _ :: staleCopy _ _ = es
  have htrio' : Trio (m.logs es) p c.id s.id := { htrio with }
  constructor
  · apply Rep.rebuild (M := [s, c]) (N := [s.init, (s.last c.id).joined k c])
      h hnd
    · intro q _ hq
      simp only [List.map_cons, List.map_nil, List.mem_cons, List.not_mem_nil,
        or_false, not_or] at hq
      exact Trio.get_other hq.1 hq.2.2 hq.2.1
    · refine ⟨np', htrio'.get_p, ?_⟩
      simpa [Node.init, Node.last] using hnp'
    · intro y hy
      simp only [List.mem_cons, List.not_mem_nil, or_false] at hy
      rcases hy with rfl | rfl
      · refine ⟨ns', htrio'.get_s, ?_⟩
        show Holds t (isLeaf n) s.keys.dropLast (ptrs n s.kids.dropLast) ns'
        rw [htake]
        exact hns'
      · refine ⟨nc', htrio'.get_c, ?_⟩
        show Holds t (isLeaf n) ([] ++ k :: c.keys)
          (ptrs n (s.kids.getLast?.toList ++ c.kids)) nc'
        rw [ptrs_append, hdrop]
        exact hnc'
    · intro y hy z hz
      simp only [List.mem_cons, List.not_mem_nil, or_false] at hy
      rcases hy with rfl | rfl
      · exact ⟨s, by simp, List.dropLast_subset _ hz⟩
      · rcases List.mem_append.mp hz with hz | hz
        · refine ⟨s, by simp, List.mem_of_getLast? ?_⟩
          simpa [Node.last] using hz
        · exact ⟨c, by simp, hz⟩
  · exact Effect.of_with3 m es p c.id s.id np' nc' ns'

theorem borrowFromNext_refines
    (h : Rep m t (n + 1) ⟨p, ka ++ k :: kb, A ++ c :: s :: B⟩)
    (hnd : (ids (n + 1) ⟨p, ka ++ k :: kb, A ++ c :: s :: B⟩).Nodup)
    (hocc : Occupied t P n ⟨p, ka ++ k :: kb, A ++ c :: s :: B⟩)
    (hA : A.length = ka.length) (hx : s.keys.head? = some x)
    (hroom : c.size < 2 * t - 1) :
    Returns (BTreeNode.borrowFromNext p ka.length) m fun _ m' =>
      Rep m' t (n + 1) ⟨p, ka ++ x :: kb,
        A ++ c.joined k (s.first s.id) :: s.rest :: B⟩ ∧
      Effect m m' [p, c.id, s.id] 0 []
        [called .borrowFromNext (Node.mk p (ka ++ k :: kb) (A ++ c :: s :: B) :
          Tree Int (n + 1)) ka.length none] := by
  have hcb := (hocc.kid (by simp : c ∈ A ++ c :: s :: B)).2.branching
  have hsb := (hocc.kid (by simp : s ∈ A ++ c :: s :: B)).2.branching
  have htrio : Trio m p c.id s.id := Rep.trio h hnd
  obtain ⟨np, hp, hnp⟩ := h.1
  obtain ⟨nc, hc, hnc⟩ := (h.2 c (by simp)).root
  obtain ⟨ns, hs, hns⟩ := (h.2 s (by simp)).root
  have hskeys : s.keys = x :: s.keys.drop 1 := by
    cases hkeys : s.keys with
    | nil => simp [hkeys] at hx
    | cons y ys =>
        rw [hkeys, List.head?_cons, Option.some.injEq] at hx
        rw [hx]
        rfl
  have hslen : s.keys.length = (s.keys.drop 1).length + 1 := by
    conv_lhs => rw [hskeys, List.length_cons]
  rw [hskeys] at hns
  have hSP : isLeaf n = false →
      (ptrs n s.kids).length = (s.keys.drop 1).length + 2 := fun hl => by
    rw [ptrs_length hsb hl, hslen]
  have hview := h.view_called hocc.branching .borrowFromNext ka.length none
  apply (borrowFromNext_run htrio hp hc hs hnp hnc hns (by simp [← hA])
    (by simp [← hA]) (ptrs_length hcb) hSP hroom).mono
  rintro - m' ⟨np', nc', ns', rfl, hnp', hnc', hns'⟩
  rw [hview]
  generalize [called _ _ _ _] = es
  have htrio' : Trio (m.logs es) p c.id s.id := { htrio with }
  constructor
  · apply Rep.rebuild (M := [c, s]) (N := [c.joined k (s.first s.id), s.rest])
      h hnd
    · intro q _ hq
      simp only [List.map_cons, List.map_nil, List.mem_cons, List.not_mem_nil,
        or_false, not_or] at hq
      exact Trio.get_other hq.1 hq.2.1 hq.2.2
    · refine ⟨np', htrio'.get_p, ?_⟩
      simpa [Node.rest] using hnp'
    · intro y hy
      simp only [List.mem_cons, List.not_mem_nil, or_false] at hy
      rcases hy with rfl | rfl
      · refine ⟨nc', htrio'.get_c, ?_⟩
        show Holds t (isLeaf n) (c.keys ++ [k])
          (ptrs n (c.kids ++ s.kids.take 1)) nc'
        rw [ptrs_append, ptrs_take]
        exact hnc'
      · refine ⟨ns', htrio'.get_s, ?_⟩
        show Holds t (isLeaf n) (s.keys.drop 1) (ptrs n (s.kids.drop 1)) ns'
        rw [ptrs_drop]
        exact hns'
    · intro y hy z hz
      simp only [List.mem_cons, List.not_mem_nil, or_false] at hy
      rcases hy with rfl | rfl
      · rcases List.mem_append.mp hz with hz | hz
        · exact ⟨c, by simp, hz⟩
        · exact ⟨s, by simp, List.mem_of_mem_take hz⟩
      · exact ⟨s, by simp, List.mem_of_mem_drop hz⟩
  · exact Effect.of_with3 m es p c.id s.id np' nc' ns'

theorem merge_refines
    (h : Rep m t (n + 1) ⟨p, ka ++ k :: kb, A ++ c :: s :: B⟩)
    (hnd : (ids (n + 1) ⟨p, ka ++ k :: kb, A ++ c :: s :: B⟩).Nodup)
    (hocc : Occupied t P n ⟨p, ka ++ k :: kb, A ++ c :: s :: B⟩)
    (hA : A.length = ka.length) (hB : B.length = kb.length)
    (hc1 : c.size + 1 = t) (hs1 : s.size + 1 = t) :
    Returns (BTreeNode.merge p ka.length) m fun _ m' =>
      Rep m' t (n + 1) ⟨p, ka ++ kb, A ++ c.joined k s :: B⟩ ∧
      Effect m m' [p, c.id, s.id] 0 [s.id]
        [called .merge (Node.mk p (ka ++ k :: kb) (A ++ c :: s :: B) :
          Tree Int (n + 1)) ka.length none] := by
  have hcb := (hocc.kid (by simp : c ∈ A ++ c :: s :: B)).2.branching
  have hsb := (hocc.kid (by simp : s ∈ A ++ c :: s :: B)).2.branching
  have htrio : Trio m p c.id s.id := Rep.trio h hnd
  obtain ⟨np, hp, hnp⟩ := h.1
  obtain ⟨nc, hc, hnc⟩ := (h.2 c (by simp)).root
  obtain ⟨ns, hs, hns⟩ := (h.2 s (by simp)).root
  have hnp' : Holds t false (ka ++ k :: kb)
      (A.map Node.id ++ c.id :: s.id :: B.map Node.id) np := by simpa using hnp
  have hview := h.view_called hocc.branching .merge ka.length none
  apply (merge_run htrio hp hc hs hnp' (by simp [hA]) (by simp [hB]) hnc hns
    (ptrs_length hcb) (ptrs_length hsb) hc1 hs1).mono
  rintro - m' ⟨np', nc', ns', rfl, hnp', hnc'⟩
  rw [hview]
  generalize [called _ _ _ _] = es
  have htrio' : Trio (m.logs es) p c.id s.id := { htrio with }
  constructor
  · apply Rep.rebuild (M := [c, s]) (N := [c.joined k s]) h hnd
    · intro q _ hq
      simp only [List.map_cons, List.map_nil, List.mem_cons, List.not_mem_nil,
        or_false, not_or] at hq
      rw [Mem.get_release_ne hq.2.2]
      exact Trio.get_other hq.1 hq.2.1 hq.2.2
    · refine ⟨np', ?_, by simpa using hnp'⟩
      rw [Mem.get_release_ne htrio.p_ne_s]
      exact htrio'.get_p
    · intro y hy
      obtain rfl := List.mem_singleton.mp hy
      refine ⟨nc', ?_, ?_⟩
      · rw [Node.joined_id, Mem.get_release_ne htrio.c_ne_s]
        exact htrio'.get_c
      · show Holds t (isLeaf n) (c.keys ++ k :: s.keys)
          (ptrs n (c.kids ++ s.kids)) nc'
        rw [ptrs_append]
        exact hnc'
    · intro y hy z hz
      obtain rfl := List.mem_singleton.mp hy
      rcases List.mem_append.mp hz with hz | hz
      · exact ⟨c, by simp, hz⟩
      · exact ⟨s, by simp, hz⟩
  · have hrel := (Effect.of_with3 m es p c.id s.id np' nc' ns').comp
      (Effect.of_release _ s.id) (H := [p, c.id, s.id])
      (fun _ hq => hq) fun q hq => Or.inl (by
        rw [List.mem_singleton.mp hq]
        simp)
    simpa using hrel

end Siblings

section Split

variable {m : Mem} {t n : Nat} {p : Addr} {ka kb : List Int} {k : Int}
  {A B : List (Tree Int n)} {y : Tree Int n}

theorem splitChild_refines (h : Rep m t (n + 1) ⟨p, ka ++ kb, A ++ y :: B⟩)
    (hnd : (ids (n + 1) ⟨p, ka ++ kb, A ++ y :: B⟩).Nodup)
    (hbr : Branching (n + 1) (Node.mk p (ka ++ kb) (A ++ y :: B) :
      Tree Int (n + 1)))
    (hyb : Branching n y) (hA : A.length = ka.length)
    (hB : B.length = kb.length) {K : List Int}
    (hk : y.keys.drop (t - 1) = k :: K) (ht : 1 ≤ t)
    (hfull : y.size = 2 * t - 1) (hroom : (ka ++ kb).length < 2 * t - 1)
    (hm : m.nodes.length ∉ m.deleted) :
    Returns (BTreeNode.splitChild p ka.length y.id) m fun _ m' =>
      Rep m' t (n + 1) ⟨p, ka ++ k :: kb,
        A ++ y.splitLeft t :: y.splitRight t m.nodes.length :: B⟩ ∧
      Effect m m' [p, y.id] 1 []
        [called .splitChild (Node.mk p (ka ++ kb) (A ++ y :: B) :
          Tree Int (n + 1)) ka.length (some y.id)] := by
  obtain ⟨np, hp, hnp⟩ := h.1
  obtain ⟨ny, hy, hny⟩ := (h.2 y (by simp)).root
  have hpy : p ≠ y.id := by
    have hne := (touched_apart (M := [y]) hnd).1
    simpa using hne
  have hnp' : Holds t false (ka ++ kb)
      (A.map Node.id ++ y.id :: B.map Node.id) np := by simpa using hnp
  simp only [Node.size] at hfull
  have hdrop : y.keys.drop t = K := by
    have htail := congrArg (List.drop 1) hk
    rw [List.drop_drop, Nat.sub_add_cancel ht] at htail
    simpa using htail
  have hykeys : y.keys = y.keys.take (t - 1) ++ k :: y.keys.drop t := by
    rw [hdrop, ← hk, List.take_append_drop]
  have hyptrs : ptrs n y.kids =
      (ptrs n y.kids).take t ++ (ptrs n y.kids).drop t :=
    (List.take_append_drop t _).symm
  rw [hykeys, hyptrs] at hny
  have hlen : isLeaf n = false → (ptrs n y.kids).length = 2 * t := fun hl => by
    rw [ptrs_length hyb hl, hfull]
    omega
  have hview := h.view_called hbr .splitChild ka.length (some y.id)
  apply (splitChild_run hpy hp hy hm hnp' (by simp [hA]) (by simp [hB]) hny
    (by rw [List.length_take]; omega) (by rw [List.length_drop]; omega)
    (fun hl => by rw [List.length_take, hlen hl]; omega)
    (fun hl => by rw [List.length_drop, hlen hl]; omega) hroom).mono
  rintro - m' ⟨np', ny', nz', rfl, hnp', hny', hnz'⟩
  rw [hview]
  generalize [called _ _ _ _] = es
  have htrio : Trio ((m.logs es).push (.new t (isLeaf n))) p y.id
      m.nodes.length := Trio.of_push (m := m.logs es) hpy hp hy hm _
  constructor
  · apply Rep.rebuild (M := [y])
      (N := [y.splitLeft t, y.splitRight t m.nodes.length]) h hnd
    · intro q hq hqt
      simp only [List.map_cons, List.map_nil, List.mem_cons, List.not_mem_nil,
        or_false, not_or] at hqt
      rw [Trio.get_other hqt.1 hqt.2 hq.ne]
      exact Mem.get_push_lt (m := m.logs es) hq
    · refine ⟨np', htrio.get_p, ?_⟩
      simpa [Node.splitLeft, Node.splitRight] using hnp'
    · intro x hx
      simp only [List.mem_cons, List.not_mem_nil, or_false] at hx
      rcases hx with rfl | rfl
      · refine ⟨ny', htrio.get_c, ?_⟩
        show Holds t (isLeaf n) (y.keys.take (t - 1)) (ptrs n (y.kids.take t)) ny'
        rw [ptrs_take]
        exact hny'
      · refine ⟨nz', htrio.get_s, ?_⟩
        show Holds t (isLeaf n) (y.keys.drop t) (ptrs n (y.kids.drop t)) nz'
        rw [ptrs_drop]
        exact hnz'
    · intro x hx z hz
      simp only [List.mem_cons, List.not_mem_nil, or_false] at hx
      rcases hx with rfl | rfl
      · exact ⟨y, by simp, List.mem_of_mem_take hz⟩
      · exact ⟨y, by simp, List.mem_of_mem_drop hz⟩
  · have hpush := (Effect.of_logs m es).comp
      (Effect.of_push (m.logs es) (.new t (isLeaf n))) (H := [])
      (List.nil_subset _) (fun _ hq => Or.inl hq)
    have hset := hpush.comp (Effect.of_with3 _ [] p y.id m.nodes.length np' ny'
      nz') (H := [p, y.id]) (List.nil_subset _) fun q hq => by
        simp only [List.mem_cons, List.not_mem_nil, or_false] at hq ⊢
        rcases hq with rfl | rfl | rfl
        · exact Or.inl (Or.inl rfl)
        · exact Or.inl (Or.inr rfl)
        · exact Or.inr (Nat.le_refl _)
    simpa [Mem.logs] using hset

end Split

section Fill

variable {m : Mem} {t n : Nat} {P : (n : Nat) → Tree Int n → Prop}

/-- `idx != 0 && children[idx - 1]->keysnum >= t` -/
private theorem fromPrev_run {T : Tree Int (n + 1)} (h : Rep m t (n + 1) T)
    {idx : Nat} (hidx : idx ≤ T.kids.length) {nd : BTreeNode} (hnd : nd.t = t) :
    (if idx ≠ 0 then do
        pure (decide (nd.t ≤ (← node (← child T.id (← below idx))).keysnum))
      else pure false : M Bool) m =
      .ok (decide (idx ≠ 0 ∧ t ≤ kidSize T (idx - 1)), m) := by
  by_cases h0 : idx ≠ 0
  · have hlt : idx - 1 < T.kids.length := by omega
    have hc := List.getElem?_eq_getElem hlt
    obtain ⟨hchild, nc, hnode, hsize⟩ := h.kid_run hc
    rw [if_pos h0, bind_run_ok (below_run (by omega)), bind_run_ok hchild,
      bind_run_ok hnode, hsize, hnd, kidSize, hc]
    simp [h0]
  · rw [if_neg h0]
    simp [h0]

/-- `idx != keysnum && children[idx + 1]->keysnum >= t` -/
private theorem fromNext_run {T : Tree Int (n + 1)} (h : Rep m t (n + 1) T)
    {idx : Nat} (hlen : T.kids.length = T.size + 1) (hidx : idx ≤ T.size)
    {nd : BTreeNode} (hnd : nd.t = t) (hnum : nd.keysnum = T.size) :
    (if idx ≠ nd.keysnum then do
        pure (decide (nd.t ≤ (← node (← child T.id (idx + 1))).keysnum))
      else pure false : M Bool) m =
      .ok (decide (idx ≠ T.size ∧ t ≤ kidSize T (idx + 1)), m) := by
  rw [hnum]
  by_cases h0 : idx ≠ T.size
  · have hlt : idx + 1 < T.kids.length := by omega
    have hc := List.getElem?_eq_getElem hlt
    obtain ⟨hchild, nc, hnode, hsize⟩ := h.kid_run hc
    rw [if_pos h0, bind_run_ok hchild, bind_run_ok hnode, hsize, hnd, kidSize,
      hc]
    simp [h0]
  · rw [if_neg h0]
    simp [h0]

/-- `fill(idx)`, on a node of which kid `idx` holds `t - 1` keys. -/
theorem fill_refines {T : Tree Int (n + 1)} {idx : Nat} (ht : 2 ≤ t)
    (h : Rep m t (n + 1) T) (hnd : (ids (n + 1) T).Nodup)
    (hocc : Occupied t P n T) (hsize : 1 ≤ T.size) (hidx : idx ≤ T.size)
    (hlow : kidSize T idx < t) :
    Returns (BTreeNode.fill T.id idx) m fun _ m' =>
      Rep m' t (n + 1) (fill t T idx).tree ∧
      Effect m m' (ids (n + 1) T) 0 (fill t T idx).freed
        (fill t T idx).trace := by
  have hlen : T.kids.length = T.size + 1 := hocc.2.1
  obtain ⟨np, hp, hnp⟩ := h.1
  have hview := h.view_called hocc.branching .fill idx none
  have hrec : record .fill none T.id idx none m =
      .ok ((), m.logs [called .fill T idx none]) := by
    rw [← hview]
    rfl
  have h₁ : Rep (m.logs [called .fill T idx none]) t (n + 1) T :=
    h.frame fun _ _ => rfl
  have heff := Effect.of_logs m [called .fill T idx none]
  unfold BTreeNode.fill
  apply Returns.step hrec
  apply Returns.step (node_run (m := m.logs _) hp)
  apply Returns.step (fromPrev_run h₁ (by omega) hnp.t_eq)
  generalize m.logs [called .fill T idx none] = m₁ at *
  -- what a step on `p` and two of its kids has to do with the whole
  have hwhole : ∀ {m' : Mem} {U : Tree Int (n + 1)} {c s : Tree Int n}
      {fr : List Addr} {tr : List Event}, c ∈ T.kids → s ∈ T.kids →
      Rep m' t (n + 1) U ∧ Effect m₁ m' [T.id, c.id, s.id] 0 fr tr →
      Rep m' t (n + 1) U ∧ Effect m m' (ids (n + 1) T) 0 fr
        (called .fill T idx none :: tr) := by
    intro m' U c s fr tr hc hs hpost
    refine ⟨hpost.1, ?_⟩
    have hcomp := heff.comp hpost.2 (H := ids (n + 1) T) (List.nil_subset _)
      fun q hq => Or.inl (by
        simp only [List.mem_cons, List.not_mem_nil, or_false] at hq
        rcases hq with rfl | rfl | rfl
        · exact id_mem_ids (n + 1) T
        · exact ids_kid_subset hc (id_mem_ids n c)
        · exact ids_kid_subset hs (id_mem_ids n s))
    simpa using hcomp
  obtain ⟨p, K, C⟩ := T
  simp only [Node.size_mk] at hsize hidx hlen
  by_cases hprev : idx ≠ 0 ∧
      t ≤ kidSize (Node.mk p K C : Tree Int (n + 1)) (idx - 1)
  · rw [if_pos (decide_eq_true hprev), fill, if_pos hprev]
    obtain ⟨h0, hps⟩ := hprev
    obtain ⟨i, rfl⟩ : ∃ i, idx = i + 1 := ⟨idx - 1, by omega⟩
    obtain ⟨ka, k, kb, A, s, c, B, rfl, rfl, rfl, hA, hB⟩ :=
      exists_cut_pair hlen (by omega : i < K.length)
    rw [Nat.add_sub_cancel, kidSize_mk hA] at hps
    rw [kidSize_mk_succ hA] at hlow
    obtain ⟨x, hx⟩ := exists_getLast? (by omega) hps
    simp only [Nat.add_sub_cancel]
    rw [rotateRight_mk rfl hA hx]
    apply (borrowFromPrev_refines h₁ hnd hocc hA hx (by omega)).mono
    intro _ m' hpost
    exact hwhole (by simp) (by simp) hpost
  rw [if_neg (by simp [hprev]), fill, if_neg hprev]
  apply Returns.step (fromNext_run h₁ hlen hidx hnp.t_eq hnp.keysnum_eq)
  by_cases hnext : idx ≠ (Node.mk p K C : Tree Int (n + 1)).size ∧
      t ≤ kidSize (Node.mk p K C : Tree Int (n + 1)) (idx + 1)
  · rw [if_pos (decide_eq_true hnext), if_pos hnext]
    obtain ⟨hne, hns⟩ := hnext
    simp only [Node.size_mk] at hne
    obtain ⟨ka, k, kb, A, c, s, B, rfl, rfl, rfl, hA, hB⟩ :=
      exists_cut_pair hlen (by omega : idx < K.length)
    rw [kidSize_mk_succ hA] at hns
    rw [kidSize_mk hA] at hlow
    obtain ⟨x, hx⟩ := exists_head? (by omega) hns
    rw [rotateLeft_mk rfl hA hx]
    apply (borrowFromNext_refines h₁ hnd hocc hA hx (by omega)).mono
    intro _ m' hpost
    exact hwhole (by simp) (by simp) hpost
  rw [if_neg (by simp only [hnext, decide_false]; exact Bool.false_ne_true),
    if_neg hnext]
  have hnum : np.keysnum = (Node.mk p K C : Tree Int (n + 1)).size :=
    hnp.keysnum_eq
  rw [hnum]
  by_cases hlast : idx ≠ (Node.mk p K C : Tree Int (n + 1)).size
  · rw [if_pos hlast, if_pos hlast]
    simp only [Node.size_mk] at hlast
    obtain ⟨ka, k, kb, A, c, s, B, rfl, rfl, rfl, hA, hB⟩ :=
      exists_cut_pair hlen (by omega : idx < K.length)
    rw [kidSize_mk_succ hA, Node.size_mk, not_and, Nat.not_le] at hnext
    rw [kidSize_mk hA] at hlow
    have hc := (hocc.kid (by simp : c ∈ A ++ c :: s :: B)).1
    have hs := (hocc.kid (by simp : s ∈ A ++ c :: s :: B)).1
    have hslow := hnext hlast
    rw [merge_mk rfl hA, kidId_mk_succ hA]
    apply (merge_refines h₁ hnd hocc hA hB.symm (by omega) (by omega)).mono
    intro _ m' hpost
    exact hwhole (by simp) (by simp) hpost
  · rw [if_neg hlast, if_neg hlast]
    simp only [Node.size_mk, ne_eq, not_not] at hlast
    obtain ⟨i, rfl⟩ : ∃ i, idx = i + 1 := ⟨idx - 1, by omega⟩
    obtain ⟨ka, k, kb, A, s, c, B, rfl, rfl, rfl, hA, hB⟩ :=
      exists_cut_pair hlen (by omega : i < K.length)
    rw [Nat.add_sub_cancel, kidSize_mk hA, not_and, Nat.not_le] at hprev
    rw [kidSize_mk_succ hA] at hlow
    have hc := (hocc.kid (by simp : c ∈ A ++ s :: c :: B)).1
    have hs := (hocc.kid (by simp : s ∈ A ++ s :: c :: B)).1
    have hslow := hprev (Nat.succ_ne_zero _)
    apply Returns.step (below_run (by omega))
    simp only [Nat.add_sub_cancel]
    rw [merge_mk rfl hA, kidId_mk_succ hA]
    apply (merge_refines h₁ hnd hocc hA hB.symm (by omega) (by omega)).mono
    intro _ m' hpost
    exact hwhole (by simp) (by simp) hpost

end Fill

end ParallelBTree.Ports.Represent
