import ParallelBTree.Ports.FillPrepares
import ParallelBTree.Ports.RefineInsert

/-!
# Restructuring steps undo each other

`splitChild` and `merge`, and `borrowFromPrev` and `borrowFromNext`, are inverse
to each other on the live content of the nodes they work on.  Nothing is assumed
of the tree around these nodes, nor below them: `OneChild` and `Siblings` are a
node with one or two of its children, in any memory.  What counts of a node is
`Live`, read off the bare memory: its leaf flag, its live keys and, unless it is
a leaf, its live children.

Each step is described once, as a passage from one such picture to another, then
carried over from the bare memory to the memory itself; the round trips are two
passages in a row.

## Main results

* `restructuring_undone` — the four round trips.
-/

namespace ParallelBTree.Ports.Represent

open ParallelBTree.Verified.Program
open ParallelBTree.Verified.Relational
open ParallelBTree.Verified.Slots
open ParallelBTree.Ports.NodeMemory

/-- How many live children a node with `l` keys has. -/
def kidCount (leaf : Bool) (l : Nat) : Nat := if leaf then 0 else l + 1

/-- A node `p` and its child `y`, behind `PA` and before `PB`. -/
structure OneChild (m : Mem) (t : Nat) (p : Addr) (ka kb : List Int)
    (PA PB : List Addr) (leaf : Bool) (y : Addr) (yk : List Int)
    (YP : List Addr) : Prop where
  apart : p ≠ y
  lengthA : PA.length = ka.length
  lengthB : PB.length = kb.length
  parent : Live m t p false (ka ++ kb) (PA ++ y :: PB)
  child : Live m t y leaf yk YP
  kids : YP.length = kidCount leaf yk.length

/-- A node `p` and its neighbouring children `l` and `r`, both leaves or both
not, with the key `k` between them. -/
structure Siblings (m : Mem) (t : Nat) (p : Addr) (ka : List Int) (k : Int)
    (kb : List Int) (PA PB : List Addr) (leaf : Bool) (l r : Addr)
    (lk rk : List Int) (LP RP : List Addr) : Prop where
  apart : [p, l, r].Nodup
  lengthA : PA.length = ka.length
  lengthB : PB.length = kb.length
  parent : Live m t p false (ka ++ k :: kb) (PA ++ l :: r :: PB)
  left : Live m t l leaf lk LP
  right : Live m t r leaf rk RP
  kidsL : LP.length = kidCount leaf lk.length
  kidsR : RP.length = kidCount leaf rk.length

/-- Of the nodes there were, only `ps` may have changed. -/
def Untouched (m m' : Mem) (ps : List Addr) : Prop :=
  ∀ q < m.nodes.length, q ∉ ps → m'.get q = m.get q

section Steps

variable {m : Mem} {t : Nat} {p y l r : Addr} {ka kb yk lk rk yl yr : List Int}
  {k x : Int} {PA PB YP LP RP : List Addr} {leaf : Bool}

theorem kidCount_inner {n : Nat} (h : YP.length = kidCount leaf n)
    (hleaf : leaf = false) : YP.length = n + 1 := by
  rw [h, kidCount, if_neg (by simp [hleaf])]

/-- Lengths that agree for leaves and for inner nodes agree. -/
theorem kidCount_of {n : Nat} (htrue : leaf = true → YP.length = 0)
    (hfalse : leaf = false → YP.length = n + 1) :
    YP.length = kidCount leaf n := by
  cases leaf with
  | true => exact htrue rfl
  | false => exact hfalse rfl

theorem kidCount_leaf {n : Nat} (h : YP.length = kidCount leaf n)
    (hleaf : leaf = true) : YP = [] := by
  rw [kidCount, if_pos hleaf] at h
  exact List.length_eq_zero_iff.mp h

theorem Siblings.trio (h : Siblings m t p ka k kb PA PB leaf l r lk rk LP RP) :
    Trio m p l r := by
  have hne := h.apart
  simp only [List.nodup_cons, List.mem_cons, List.not_mem_nil, or_false, not_or]
    at hne
  obtain ⟨np, hp, -⟩ := h.parent
  obtain ⟨nl, hl, -⟩ := h.left
  obtain ⟨nr, hr, -⟩ := h.right
  exact ⟨hne.1.1, hne.1.2, hne.2.1, ⟨np, hp⟩, ⟨nl, hl⟩, ⟨nr, hr⟩⟩

theorem Trio.untouched {es : List Event} {np nl nr : BTreeNode} :
    Untouched m ((m.logs es).with3 p l r np nl nr) [p, l, r] := by
  intro q _ hq
  simp only [List.mem_cons, List.not_mem_nil, or_false, not_or] at hq
  exact Trio.get_other hq.1 hq.2.1 hq.2.2

/-- A key goes from the left child to the right one. -/
theorem Siblings.borrowFromPrev
    (h : Siblings m t p ka k kb PA PB leaf l r (lk ++ [x]) rk LP RP)
    (hroom : rk.length < 2 * t - 1) :
    Returns (BTreeNode.borrowFromPrev p (ka.length + 1)) m fun _ m' =>
      Siblings m' t p ka x kb PA PB leaf l r lk (k :: rk)
        (LP.take (lk.length + 1)) (LP.drop (lk.length + 1) ++ RP) ∧
      Untouched m m' [p, l, r] ∧ m'.nodes.length = m.nodes.length ∧
      m'.deleted = m.deleted := by
  have htrio := h.trio
  obtain ⟨np, hp, hnp⟩ := h.parent
  obtain ⟨nl, hl, hnl⟩ := h.left
  obtain ⟨nr, hr, hnr⟩ := h.right
  have hLP : leaf = false → LP.length = lk.length + 2 := fun hleaf => by
    rw [kidCount_inner h.kidsL hleaf, List.length_append]
    rfl
  have hRP : leaf = false → RP.length = rk.length + 1 :=
    kidCount_inner h.kidsR
  apply (borrowFromPrev_run htrio.swap hp hr hl hnp hnr hnl
    (by simp [← h.lengthA]) (by simp [← h.lengthA]) hRP hLP hroom).mono
  rintro - m' ⟨np', nr', nl', rfl, hnp', hnr', hnl'⟩
  generalize (_ :: if leaf then _ else _) = es
  have htrio' : Trio (m.logs es) p r l := { htrio.swap with }
  refine ⟨?_, ?_, by simp [Mem.with3, Mem.logs], rfl⟩
  · exact
      { apart := h.apart
        lengthA := h.lengthA
        lengthB := h.lengthB
        parent := ⟨np', htrio'.get_p, hnp'⟩
        left := ⟨nl', htrio'.get_s, hnl'⟩
        right := ⟨nr', htrio'.get_c, hnr'⟩
        kidsL := by
          apply kidCount_of
          · intro hleaf
            rw [kidCount_leaf h.kidsL hleaf]
            rfl
          · intro hleaf
            rw [List.length_take, hLP hleaf]
            omega
        kidsR := by
          apply kidCount_of
          · intro hleaf
            rw [kidCount_leaf h.kidsL hleaf, kidCount_leaf h.kidsR hleaf]
            rfl
          · intro hleaf
            rw [List.length_append, List.length_drop, hLP hleaf, hRP hleaf,
              List.length_cons]
            omega }
  · intro q hq hmem
    exact Trio.untouched q hq fun hin => hmem (by
      simp only [List.mem_cons] at hin ⊢
      tauto)

/-- A key goes from the right child to the left one. -/
theorem Siblings.borrowFromNext
    (h : Siblings m t p ka k kb PA PB leaf l r lk (x :: rk) LP RP)
    (hroom : lk.length < 2 * t - 1) :
    Returns (BTreeNode.borrowFromNext p ka.length) m fun _ m' =>
      Siblings m' t p ka x kb PA PB leaf l r (lk ++ [k]) rk
        (LP ++ RP.take 1) (RP.drop 1) ∧
      Untouched m m' [p, l, r] ∧ m'.nodes.length = m.nodes.length ∧
      m'.deleted = m.deleted := by
  have htrio := h.trio
  obtain ⟨np, hp, hnp⟩ := h.parent
  obtain ⟨nl, hl, hnl⟩ := h.left
  obtain ⟨nr, hr, hnr⟩ := h.right
  have hLP : leaf = false → LP.length = lk.length + 1 :=
    kidCount_inner h.kidsL
  have hRP : leaf = false → RP.length = rk.length + 2 := fun hleaf => by
    rw [kidCount_inner h.kidsR hleaf, List.length_cons]
  apply (borrowFromNext_run htrio hp hl hr hnp hnl hnr (by simp [← h.lengthA])
    (by simp [← h.lengthA]) hLP hRP hroom).mono
  rintro - m' ⟨np', nl', nr', rfl, hnp', hnl', hnr'⟩
  generalize [_] = es
  have htrio' : Trio (m.logs es) p l r := { htrio with }
  refine ⟨?_, Trio.untouched, by simp [Mem.with3, Mem.logs], rfl⟩
  exact
    { apart := h.apart
      lengthA := h.lengthA
      lengthB := h.lengthB
      parent := ⟨np', htrio'.get_p, hnp'⟩
      left := ⟨nl', htrio'.get_c, hnl'⟩
      right := ⟨nr', htrio'.get_s, hnr'⟩
      kidsL := by
        apply kidCount_of
        · intro hleaf
          rw [kidCount_leaf h.kidsL hleaf, kidCount_leaf h.kidsR hleaf]
          rfl
        · intro hleaf
          rw [List.length_append, List.length_take, hLP hleaf, hRP hleaf,
            List.length_append, List.length_singleton]
          omega
      kidsR := by
        apply kidCount_of
        · intro hleaf
          rw [kidCount_leaf h.kidsR hleaf]
          rfl
        · intro hleaf
          rw [List.length_drop, hRP hleaf]
          omega }

/-- The right child and the key go into the left one. -/
theorem Siblings.merge
    (h : Siblings m t p ka k kb PA PB leaf l r lk rk LP RP)
    (hlk : lk.length + 1 = t) (hrk : rk.length + 1 = t) :
    Returns (BTreeNode.merge p ka.length) m fun _ m' =>
      OneChild m' t p ka kb PA PB leaf l (lk ++ k :: rk) (LP ++ RP) ∧
      Untouched m m' [p, l, r] ∧ m'.nodes.length = m.nodes.length ∧
      m'.deleted = m.deleted ++ [r] := by
  have htrio := h.trio
  obtain ⟨np, hp, hnp⟩ := h.parent
  obtain ⟨nl, hl, hnl⟩ := h.left
  obtain ⟨nr, hr, hnr⟩ := h.right
  have hLP := kidCount_inner h.kidsL
  have hRP := kidCount_inner h.kidsR
  apply (merge_run htrio hp hl hr hnp h.lengthA h.lengthB hnl hnr hLP hRP hlk
    hrk).mono
  rintro - m' ⟨np', nl', nr', rfl, hnp', hnl'⟩
  generalize [_] = es
  have htrio' : Trio (m.logs es) p l r := { htrio with }
  refine ⟨?_, ?_, by simp [Mem.release, Mem.with3, Mem.logs], rfl⟩
  · exact
      { apart := htrio.p_ne_c
        lengthA := h.lengthA
        lengthB := h.lengthB
        parent := ⟨np', (Mem.get_release_ne htrio.p_ne_s).trans htrio'.get_p,
          hnp'⟩
        child := ⟨nl', (Mem.get_release_ne htrio.c_ne_s).trans htrio'.get_c,
          hnl'⟩
        kids := by
          apply kidCount_of
          · intro hleaf
            rw [kidCount_leaf h.kidsL hleaf, kidCount_leaf h.kidsR hleaf]
            rfl
          · intro hleaf
            rw [List.length_append, hLP hleaf, hRP hleaf, List.length_append,
              List.length_cons]
            omega }
  · intro q hq hmem
    have hne : q ≠ r := fun heq => hmem (by simp [heq])
    rw [Mem.get_release_ne hne]
    exact Trio.untouched q hq hmem

/-- The child gives its middle key away, and what is behind it to a new node. -/
theorem OneChild.splitChild
    (h : OneChild m t p ka kb PA PB leaf y (yl ++ k :: yr) YP)
    (hyl : yl.length + 1 = t) (hyr : yr.length + 1 = t)
    (hroom : (ka ++ kb).length < 2 * t - 1) (hold : DeletedOld m) :
    Returns (BTreeNode.splitChild p ka.length y) m fun _ m' =>
      Siblings m' t p ka k kb PA PB leaf y m.nodes.length yl yr (YP.take t)
        (YP.drop t) ∧
      Untouched m m' [p, y] ∧ m'.nodes.length = m.nodes.length + 1 ∧
      m'.deleted = m.deleted := by
  obtain ⟨np, hp, hnp⟩ := h.parent
  obtain ⟨ny, hy, hny⟩ := h.child
  have hYP : leaf = false → YP.length = 2 * t := fun hleaf => by
    rw [kidCount_inner h.kids hleaf, List.length_append, List.length_cons]
    omega
  have htake : leaf = false → (YP.take t).length = t := fun hleaf => by
    rw [List.length_take, hYP hleaf]
    omega
  have hdrop : leaf = false → (YP.drop t).length = t := fun hleaf => by
    rw [List.length_drop, hYP hleaf]
    omega
  rw [← List.take_append_drop t YP] at hny
  apply (splitChild_run h.apart hp hy hold.fresh hnp h.lengthA h.lengthB hny hyl
    hyr htake hdrop hroom).mono
  rintro - m' ⟨np', ny', nz', rfl, hnp', hny', hnz'⟩
  generalize [_] = es
  have htrio : Trio ((m.logs es).push (.new t leaf)) p y m.nodes.length :=
    Trio.of_push (m := m.logs es) h.apart hp hy hold.fresh _
  refine ⟨?_, ?_, by simp [Mem.push, Mem.with3, Mem.logs], rfl⟩
  · exact
      { apart := by
          simp [htrio.p_ne_c, htrio.p_ne_s, htrio.c_ne_s]
        lengthA := h.lengthA
        lengthB := h.lengthB
        parent := ⟨np', htrio.get_p, hnp'⟩
        left := ⟨ny', htrio.get_c, hny'⟩
        right := ⟨nz', htrio.get_s, hnz'⟩
        kidsL := by
          apply kidCount_of
          · intro hleaf
            rw [kidCount_leaf h.kids hleaf, List.take_nil]
            rfl
          · exact fun hleaf => (htake hleaf).trans hyl.symm
        kidsR := by
          apply kidCount_of
          · intro hleaf
            rw [kidCount_leaf h.kids hleaf, List.drop_nil]
            rfl
          · exact fun hleaf => (hdrop hleaf).trans hyr.symm }
  · intro q hq hmem
    simp only [List.mem_cons, List.not_mem_nil, or_false, not_or] at hmem
    rw [Trio.get_other hmem.1 hmem.2 hq.ne]
    exact Mem.get_push_lt (m := m.logs es) hq

end Steps

/-! ## The same steps, whatever leaves' child slots hold -/

section Lifting

variable {m : Mem} {t : Nat} {p y l r : Addr} {ka kb yk lk rk yl yr : List Int}
  {k x : Int} {PA PB YP LP RP : List Addr} {leaf : Bool}

theorem OneChild.bare (h : OneChild m t p ka kb PA PB leaf y yk YP) :
    OneChild m.bare t p ka kb PA PB leaf y yk YP :=
  { h with
    parent := h.parent.bare
    child := h.child.bare }

theorem Siblings.bare (h : Siblings m t p ka k kb PA PB leaf l r lk rk LP RP) :
    Siblings m.bare t p ka k kb PA PB leaf l r lk rk LP RP :=
  { h with
    parent := h.parent.bare
    left := h.left.bare
    right := h.right.bare }

theorem Untouched.bare {m₀ : Mem} {ps : List Addr} (h : Untouched m.bare m₀ ps) :
    Untouched m.bare m₀.bare ps := by
  intro q hq hmem
  rw [Mem.get_bare, h q hq hmem, ← Mem.get_bare, Mem.bare_bare]

theorem Live.flag (h : Live m t p leaf yk YP) : m.flag p = some leaf := by
  obtain ⟨nd, hget, hnd⟩ := h
  rw [Mem.flag_of_get hget, hnd.leaf_eq]

theorem Live.of_bare (h : Live m.bare t p false yk YP) :
    Live m t p false yk YP := by
  obtain ⟨nd₀, hget₀, hnd⟩ := h
  rw [Mem.get_bare] at hget₀
  obtain ⟨nd, hget, rfl⟩ := Option.map_eq_some_iff.mp hget₀
  have hleaf : nd.leaf = false := hnd.leaf_eq
  rw [BTreeNode.bare_inner hleaf] at hnd
  exact ⟨nd, hget, hnd⟩

theorem Live.points (h : Live m t p false yk YP) {i : Nat} {c : Addr}
    (hc : YP[i]? = some c) : Points p i c m := by
  obtain ⟨nd, hget, hnd⟩ := h
  exact ⟨nd, hget, hnd.leaf_eq, hnd.kid_at hc⟩

theorem Siblings.pair (h : Siblings m t p ka k kb PA PB leaf l r lk rk LP RP) :
    Pair p ka.length l r leaf m := by
  refine ⟨h.parent.points (by simp [← h.lengthA]),
    h.parent.points (by simp [← h.lengthA]), ?_⟩
  intro e he
  simp only [List.mem_cons, List.not_mem_nil, or_false] at he
  rcases he with rfl | rfl | rfl
  · exact h.parent.flag
  · exact h.left.flag
  · exact h.right.flag

/-- A step that is known on the bare memory. -/
theorem step_bare {I P : Mem → Prop} {f : M Unit} {ps : List Addr} {c : Nat}
    {d : List Addr}
    (hf : Follows (Same I) f f fun _ _ m m₀ => m.bare = m₀.bare) (hI : I m.bare)
    (hP : ∀ m₀, P m₀ → P m₀.bare)
    (h : Returns f m.bare fun _ m' => P m' ∧ Untouched m.bare m' ps ∧
      m'.nodes.length = c ∧ m'.deleted = d) :
    Returns f m fun _ m' => P m'.bare ∧ Untouched m.bare m'.bare ps ∧
      m'.bare.nodes.length = c ∧ m'.bare.deleted = d := by
  apply (hf.returns ⟨(Mem.bare_bare m).symm, hI⟩ h).mono
  rintro - m' ⟨-, m₀, hbare, hpost, huntouched, hnodes, hdeleted⟩
  rw [hbare]
  exact ⟨hP m₀ hpost, huntouched.bare, by rwa [Mem.bare_nodes_length], hdeleted⟩

theorem Siblings.borrowFromPrev_bare
    (h : Siblings m.bare t p ka k kb PA PB leaf l r (lk ++ [x]) rk LP RP)
    (hroom : rk.length < 2 * t - 1) :
    Returns (BTreeNode.borrowFromPrev p (ka.length + 1)) m fun _ m' =>
      Siblings m'.bare t p ka x kb PA PB leaf l r lk (k :: rk)
        (LP.take (lk.length + 1)) (LP.drop (lk.length + 1) ++ RP) ∧
      Untouched m.bare m'.bare [p, l, r] ∧
      m'.bare.nodes.length = m.bare.nodes.length ∧
      m'.bare.deleted = m.bare.deleted :=
  step_bare (borrowFromPrev_follows _) h.pair (fun _ h => h.bare)
    (h.borrowFromPrev hroom)

theorem Siblings.borrowFromNext_bare
    (h : Siblings m.bare t p ka k kb PA PB leaf l r lk (x :: rk) LP RP)
    (hroom : lk.length < 2 * t - 1) :
    Returns (BTreeNode.borrowFromNext p ka.length) m fun _ m' =>
      Siblings m'.bare t p ka x kb PA PB leaf l r (lk ++ [k]) rk
        (LP ++ RP.take 1) (RP.drop 1) ∧
      Untouched m.bare m'.bare [p, l, r] ∧
      m'.bare.nodes.length = m.bare.nodes.length ∧
      m'.bare.deleted = m.bare.deleted :=
  step_bare (borrowFromNext_follows _) h.pair (fun _ h => h.bare)
    (h.borrowFromNext hroom)

theorem Siblings.merge_bare
    (h : Siblings m.bare t p ka k kb PA PB leaf l r lk rk LP RP)
    (hlk : lk.length + 1 = t) (hrk : rk.length + 1 = t) :
    Returns (BTreeNode.merge p ka.length) m fun _ m' =>
      OneChild m'.bare t p ka kb PA PB leaf l (lk ++ k :: rk) (LP ++ RP) ∧
      Untouched m.bare m'.bare [p, l, r] ∧
      m'.bare.nodes.length = m.bare.nodes.length ∧
      m'.bare.deleted = m.bare.deleted ++ [r] :=
  step_bare (merge_follows _) h.pair (fun _ h => h.bare) (h.merge hlk hrk)

theorem OneChild.splitChild_bare
    (h : OneChild m.bare t p ka kb PA PB leaf y (yl ++ k :: yr) YP)
    (hyl : yl.length + 1 = t) (hyr : yr.length + 1 = t)
    (hroom : (ka ++ kb).length < 2 * t - 1) (hold : DeletedOld m.bare) :
    Returns (BTreeNode.splitChild p ka.length y) m fun _ m' =>
      Siblings m'.bare t p ka k kb PA PB leaf y m.bare.nodes.length yl yr
        (YP.take t) (YP.drop t) ∧
      Untouched m.bare m'.bare [p, y] ∧
      m'.bare.nodes.length = m.bare.nodes.length + 1 ∧
      m'.bare.deleted = m.bare.deleted := by
  have hflags : Flags [(p, false), (y, leaf)] m.bare := by
    intro e he
    simp only [List.mem_cons, List.not_mem_nil, or_false] at he
    rcases he with rfl | rfl
    · exact h.parent.flag
    · exact h.child.flag
  have hy : (y, leaf) ∈ [(p, false), (y, leaf)] := by simp
  exact step_bare (splitChild_follows (by simp) hy _) hflags
    (fun _ h => h.bare) (h.splitChild hyl hyr hroom hold)

end Lifting

/-! ## Two steps in a row -/

section RoundTrips

variable {m m₁ m₂ : Mem} {t : Nat} {p y l r : Addr} {ka kb yk lk rk : List Int}
  {k : Int} {PA PB YP LP RP : List Addr} {leaf : Bool}

theorem Untouched.trans {ps qs : List Addr} (h : Untouched m m₁ ps)
    (h' : Untouched m₁ m₂ qs) (hle : m.nodes.length ≤ m₁.nodes.length)
    (hsub : ∀ q ∈ qs, q < m.nodes.length → q ∈ ps) : Untouched m m₂ ps := by
  intro q hq hmem
  rw [← h q hq hmem]
  exact h' q (lt_of_lt_of_le hq hle) fun hin => hmem (hsub q hin hq)

/-- The child pointer between `PA` and `PB`. -/
theorem OneChild.child_run (h : OneChild m.bare t p ka kb PA PB leaf y yk YP) :
    NodeMemory.child p ka.length m = .ok (y, m) := by
  obtain ⟨np, hp, hnp⟩ := h.parent.of_bare
  exact NodeMemory.child_run hp (hnp.kid_at (by simp [← h.lengthA]))

theorem split_merge (h : OneChild m.bare t p ka kb PA PB leaf y yk YP)
    (ht : 2 ≤ t) (hfull : yk.length = 2 * t - 1)
    (hroom : (ka ++ kb).length < 2 * t - 1) (hold : DeletedOld m.bare) :
    Returns (do
        BTreeNode.splitChild p ka.length (← child p ka.length)
        BTreeNode.merge p ka.length) m fun _ m' =>
      OneChild m'.bare t p ka kb PA PB leaf y yk YP ∧
        Untouched m.bare m'.bare [p, y] := by
  obtain ⟨yl, k, yr, rfl, hyl⟩ : ∃ yl k yr, yk = yl ++ k :: yr ∧
      yl.length = t - 1 := by
    have hlt : t - 1 < yk.length := by omega
    refine ⟨yk.take (t - 1), yk[t - 1], yk.drop (t - 1 + 1), ?_, ?_⟩
    · rw [← List.drop_eq_getElem_cons hlt, List.take_append_drop]
    · rw [List.length_take]
      omega
  have hyr : yr.length + 1 = t := by
    simp only [List.length_append, List.length_cons] at hfull
    omega
  apply Returns.step h.child_run
  apply (h.splitChild_bare (by omega) hyr hroom hold).seq
  rintro - m₁ ⟨h₁, huntouched₁, hnodes₁, -⟩
  apply (h₁.merge_bare (by omega) hyr).mono
  rintro - m₂ ⟨h₂, huntouched₂, -⟩
  rw [List.take_append_drop] at h₂
  refine ⟨h₂, huntouched₁.trans huntouched₂ (by omega) ?_⟩
  intro q hq hlt
  simp only [List.mem_cons, List.not_mem_nil, or_false] at hq ⊢
  rcases hq with hq | hq | hq
  · exact Or.inl hq
  · exact Or.inr hq
  · exact absurd hq hlt.ne

theorem merge_split (h : Siblings m.bare t p ka k kb PA PB leaf l r lk rk LP RP)
    (ht : 2 ≤ t) (hlk : lk.length = t - 1) (hrk : rk.length = t - 1)
    (hold : DeletedOld m.bare) :
    Returns (do
        BTreeNode.merge p ka.length
        BTreeNode.splitChild p ka.length (← child p ka.length)) m fun _ m' =>
      Siblings m'.bare t p ka k kb PA PB leaf l m.bare.nodes.length lk rk LP RP ∧
        Untouched m.bare m'.bare [p, l, r] := by
  have hroom : (ka ++ kb).length < 2 * t - 1 := by
    obtain ⟨np, -, hnp⟩ := h.parent
    have hle := hnp.length_le
    simp only [List.length_map, List.length_append, List.length_cons] at hle ⊢
    omega
  have hr : r < m.bare.nodes.length := by
    obtain ⟨nr, hr, -⟩ := h.right
    exact Mem.lt_of_get hr
  have hpointers : (LP ++ RP).take t = LP ∧ (LP ++ RP).drop t = RP := by
    by_cases hleaf : leaf = true
    · simp [kidCount_leaf h.kidsL hleaf, kidCount_leaf h.kidsR hleaf]
    · have hlen : LP.length = t := by
        rw [kidCount_inner h.kidsL (by simpa using hleaf)]
        omega
      exact ⟨List.take_left' hlen, List.drop_left' hlen⟩
  apply (h.merge_bare (by omega) (by omega)).seq
  rintro - m₁ ⟨h₁, huntouched₁, hnodes₁, hdeleted₁⟩
  have hold₁ : DeletedOld m₁.bare := by
    intro q hq
    rw [hdeleted₁] at hq
    rw [hnodes₁]
    rcases List.mem_append.mp hq with hq | hq
    · exact hold q hq
    · rw [List.mem_singleton.mp hq]
      exact hr
  apply Returns.step h₁.child_run
  apply (h₁.splitChild_bare (by omega) (by omega) hroom hold₁).mono
  rintro - m₂ ⟨h₂, huntouched₂, -⟩
  rw [hpointers.1, hpointers.2, hnodes₁] at h₂
  refine ⟨h₂, huntouched₁.trans huntouched₂ (by omega) ?_⟩
  intro q hq _
  simp only [List.mem_cons, List.not_mem_nil, or_false] at hq ⊢
  tauto

theorem borrowFromPrev_borrowFromNext
    (h : Siblings m.bare t p ka k kb PA PB leaf l r lk rk LP RP)
    (hlend : 1 ≤ lk.length) (hroom : rk.length < 2 * t - 1) :
    Returns (do
        BTreeNode.borrowFromPrev p (ka.length + 1)
        BTreeNode.borrowFromNext p ka.length) m fun _ m' =>
      Siblings m'.bare t p ka k kb PA PB leaf l r lk rk LP RP ∧
        Untouched m.bare m'.bare [p, l, r] := by
  obtain ⟨lk, x, rfl⟩ : ∃ lk' x, lk = lk' ++ [x] := by
    have hne : lk ≠ [] := List.ne_nil_of_length_pos hlend
    exact ⟨lk.dropLast, lk.getLast hne, (List.dropLast_append_getLast hne).symm⟩
  have hroom' : lk.length < 2 * t - 1 := by
    obtain ⟨nl, -, hnl⟩ := h.left
    have hle := hnl.length_le
    rwa [List.length_map, List.length_append, List.length_singleton] at hle
  have hpointers : LP.take (lk.length + 1) ++
      (LP.drop (lk.length + 1) ++ RP).take 1 = LP ∧
      (LP.drop (lk.length + 1) ++ RP).drop 1 = RP := by
    by_cases hleaf : leaf = true
    · simp [kidCount_leaf h.kidsL hleaf, kidCount_leaf h.kidsR hleaf]
    · have hlen : (LP.drop (lk.length + 1)).length = 1 := by
        rw [List.length_drop, kidCount_inner h.kidsL (by simpa using hleaf),
          List.length_append, List.length_singleton]
        omega
      rw [List.take_left' hlen, List.drop_left' hlen, List.take_append_drop]
      exact ⟨rfl, rfl⟩
  apply (h.borrowFromPrev_bare hroom).seq
  rintro - m₁ ⟨h₁, huntouched₁, hnodes₁, -⟩
  apply (h₁.borrowFromNext_bare hroom').mono
  rintro - m₂ ⟨h₂, huntouched₂, -⟩
  rw [hpointers.1, hpointers.2] at h₂
  exact ⟨h₂, huntouched₁.trans huntouched₂ (by omega) fun q hq _ => hq⟩

theorem borrowFromNext_borrowFromPrev
    (h : Siblings m.bare t p ka k kb PA PB leaf l r lk rk LP RP)
    (hlend : 1 ≤ rk.length) (hroom : lk.length < 2 * t - 1) :
    Returns (do
        BTreeNode.borrowFromNext p ka.length
        BTreeNode.borrowFromPrev p (ka.length + 1)) m fun _ m' =>
      Siblings m'.bare t p ka k kb PA PB leaf l r lk rk LP RP ∧
        Untouched m.bare m'.bare [p, l, r] := by
  obtain ⟨x, rk, rfl⟩ := List.exists_cons_of_length_pos hlend
  have hroom' : rk.length < 2 * t - 1 := by
    obtain ⟨nr, -, hnr⟩ := h.right
    have hle := hnr.length_le
    rwa [List.length_map, List.length_cons] at hle
  have hpointers : (LP ++ RP.take 1).take (lk.length + 1) = LP ∧
      (LP ++ RP.take 1).drop (lk.length + 1) ++ RP.drop 1 = RP := by
    by_cases hleaf : leaf = true
    · simp [kidCount_leaf h.kidsL hleaf, kidCount_leaf h.kidsR hleaf]
    · have hlen := kidCount_inner h.kidsL (by simpa using hleaf)
      rw [List.take_left' hlen, List.drop_left' hlen, List.take_append_drop]
      exact ⟨rfl, rfl⟩
  apply (h.borrowFromNext_bare hroom).seq
  rintro - m₁ ⟨h₁, huntouched₁, hnodes₁, -⟩
  apply (h₁.borrowFromPrev_bare hroom').mono
  rintro - m₂ ⟨h₂, huntouched₂, -⟩
  rw [hpointers.1, hpointers.2] at h₂
  exact ⟨h₂, huntouched₁.trans huntouched₂ (by omega) fun q hq _ => hq⟩

end RoundTrips

/-- Two steps that undo each other leave the node and its children as they were,
and every other node alone.  After `merge` the right child is gone, and
`splitChild` makes a new node that holds what that one held. -/
theorem restructuring_undone (t : Nat) (ht : 2 ≤ t) (m : Mem)
    (hold : DeletedOld m) (p : Addr) (ka kb : List Int) (PA PB : List Addr)
    (leaf : Bool) :
    (∀ y yk YP, OneChild m.bare t p ka kb PA PB leaf y yk YP →
      yk.length = 2 * t - 1 → (ka ++ kb).length < 2 * t - 1 →
      Returns (do
          BTreeNode.splitChild p ka.length (← child p ka.length)
          BTreeNode.merge p ka.length) m fun _ m' =>
        OneChild m'.bare t p ka kb PA PB leaf y yk YP ∧
          Untouched m.bare m'.bare [p, y]) ∧
    ∀ k l r lk rk LP RP, Siblings m.bare t p ka k kb PA PB leaf l r lk rk LP RP →
      (lk.length = t - 1 → rk.length = t - 1 →
        Returns (do
            BTreeNode.merge p ka.length
            BTreeNode.splitChild p ka.length (← child p ka.length)) m fun _ m' =>
          Siblings m'.bare t p ka k kb PA PB leaf l m.nodes.length lk rk LP RP ∧
            Untouched m.bare m'.bare [p, l, r]) ∧
      (1 ≤ lk.length → rk.length < 2 * t - 1 →
        Returns (do
            BTreeNode.borrowFromPrev p (ka.length + 1)
            BTreeNode.borrowFromNext p ka.length) m fun _ m' =>
          Siblings m'.bare t p ka k kb PA PB leaf l r lk rk LP RP ∧
            Untouched m.bare m'.bare [p, l, r]) ∧
      (1 ≤ rk.length → lk.length < 2 * t - 1 →
        Returns (do
            BTreeNode.borrowFromNext p ka.length
            BTreeNode.borrowFromPrev p (ka.length + 1)) m fun _ m' =>
          Siblings m'.bare t p ka k kb PA PB leaf l r lk rk LP RP ∧
            Untouched m.bare m'.bare [p, l, r]) := by
  have hold' : DeletedOld m.bare := fun q hq => by
    rw [Mem.bare_nodes_length]
    exact hold q hq
  constructor
  · intro y yk YP h hfull hroom
    exact split_merge h ht hfull hroom hold'
  · intro k l r lk rk LP RP h
    refine ⟨fun hlk hrk => ?_, borrowFromPrev_borrowFromNext h,
      borrowFromNext_borrowFromPrev h⟩
    rw [← Mem.bare_nodes_length m]
    exact merge_split h ht hlk hrk hold'

theorem twoLeaves_siblings :
    Siblings twoLeaves 2 0 [] 2 [] [] [] true 1 2 [1] [3] [] [] where
  apart := by decide
  lengthA := rfl
  lengthB := rfl
  parent := twoLeaves_rep.1
  left := twoLeaves_rep.2 ⟨1, [1], []⟩ (by simp)
  right := twoLeaves_rep.2 ⟨2, [3], []⟩ (by simp)
  kidsL := rfl
  kidsR := rfl

theorem restructuring_undone_twoLeaves :
    Returns (do
        BTreeNode.merge 0 0
        BTreeNode.splitChild 0 0 (← child 0 0)) twoLeaves fun _ m' =>
      Siblings m'.bare 2 0 [] 2 [] [] [] true 1 3 [1] [3] [] [] ∧
        Untouched twoLeaves.bare m'.bare [0, 1, 2] :=
  ((restructuring_undone 2 (by decide) twoLeaves
    (fun _ hq => absurd hq List.not_mem_nil) 0 [] [] [] [] true).2
    2 1 2 [1] [3] [] [] twoLeaves_siblings.bare).1 rfl rfl

end ParallelBTree.Ports.Represent
