import ParallelBTree.Ports.BareSteps
import ParallelBTree.Ports.RefineSteps

/-!
# What `fill` does to a node in memory

`Ports.DescentFill` says what `fill` does to a tree; here it is said of the member
function, on a node whose kids are occupied, whatever the key counts further
down.  The index with which `remove` goes on is `fillPos`.

What a memory holds is read off its bare memory, before and after: nothing is
asked of the child slots of a leaf.

## Main results

* `fill_prepares` — `fill` keeps the contents and leaves the kid that `remove`
  descends into with at least `t` keys.
-/

namespace ParallelBTree.Ports.Represent

open ParallelBTree.Verified.Program
open ParallelBTree.Verified.Multiway
open ParallelBTree.Ports.NodeMemory
open ParallelBTree.Ports.Descent

/-- `fill(idx)` on the node `T`, whose kid `idx` is `c`, has left the node `T'` in
the memory `m'`. -/
structure FillLeaves (m' : Mem) (t : Nat) {n : Nat} (T T' : Tree Int (n + 1))
    (idx : Nat) (c : Tree Int n) : Prop where
  id_eq : T'.id = T.id
  rep : Rep m' t (n + 1) T'
  nodup : (ids (n + 1) T').Nodup
  branched : Branched (n + 1) T'
  contents : inorder (n + 1) T' = inorder (n + 1) T
  size_le : T'.size ≤ T.size
  size_ge : T.size ≤ T'.size + 1
  kids : ∀ d ∈ T'.kids, t - 1 ≤ d.size ∧ d.size ≤ 2 * t - 1
  /-- the kid that `remove` goes on with holds everything kid `idx` held -/
  target : ∃ c', T'.kids[fillPos idx T.size T'.size]? = some c' ∧ t ≤ c'.size ∧
    inorder n c <:+: inorder n c'

/-- `fill(idx)` where leaves' child slots are still unwritten. -/
theorem fill_leaves {m : Mem} {t n : Nat} {T : Tree Int (n + 1)} {idx : Nat}
    {c : Tree Int n} (ht : 2 ≤ t) (h : Rep m t (n + 1) T)
    (hnd : (ids (n + 1) T).Nodup) (hbr : Branched (n + 1) T)
    (hkids : ∀ d ∈ T.kids, t - 1 ≤ d.size ∧ d.size ≤ 2 * t - 1)
    (hsize : 1 ≤ T.size) (hc : T.kids[idx]? = some c) (hlow : c.size = t - 1) :
    Returns (BTreeNode.fill T.id idx) m fun _ m' =>
      ∃ T' : Tree Int (n + 1), FillLeaves m' t T T' idx c := by
  have hfits : T.size ≤ 2 * t - 1 := by
    obtain ⟨nd, -, hnd⟩ := h.1
    simpa [Node.size] using hnd.length_le
  have hocc : Occupied t Branched n T :=
    occupied_branched_iff.mpr ⟨hfits, hbr, hkids⟩
  have hidx : idx ≤ T.size := by
    have hlt := (List.getElem?_eq_some_iff.mp hc).1
    have hlen : T.kids.length = T.size + 1 := hbr.1
    omega
  have hkid : kidSize T idx < t := by
    rw [kidSize, hc]
    show c.size < t
    omega
  have hprep := fill_prepared ht hocc hsize hidx hkid
  apply (fill_refines ht h hnd hocc hsize hidx hkid).mono
  rintro - m' ⟨hrep, -⟩
  obtain ⟨-, hbr', hkids'⟩ := occupied_branched_iff.mp hprep.occupied
  obtain ⟨c₁, c', u, v, hc₁, hc', hroom, hcont, -⟩ := hprep.target
  obtain rfl : c = c₁ := Option.some.inj (hc.symm.trans hc₁)
  have hnd' := hprep.ids.nodup_iff.mpr hnd
  refine ⟨(fill t T idx).tree, ?_⟩
  exact
    { id_eq := hprep.id_eq
      rep := hrep
      nodup := (List.nodup_append'.mp hnd').1
      branched := hbr'
      contents := hprep.contents
      size_le := hprep.size_le
      size_ge := hprep.size_ge
      kids := hkids'
      target := ⟨c', hc', hroom, u, v, by rw [hcont, List.append_assoc]⟩ }

/-- `fill(idx)` on a node with at least one key whose kids hold between `t - 1`
and `2t - 1` keys, kid `idx` holding `t - 1`. -/
theorem fill_prepares {m : Mem} {t n : Nat} {T : Tree Int (n + 1)} {idx : Nat}
    {c : Tree Int n} (ht : 2 ≤ t) (h : Rep m.bare t (n + 1) T)
    (hnd : (ids (n + 1) T).Nodup) (hbr : Branched (n + 1) T)
    (hkids : ∀ d ∈ T.kids, t - 1 ≤ d.size ∧ d.size ≤ 2 * t - 1)
    (hsize : 1 ≤ T.size) (hc : T.kids[idx]? = some c) (hlow : c.size = t - 1) :
    Returns (BTreeNode.fill T.id idx) m fun _ m' =>
      ∃ T' : Tree Int (n + 1), FillLeaves m'.bare t T T' idx c := by
  have hlen : T.kids.length = T.size + 1 := hbr.1
  have hidx : idx < T.kids.length := (List.getElem?_eq_some_iff.mp hc).1
  have hsame : Same (Above T.id (T.kids.map Node.id) (isLeaf n)) m m.bare :=
    ⟨(Mem.bare_bare m).symm, h.above hlen⟩
  have hfollows := fill_follows (p := T.id) (P := T.kids.map Node.id)
    (b := isLeaf n) (by rwa [List.length_map])
    (by rw [List.length_map]; omega)
  apply (hfollows.returns hsame
    (fill_leaves ht h hnd hbr hkids hsize hc hlow)).mono
  rintro - m' ⟨-, m₀, hbare, T', hT'⟩
  refine ⟨T', ?_⟩
  rw [hbare]
  exact { hT' with rep := hT'.rep.bare }

/-- The key 2 above two leaves that hold 1 and 3. -/
def twoLeaves : Mem where
  nodes :=
    [⟨2, false, 1, ⟨[some 2, none, none], rfl⟩,
        ⟨[some (some 1), some (some 2), none, none], rfl⟩⟩,
      ⟨2, true, 1, ⟨[some 1, none, none], rfl⟩, .fresh Ptr 4⟩,
      ⟨2, true, 1, ⟨[some 3, none, none], rfl⟩, .fresh Ptr 4⟩]
  deleted := []
  trace := []

theorem twoLeaves_rep : Rep twoLeaves 2 1 ⟨0, [2], [⟨1, [1], []⟩, ⟨2, [3], []⟩]⟩ := by
  have hleaf : ∀ k : Int, Holds 2 true [k] []
      ⟨2, true, 1, ⟨[some k, none, none], rfl⟩, .fresh Ptr 4⟩ := fun k =>
    { t_eq := rfl
      leaf_eq := rfl
      keysnum_eq := rfl
      keys := ⟨[none, none], rfl⟩
      children := fun h => Bool.noConfusion h
      unwritten := fun _ => rfl }
  refine ⟨⟨_, rfl, ?_⟩, ?_⟩
  · exact
      { t_eq := rfl
        leaf_eq := rfl
        keysnum_eq := rfl
        keys := ⟨[none, none], rfl⟩
        children := fun _ => ⟨[none, none], rfl⟩
        unwritten := fun h => Bool.noConfusion h }
  · intro c hc
    simp only [List.mem_cons, List.not_mem_nil, or_false] at hc
    rcases hc with rfl | rfl
    · exact ⟨_, rfl, hleaf 1⟩
    · exact ⟨_, rfl, hleaf 3⟩

theorem fill_prepares_twoLeaves :
    Returns (BTreeNode.fill 0 1) twoLeaves fun _ m' =>
      ∃ T' : Tree Int 1, FillLeaves m'.bare 2
        (⟨0, [2], [⟨1, [1], []⟩, ⟨2, [3], []⟩]⟩ : Tree Int 1) T' 1 ⟨2, [3], []⟩ :=
  fill_prepares (T := ⟨0, [2], [⟨1, [1], []⟩, ⟨2, [3], []⟩]⟩) (by decide)
    twoLeaves_rep.bare (by decide) ⟨rfl, fun _ _ => trivial⟩ (by simp) (by decide) rfl
    rfl

end ParallelBTree.Ports.Represent
