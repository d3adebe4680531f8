import ParallelBTree.Ports.Bare

/-!
# Restructuring does not look at leaves' child slots

`splitChild`, `merge`, `borrowFromPrev`, `borrowFromNext` and `fill`, run side by
side in two memories that are the same but for leaves' child slots.
-/

namespace ParallelBTree.Ports.NodeMemory

open ParallelBTree.Verified.Program
open ParallelBTree.Verified.Relational

/-- Slot `i` of the inner node `p` points to `c`. -/
def Points (p : Addr) (i : Nat) (c : Addr) (m : Mem) : Prop :=
  ∃ nd, m.get p = some nd ∧ nd.leaf = false ∧
    nd.children.cells[i]? = some (some (some c))

section Steps

variable {I : Mem → Prop} {φ : List (Addr × Bool)} {p y c s : Addr} {b : Bool}
  {α : Type}

theorem child_follows {i : Nat} {g : Addr → M α} {T : α → α → Mem → Mem → Prop}
    (hI : ∀ m, I m → Points p i c m)
    (h : Follows (Same I) (g c) (g c) T) :
    Follows (Same I) (child p i >>= g) (child p i >>= g) T := by
  refine Follows.read (fun m m₀ hsame => ?_) h
  obtain ⟨nd₀, hget₀, hleaf, hslot⟩ := hI m₀ hsame.inv
  obtain ⟨nd, hget, hbare⟩ := Mem.get_of_bare hsame.bare_eq hget₀
  obtain rfl : nd = nd₀ := BTreeNode.eq_of_bare hbare hleaf
  exact ⟨child_run hget hslot, child_run hget₀ hslot⟩

theorem splitChild_follows (hp : (p, false) ∈ φ) (hy : (y, b) ∈ φ) (i : Nat) :
    Follows (Same (Flags φ)) (BTreeNode.splitChild p i y)
      (BTreeNode.splitChild p i y) fun _ _ m m₀ => m.bare = m₀.bare := by
  refine (record_keeps (fun _ _ h => h) _ _ _ _).seq fun _ => ?_
  refine Keeps.node (fun _ => rfl) fun _ _ => ?_
  refine Keeps.node (fun _ => rfl) fun _ _ => ?_
  refine Keeps.node (fun _ => rfl) fun ny' hny' => ?_
  obtain ⟨m₀, hflags, hget⟩ := hny'
  rw [hflags.leaf hy hget]
  refine (newNode_follows _ _).seq fun z => ?_
  have hz : (z, b) ∈ (z, b) :: φ := List.mem_cons_self
  have hy' : (y, b) ∈ (z, b) :: φ := List.mem_cons_of_mem _ hy
  have hp' : (p, false) ∈ (z, b) :: φ := List.mem_cons_of_mem _ hp
  refine (setKeysnum_keeps _).seq fun _ => ?_
  refine (Keeps.forUp (fun _ => copyKey_keeps _ _) _ _).seq fun _ => ?_
  refine Keeps.node (fun _ => rfl) fun _ _ => ?_
  refine (Keeps.onlyIf
    (Keeps.forUp (fun _ => copyChild_keeps hy' hz _ _) _ _) _).seq fun _ => ?_
  refine (setKeysnum_keeps _).seq fun _ => ?_
  refine Keeps.node (fun _ => rfl) fun _ _ => ?_
  refine (Keeps.forDown (fun _ => copyChild_keeps hp' hp' _ _) _ _).seq
    fun _ => ?_
  refine (setChild_follows hp' _ fun _ => rfl).seq fun _ => ?_
  refine Keeps.node (fun _ => rfl) fun _ _ => ?_
  refine (Keeps.forDown (fun _ => copyKey_keeps _ _) _ _).seq fun _ => ?_
  refine (copyKey_keeps _ _).seq fun _ => ?_
  refine Keeps.node (fun _ => rfl) fun _ _ => ?_
  exact (setKeysnum_keeps _).mono (fun _ _ h => h) fun _ _ _ _ h => h.2.bare_eq

/-- The hypotheses of a step between two children: `p` is an inner node whose
slots `i` and `i + 1` point to `c` and `s`, both leaves or both not. -/
def Pair (p : Addr) (i : Nat) (c s : Addr) (b : Bool) (m : Mem) : Prop :=
  Points p i c m ∧ Points p (i + 1) s m ∧ Flags [(p, false), (c, b), (s, b)] m

/-- Once both children are known, only the leaf flags count. -/
theorem pair_flags {i : Nat} {f : M α} {T : α → α → Mem → Mem → Prop}
    (h : Follows (Same (Flags [(p, false), (c, b), (s, b)])) f f T) :
    Follows (Same (Pair p i c s b)) f f T :=
  h.mono (fun _ _ hpair => ⟨hpair.bare_eq, hpair.inv.2.2⟩) fun _ _ _ _ hT => hT

theorem merge_follows (idx : Nat) :
    Follows (Same (Pair p idx c s b)) (BTreeNode.merge p idx)
      (BTreeNode.merge p idx) fun _ _ m m₀ => m.bare = m₀.bare := by
  have hp : (p, false) ∈ [(p, false), (c, b), (s, b)] := by simp
  have hc : (c, b) ∈ [(p, false), (c, b), (s, b)] := by simp
  have hs : (s, b) ∈ [(p, false), (c, b), (s, b)] := by simp
  refine (record_keeps (fun _ _ h => h) _ _ _ _).seq fun _ => ?_
  refine Keeps.node (fun _ => rfl) fun _ _ => ?_
  refine child_follows (fun _ h => h.1) ?_
  refine child_follows (fun _ h => h.2.1) ?_
  refine pair_flags ?_
  refine (copyKey_keeps _ _).seq fun _ => ?_
  refine Keeps.node (fun _ => rfl) fun _ _ => ?_
  refine (Keeps.forUp (fun _ => copyKey_keeps _ _) _ _).seq fun _ => ?_
  refine Keeps.node (fun _ => rfl) fun _ _ => ?_
  refine (Keeps.onlyIf (Keeps.node (fun _ => rfl) fun _ _ =>
    Keeps.forUp (fun _ => copyChild_keeps hs hc _ _) _ _) _).seq fun _ => ?_
  refine Keeps.node (fun _ => rfl) fun _ _ => ?_
  refine (Keeps.forUp (fun _ => copyKey_keeps _ _) _ _).seq fun _ => ?_
  refine Keeps.node (fun _ => rfl) fun _ _ => ?_
  refine (Keeps.forUp (fun _ => copyChild_keeps hp hp _ _) _ _).seq fun _ => ?_
  refine Keeps.node (fun _ => rfl) fun _ _ => ?_
  refine Keeps.node (fun _ => rfl) fun _ _ => ?_
  refine (setKeysnum_keeps _).seq fun _ => ?_
  refine Keeps.node (fun _ => rfl) fun _ _ => ?_
  refine (Keeps.below _).seq fun _ => ?_
  refine (setKeysnum_keeps _).seq fun _ => ?_
  refine setLeaf_follows.seq fun _ => ?_
  refine Keeps.size (g := fun k => BTreeNode.delete k (some s)) fun k => ?_
  exact (delete_keeps (List.mem_singleton.mpr rfl) k).mono (fun _ _ h => h)
    fun _ _ _ _ h => h.2.bare_eq

theorem borrowFromPrev_follows (idx : Nat) :
    Follows (Same (Pair p idx s c b)) (BTreeNode.borrowFromPrev p (idx + 1))
      (BTreeNode.borrowFromPrev p (idx + 1)) fun _ _ m m₀ =>
        m.bare = m₀.bare := by
  have hc : (c, b) ∈ [(p, false), (s, b), (c, b)] := by simp
  have hs : (s, b) ∈ [(p, false), (s, b), (c, b)] := by simp
  refine (record_keeps (fun _ _ h => h) _ _ _ _).seq fun _ => ?_
  refine child_follows (fun _ h => h.2.1) ?_
  refine Follows.read (a := idx) (b := idx) (fun _ _ _ => ⟨rfl, rfl⟩) ?_
  refine child_follows (fun _ h => h.1) ?_
  refine pair_flags ?_
  refine Keeps.node (fun _ => rfl) fun _ _ => ?_
  refine (Keeps.forDown (fun _ => copyKey_keeps _ _) _ _).seq fun _ => ?_
  refine Keeps.node (fun _ => rfl) fun _ _ => ?_
  refine (Keeps.onlyIf (Keeps.node (fun _ => rfl) fun _ _ =>
    Keeps.forDown (fun _ => copyChild_keeps hc hc _ _) _ _) _).seq fun _ => ?_
  refine (Keeps.below _).seq fun _ => ?_
  refine (copyKey_keeps _ _).seq fun _ => ?_
  refine Keeps.node (fun _ => rfl) fun _ _ => ?_
  -- this copy is made whether the children are leaves or not
  refine (Keeps.onlyIf (Keeps.node (fun _ => rfl) fun _ _ =>
    copyChild_keeps hs hc _ _) _).seq fun _ => ?_
  refine Keeps.node (fun _ => rfl) fun _ _ => ?_
  refine (Keeps.below _).seq fun _ => ?_
  refine (Keeps.below _).seq fun _ => ?_
  refine (copyKey_keeps _ _).seq fun _ => ?_
  refine Keeps.node (fun _ => rfl) fun _ _ => ?_
  refine (setKeysnum_keeps _).seq fun _ => ?_
  refine Keeps.node (fun _ => rfl) fun _ _ => ?_
  refine (Keeps.below _).seq fun _ => ?_
  exact (setKeysnum_keeps _).mono (fun _ _ h => h) fun _ _ _ _ h => h.2.bare_eq

theorem borrowFromNext_follows (idx : Nat) :
    Follows (Same (Pair p idx c s b)) (BTreeNode.borrowFromNext p idx)
      (BTreeNode.borrowFromNext p idx) fun _ _ m m₀ => m.bare = m₀.bare := by
  have hc : (c, b) ∈ [(p, false), (c, b), (s, b)] := by simp
  have hs : (s, b) ∈ [(p, false), (c, b), (s, b)] := by simp
  refine (record_keeps (fun _ _ h => h) _ _ _ _).seq fun _ => ?_
  refine child_follows (fun _ h => h.1) ?_
  refine child_follows (fun _ h => h.2.1) ?_
  refine pair_flags ?_
  refine Keeps.node (fun _ => rfl) fun _ _ => ?_
  refine (copyKey_keeps _ _).seq fun _ => ?_
  refine Keeps.node (fun _ => rfl) fun _ _ => ?_
  refine (Keeps.onlyIf (Keeps.node (fun _ => rfl) fun _ _ =>
    copyChild_keeps hs hc _ _) _).seq fun _ => ?_
  refine (copyKey_keeps _ _).seq fun _ => ?_
  refine Keeps.node (fun _ => rfl) fun _ _ => ?_
  refine (Keeps.forUp (fun _ => copyKey_keeps _ _) _ _).seq fun _ => ?_
  refine Keeps.node (fun _ => rfl) fun _ _ => ?_
  refine (Keeps.onlyIf (Keeps.node (fun _ => rfl) fun _ _ =>
    Keeps.forUp (fun _ => copyChild_keeps hs hs _ _) _ _) _).seq fun _ => ?_
  refine Keeps.node (fun _ => rfl) fun _ _ => ?_
  refine (setKeysnum_keeps _).seq fun _ => ?_
  refine Keeps.node (fun _ => rfl) fun _ _ => ?_
  refine (Keeps.below _).seq fun _ => ?_
  exact (setKeysnum_keeps _).mono (fun _ _ h => h) fun _ _ _ _ h => h.2.bare_eq

/-- The inner node `p` has the live children `P`, all of them leaves or none. -/
structure Above (p : Addr) (P : List Addr) (b : Bool) (m : Mem) : Prop where
  points : ∀ i c, P[i]? = some c → Points p i c m
  count : ∀ nd, m.get p = some nd → P.length = nd.keysnum + 1
  parent : m.flag p = some false
  kids : ∀ c ∈ P, m.flag c = some b

theorem Above.pair {P : List Addr} {m : Mem} (h : Above p P b m) {i : Nat}
    (hi : i + 1 < P.length) : Pair p i P[i] P[i + 1] b m := by
  refine ⟨h.points i _ (List.getElem?_eq_getElem _),
    h.points (i + 1) _ (List.getElem?_eq_getElem hi), ?_⟩
  intro e he
  simp only [List.mem_cons, List.not_mem_nil, or_false] at he
  rcases he with rfl | rfl | rfl
  · exact h.parent
  · exact h.kids _ (List.getElem_mem _)
  · exact h.kids _ (List.getElem_mem _)

/-- `c && ask` decides how to go on. -/
theorem ask_follows {c : Prop} [Decidable c] {ask : M Bool} {g : Bool → M α}
    {T : α → α → Mem → Mem → Prop} (hask : c → Keeps (Same I) ask)
    (htrue : c → Follows (Same I) (g true) (g true) T)
    (hfalse : Follows (Same I) (g false) (g false) T) :
    Follows (Same I) ((if c then ask else pure false) >>= g)
      ((if c then ask else pure false) >>= g) T := by
  by_cases hc : c
  · rw [if_pos hc]
    refine (hask hc).seq fun v => ?_
    cases v with
    | true => exact htrue hc
    | false => exact hfalse
  · rw [if_neg hc]
    exact Follows.read (fun _ _ _ => ⟨rfl, rfl⟩) hfalse

/-- How many keys a child has is read off its bare node. -/
theorem Above.asks {P : List Addr} (t : Nat) {i : Nat} (hi : i < P.length) :
    Keeps (Same (Above p P b)) (do
      pure (decide (t ≤ (← node (← child p i)).keysnum))) := by
  refine child_follows (c := P[i])
    (fun _ h => h.points i _ (List.getElem?_eq_getElem hi)) ?_
  exact Keeps.node (fun _ => rfl) fun nc _ => Keeps.pure _

theorem fill_follows {P : List Addr} {idx : Nat} (hidx : idx < P.length)
    (hone : 1 < P.length) :
    Follows (Same (Above p P b)) (BTreeNode.fill p idx) (BTreeNode.fill p idx)
      fun _ _ m m₀ => m.bare = m₀.bare := by
  have hmerge : ∀ i, i + 1 < P.length → Follows (Same (Above p P b))
      (BTreeNode.merge p i) (BTreeNode.merge p i)
      fun _ _ m m₀ => m.bare = m₀.bare := fun i hi =>
    (merge_follows i).mono (fun _ _ h => ⟨h.bare_eq, h.inv.pair hi⟩)
      fun _ _ _ _ h => h
  refine (record_keeps (fun _ _ h => { h with }) _ _ _ _).seq fun _ => ?_
  refine Keeps.node (fun _ => rfl) fun np hnp => ?_
  obtain ⟨m₀, habove, hget⟩ := hnp
  have hcount : P.length = np.keysnum + 1 := habove.count np hget
  refine ask_follows (fun h0 => ?_) (fun h0 => ?_) ?_
  · obtain ⟨k, rfl⟩ := Nat.exists_eq_add_one_of_ne_zero h0
    refine Follows.read (a := k) (b := k) (fun _ _ _ => ⟨rfl, rfl⟩) ?_
    exact Above.asks np.t (by omega)
  · obtain ⟨k, rfl⟩ := Nat.exists_eq_add_one_of_ne_zero h0
    exact (borrowFromPrev_follows k).mono
      (fun _ _ h => ⟨h.bare_eq, h.inv.pair hidx⟩) fun _ _ _ _ h => h
  · refine ask_follows (fun hn => ?_) (fun hn => ?_) ?_
    · exact Above.asks np.t (by omega)
    · exact (borrowFromNext_follows idx).mono
        (fun _ _ h => ⟨h.bare_eq, h.inv.pair (i := idx) (by omega)⟩)
        fun _ _ _ _ h => h
    · show Follows _ (if idx ≠ np.keysnum then _ else _)
        (if idx ≠ np.keysnum then _ else _) _
      by_cases hn : idx ≠ np.keysnum
      · rw [if_pos hn]
        exact hmerge idx (by omega)
      · rw [if_neg hn]
        obtain ⟨k, rfl⟩ := Nat.exists_eq_add_one_of_ne_zero (n := idx) (by omega)
        refine Follows.read (a := k) (b := k) (fun _ _ _ => ⟨rfl, rfl⟩) ?_
        exact hmerge k (by omega)

end Steps

end ParallelBTree.Ports.NodeMemory

namespace ParallelBTree.Ports.Represent

open ParallelBTree.Verified.Multiway
open ParallelBTree.Ports.NodeMemory
open ParallelBTree.Ports.Descent

section Trees

variable {m : Mem} {t : Nat}

/-- A live node is live in the bare memory. -/
theorem Live.bare {p : Addr} {leaf : Bool} {K : List Int} {P : List Addr}
    (h : Live m t p leaf K P) : Live m.bare t p leaf K P := by
  obtain ⟨nd, hget, hnd⟩ := h
  refine ⟨nd.bare, by rw [Mem.get_bare, hget, Option.map_some], ?_⟩
  cases leaf with
  | false =>
      rw [BTreeNode.bare_inner hnd.leaf_eq]
      exact hnd
  | true =>
      exact
        { t_eq := hnd.t_eq
          leaf_eq := hnd.leaf_eq
          keysnum_eq := hnd.keysnum_eq
          keys := hnd.keys
          children := fun hleaf => Bool.noConfusion hleaf
          unwritten := fun _ => by
            simp [BTreeNode.bare, hnd.leaf_eq, hnd.t_eq] }

theorem Rep.bare : ∀ {n : Nat} {T : Tree Int n}, Rep m t n T →
    Rep m.bare t n T := by
  intro n
  induction n with
  | zero => exact fun h => Live.bare h
  | succ n ih => exact fun h => ⟨h.1.bare, fun c hc => ih (h.2 c hc)⟩

/-- A node of a tree in memory, above its kids. -/
theorem Rep.above {n : Nat} {T : Tree Int (n + 1)} (h : Rep m t (n + 1) T)
    (hkids : T.kids.length = T.size + 1) :
    Above T.id (T.kids.map Node.id) (isLeaf n) m := by
  obtain ⟨np, hp, hnp⟩ := h.1
  exact
    { points := fun i c hc => ⟨np, hp, hnp.leaf_eq, hnp.kid_at hc⟩
      count := fun nd hnd => by
        obtain rfl : np = nd := Option.some.inj (hp.symm.trans hnd)
        rw [List.length_map, hkids, hnp.keysnum_eq]
        rfl
      parent := by rw [Mem.flag_of_get hp, hnp.leaf_eq]
      kids := fun q hq => by
        obtain ⟨c, hc, rfl⟩ := List.mem_map.mp hq
        obtain ⟨nc, hget, hnc⟩ := (h.2 c hc).root
        rw [Mem.flag_of_get hget, hnc.leaf_eq] }

end Trees

end ParallelBTree.Ports.Represent
