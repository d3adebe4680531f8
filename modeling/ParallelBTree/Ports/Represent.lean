import ParallelBTree.Ports.Focus
import ParallelBTree.Ports.Descent

/-!
# Trees in memory

`Rep m t n T`: the memory `m` holds the tree `T` of height `n` with minimum
degree `t`, each node at the address that is its identity.  Of a node only the
live slots are constrained: `keys[0..keysnum)`, and `children[0..keysnum]`
unless the node is a leaf.  A leaf's child slots have never been written.

`Effect` is what a call did to a memory apart from the tree it left: how many
nodes it created, which ones it deleted, what it appended to the trace, and the
only nodes it may have touched.
-/

namespace ParallelBTree.Ports.Represent

open ParallelBTree.Verified.Program
open ParallelBTree.Verified.Slots
open ParallelBTree.Verified.Multiway
open ParallelBTree.Ports.NodeMemory
open ParallelBTree.Ports.Descent

/-- The live slots of `nd` hold the keys `K` and the child pointers `P`. -/
abbrev Holds (t : Nat) (leaf : Bool) (K : List Int) (P : List Addr)
    (nd : BTreeNode) : Prop :=
  Cells t leaf K.length (K.map some) ((P.map some).map some) nd

theorem Holds.key_at {t : Nat} {leaf : Bool} {K : List Int} {P : List Addr}
    {nd : BTreeNode} (h : Holds t leaf K P nd) {i : Nat} {v : Int}
    (hv : K[i]? = some v) : nd.keys.cells[i]? = some (some v) :=
  h.key (by rw [List.getElem?_map, hv]; rfl)

theorem Holds.cut {t : Nat} {leaf : Bool} {ka kb : List Int} {k : Int}
    {P : List Addr} {nd : BTreeNode} (h : Holds t leaf (ka ++ k :: kb) P nd) :
    Cells t leaf (ka ++ k :: kb).length
      (ka.map some ++ some k :: kb.map some) ((P.map some).map some) nd := by
  have hcells : Cells t leaf (ka ++ k :: kb).length ((ka ++ k :: kb).map some)
      ((P.map some).map some) nd := h
  rwa [List.map_append, List.map_cons] at hcells

theorem Holds.of_cells {t n : Nat} {leaf : Bool} {X : List (Option Int)}
    {Z : List (Option Ptr)} {nd : BTreeNode} {K : List Int} {P : List Addr}
    (h : Cells t leaf n X Z nd) (hn : n = K.length) (hX : X = K.map some)
    (hZ : leaf = false → Z = (P.map some).map some) : Holds t leaf K P nd := by
  subst hn hX
  cases leaf with
  | true => exact h.of_leaf
  | false =>
      rw [hZ rfl] at h
      exact h

theorem Holds.kid_at {t : Nat} {K : List Int} {P : List Addr} {nd : BTreeNode}
    (h : Holds t false K P nd) {i : Nat} {q : Addr} (hq : P[i]? = some q) :
    nd.children.cells[i]? = some (some (some q)) :=
  h.kid rfl (by rw [List.getElem?_map, List.getElem?_map, hq]; rfl)

/-- Node `p` of `m` is live and holds `K` and `P`. -/
def Live (m : Mem) (t : Nat) (p : Addr) (leaf : Bool) (K : List Int)
    (P : List Addr) : Prop :=
  ∃ nd, m.get p = some nd ∧ Holds t leaf K P nd

/-- The child pointers of a node of height `n` with the kids `C`. -/
def ptrs : (n : Nat) → List (Level Int n) → List Addr
  | 0, _ => []
  | _ + 1, C => C.map Node.id

/-- `m` holds the tree `T`. -/
def Rep (m : Mem) (t : Nat) : (n : Nat) → Tree Int n → Prop
  | 0, T => Live m t T.id true T.keys []
  | n + 1, T => Live m t T.id false T.keys (T.kids.map Node.id) ∧
      ∀ c ∈ T.kids, Rep m t n c

/-- `m` holds each of the kids `C` of a node of height `n`. -/
def Reps (m : Mem) (t : Nat) : (n : Nat) → List (Level Int n) → Prop
  | 0, _ => True
  | n + 1, C => ∀ c ∈ C, Rep m t n c

/-- The identities below a node of height `n` with the kids `C`. -/
def idsBelow : (n : Nat) → List (Level Int n) → List Addr
  | 0, _ => []
  | n + 1, C => C.flatMap (ids n)

/-- Whether nodes of height `n` are leaves. -/
def isLeaf (n : Nat) : Bool := decide (n = 0)

section Shape

variable {m : Mem} {t n : Nat}

theorem rep_iff (T : Tree Int n) :
    Rep m t n T ↔
      Live m t T.id (isLeaf n) T.keys (ptrs n T.kids) ∧ Reps m t n T.kids := by
  cases n with
  | zero => exact (and_iff_left trivial).symm
  | succ n => exact Iff.rfl

theorem ids_eq (T : Tree Int n) : ids n T = T.id :: idsBelow n T.kids := by
  cases n <;> rfl

theorem ptrs_append (C D : List (Level Int n)) :
    ptrs n (C ++ D) = ptrs n C ++ ptrs n D := by
  cases n with
  | zero => rfl
  | succ n => exact List.map_append

/-- The pointers of a node follow its kids. -/
theorem ptrs_take (C : List (Level Int n)) (i : Nat) :
    ptrs n (C.take i) = (ptrs n C).take i := by
  cases n with
  | zero => simp [ptrs]
  | succ n => exact List.map_take

theorem ptrs_drop (C : List (Level Int n)) (i : Nat) :
    ptrs n (C.drop i) = (ptrs n C).drop i := by
  cases n with
  | zero => simp [ptrs]
  | succ n => exact List.map_drop

theorem kids_length {T : Tree Int n} (h : Branching n T)
    (hn : isLeaf n = false) : T.kids.length = T.keys.length + 1 :=
  h (by simpa [isLeaf] using hn)

theorem ptrs_length {T : Tree Int n} (h : Branching n T)
    (hn : isLeaf n = false) :
    (ptrs n T.kids).length = T.keys.length + 1 := by
  rw [← kids_length h hn]
  cases n with
  | zero => simp [isLeaf] at hn
  | succ n => exact List.length_map _

end Shape

section Frame

variable {m m' : Mem} {t : Nat}

theorem Live.frame {p : Addr} {leaf : Bool} {K : List Int} {P : List Addr}
    (h : Live m t p leaf K P) (heq : m'.get p = m.get p) :
    Live m' t p leaf K P := by
  obtain ⟨nd, hget, hnd⟩ := h
  exact ⟨nd, heq.trans hget, hnd⟩

/-- What a tree is depends on its own nodes only. -/
theorem Rep.frame : ∀ {n : Nat} {T : Tree Int n}, Rep m t n T →
    (∀ q ∈ ids n T, m'.get q = m.get q) → Rep m' t n T := by
  intro n
  induction n with
  | zero =>
      intro T h heq
      exact Live.frame h (heq T.id (id_mem_ids 0 T))
  | succ n ih =>
      intro T h heq
      constructor
      · exact h.1.frame (heq T.id (id_mem_ids (n + 1) T))
      · intro c hc
        exact ih (h.2 c hc) fun q hq => heq q (ids_kid_subset hc hq)

theorem Reps.frame {n : Nat} {C : List (Level Int n)} (h : Reps m t n C)
    (heq : ∀ q ∈ idsBelow n C, m'.get q = m.get q) : Reps m' t n C := by
  cases n with
  | zero => trivial
  | succ n =>
      intro c hc
      refine (h c hc).frame fun q hq => heq q ?_
      exact List.mem_flatMap.mpr ⟨c, hc, hq⟩

theorem Rep.alive : ∀ {n : Nat} {T : Tree Int n}, Rep m t n T →
    ∀ q ∈ ids n T, ∃ nd, m.get q = some nd := by
  intro n
  induction n with
  | zero =>
      intro T h q hq
      obtain ⟨nd, hget, -⟩ := h
      rw [List.mem_singleton.mp hq]
      exact ⟨nd, hget⟩
  | succ n ih =>
      intro T h q hq
      simp only [ids, List.mem_cons, List.mem_flatMap] at hq
      rcases hq with rfl | ⟨c, hc, hq⟩
      · obtain ⟨nd, hget, -⟩ := h.1
        exact ⟨nd, hget⟩
      · exact ih (h.2 c hc) q hq

theorem Rep.lt_length {n : Nat} {T : Tree Int n} (h : Rep m t n T) {q : Addr}
    (hq : q ∈ ids n T) : q < m.nodes.length := by
  obtain ⟨nd, hget⟩ := h.alive q hq
  exact Mem.lt_of_get hget

theorem Rep.root {n : Nat} {T : Tree Int n} (h : Rep m t n T) :
    ∃ nd, m.get T.id = some nd ∧
      Holds t (isLeaf n) T.keys (ptrs n T.kids) nd :=
  ((rep_iff T).mp h).1

/-- Reading how many keys a kid has. -/
theorem Rep.kid_run {n : Nat} {T : Tree Int (n + 1)} (h : Rep m t (n + 1) T) {i : Nat}
    {c : Tree Int n} (hc : T.kids[i]? = some c) :
    child T.id i m = .ok (c.id, m) ∧
      ∃ nc, node c.id m = .ok (nc, m) ∧ nc.keysnum = c.size := by
  obtain ⟨nd, hget, hnd⟩ := h.1
  obtain ⟨nc, hgetc, hnc⟩ := (h.2 c (List.mem_of_getElem? hc)).root
  have hid : (T.kids.map Node.id)[i]? = some c.id := by
    rw [List.getElem?_map, hc]
    rfl
  exact ⟨child_run hget (hnd.kid_at hid), nc, node_run hgetc, hnc.keysnum_eq⟩

/-- A call with the root of `T` as receiver finds `T`. -/
theorem Rep.view_eq {n : Nat} {T : Tree Int n} (h : Rep m t n T)
    (hT : Branching n T) : m.view T.id = viewOf n T := by
  cases n with
  | zero =>
      obtain ⟨nd, hget, hnd⟩ := h
      simp [Mem.view, hget, hnd.keysnum_eq, hnd.leaf_eq, viewOf, Node.size]
  | succ n =>
      obtain ⟨⟨nd, hget, hnd⟩, hkids⟩ := h
      obtain ⟨R, hcells⟩ := hnd.children rfl
      have hlen : (T.kids.map Node.id).length = T.keys.length + 1 := by
        rw [List.length_map]
        exact hT (Nat.succ_ne_zero n)
      have hlive : nd.children.cells.take (T.keys.length + 1) =
          ((T.kids.map Node.id).map some).map some := by
        rw [hcells]
        exact List.take_left' (by simpa using hlen)
      have hocc : ∀ c ∈ T.kids, m.occupancy c.id = c.size := by
        intro c hc
        obtain ⟨⟨ndc, hgetc, hndc⟩, -⟩ := (rep_iff c).mp (hkids c hc)
        simp [Mem.occupancy, hgetc, hndc.keysnum_eq, Node.size]
      simp only [Mem.view, hget, hnd.leaf_eq, hnd.keysnum_eq, viewOf, Node.size,
        View.mk.injEq, true_and, Bool.false_eq_true, if_false]
      rw [hlive, List.filterMap_map, List.filterMap_map, List.filterMap_map,
        ← List.filterMap_eq_map]
      refine List.filterMap_congr fun c hc => ?_
      simp only [Function.comp, Option.join_some, Option.map_some, hocc c hc,
        Node.size]

end Frame

/-! ## Effects -/

/-- From `m` to `m'`: `created` more nodes, the nodes `freed` deleted, `trace`
appended, and no old node outside `touched` changed. -/
structure Effect (m m' : Mem) (touched : List Addr) (created : Nat)
    (freed : List Addr) (trace : List Event) : Prop where
  nodes : m'.nodes.length = m.nodes.length + created
  deleted : m'.deleted = m.deleted ++ freed
  trace : m'.trace = m.trace ++ trace
  frame : ∀ q < m.nodes.length, q ∉ touched → m'.get q = m.get q

namespace Effect

variable {m m₁ m₂ : Mem} {F G : List Addr} {c d : Nat} {fr gr : List Addr}
  {tr ur : List Event}

theorem refl (m : Mem) : Effect m m [] 0 [] [] where
  nodes := rfl
  deleted := by simp
  trace := by simp
  frame _ _ _ := rfl

theorem of_logs (m : Mem) (es : List Event) :
    Effect m (m.logs es) [] 0 [] es where
  nodes := rfl
  deleted := by simp [Mem.logs]
  trace := rfl
  frame _ _ _ := rfl

theorem of_push (m : Mem) (nd : BTreeNode) : Effect m (m.push nd) [] 1 [] [] where
  nodes := by simp [Mem.push]
  deleted := by simp [Mem.push]
  trace := by simp [Mem.push]
  frame _ hq _ := Mem.get_push_lt hq

theorem of_set (m : Mem) (p : Addr) (nd : BTreeNode) :
    Effect m (m.set p nd) [p] 0 [] [] where
  nodes := by simp
  deleted := by simp
  trace := by simp
  frame q _ hq := Mem.get_set_ne (by simpa using hq)

theorem of_release (m : Mem) (p : Addr) :
    Effect m (m.release p) [p] 0 [p] [] where
  nodes := rfl
  deleted := rfl
  trace := by simp [Mem.release]
  frame q _ hq := Mem.get_release_ne (by simpa using hq)

/-- One effect after another; what the second touches was there before or is
new. -/
theorem comp (h₁ : Effect m m₁ F c fr tr) (h₂ : Effect m₁ m₂ G d gr ur)
    {H : List Addr} (hF : F ⊆ H) (hG : ∀ q ∈ G, q ∈ H ∨ m.nodes.length ≤ q) :
    Effect m m₂ H (c + d) (fr ++ gr) (tr ++ ur) where
  nodes := by rw [h₂.nodes, h₁.nodes, Nat.add_assoc]
  deleted := by rw [h₂.deleted, h₁.deleted, List.append_assoc]
  trace := by rw [h₂.trace, h₁.trace, List.append_assoc]
  frame := by
    intro q hq hH
    have hqF : q ∉ F := fun h => hH (hF h)
    have hqG : q ∉ G := by
      intro h
      rcases hG q h with h | h
      · exact hH h
      · omega
    have hq₁ : q < m₁.nodes.length := by
      rw [h₁.nodes]
      omega
    exact (h₂.frame q hq₁ hqG).trans (h₁.frame q hq hqF)

theorem mono (h : Effect m m₁ F c fr tr) (hF : F ⊆ G) :
    Effect m m₁ G c fr tr :=
  { h with frame := fun q hq hG => h.frame q hq fun hq' => hG (hF hq') }

theorem of_with3 (m : Mem) (es : List Event) (p r s : Addr)
    (np nr ns : BTreeNode) :
    Effect m ((m.logs es).with3 p r s np nr ns) [p, r, s] 0 [] es where
  nodes := by simp [Mem.with3, Mem.logs]
  deleted := by simp [Mem.with3, Mem.logs]
  trace := by simp [Mem.with3, Mem.logs]
  frame q _ hq := by
    simp only [List.mem_cons, List.not_mem_nil, or_false, not_or] at hq
    exact Trio.get_other hq.1 hq.2.1 hq.2.2

end Effect

end ParallelBTree.Ports.Represent
