import ParallelBTree.Ports.Represent
import ParallelBTree.Verified.Relational

/-!
# What a leaf's child slots hold does not matter

`Mem.bare` blanks the child slots of every leaf and forgets the trace.  Two
memories with the same bare memory are the same to the member functions that
restructure nodes: `Same I m m₀` is that they are, and that `m₀` satisfies `I`.

A member function looks at a node mostly for its `t`, `leaf` and `keysnum`, which
the bare node has as well; `Keeps.node` is the rule for that.  Child slots are
copied from a node to another one, or to itself, whether it is a leaf or not, and
this is where the leaf flags count: of two leaves nothing is seen to change, and
of two inner nodes the bare memory holds all slots.  `Flags φ` keeps track of the
leaf flags of some nodes.
-/

namespace ParallelBTree.Ports.NodeMemory

open ParallelBTree.Verified.Program
open ParallelBTree.Verified.Relational
open ParallelBTree.Verified.Slots

/-- The node with the child slots of a leaf blanked. -/
def BTreeNode.bare (nd : BTreeNode) : BTreeNode :=
  { nd with children := if nd.leaf then .fresh Ptr (2 * nd.t) else nd.children }

/-- The memory with the child slots of leaves blanked and no trace. -/
def Mem.bare (m : Mem) : Mem := ⟨m.nodes.map BTreeNode.bare, m.deleted, []⟩

theorem BTreeNode.bare_inner {nd : BTreeNode} (h : nd.leaf = false) :
    nd.bare = nd := by
  cases nd
  simp_all [bare]

theorem BTreeNode.bare_children {nd : BTreeNode} (h : nd.leaf = true)
    (a : SlotArray Ptr (2 * nd.t)) :
    ({ nd with children := a } : BTreeNode).bare = nd.bare := by
  simp [bare, h]

theorem BTreeNode.t_of_bare {nd nd₀ : BTreeNode} (h : nd.bare = nd₀.bare) :
    nd.t = nd₀.t := by
  have ht : nd.bare.t = nd₀.bare.t := by rw [h]
  exact ht

theorem BTreeNode.leaf_of_bare {nd nd₀ : BTreeNode} (h : nd.bare = nd₀.bare) :
    nd.leaf = nd₀.leaf := by
  have hleaf : nd.bare.leaf = nd₀.bare.leaf := by rw [h]
  exact hleaf

/-- Inner nodes are the same when they are bare. -/
theorem BTreeNode.eq_of_bare {nd nd₀ : BTreeNode} (h : nd.bare = nd₀.bare)
    (hleaf : nd₀.leaf = false) : nd = nd₀ := by
  have hleaf' : nd.leaf = false := (leaf_of_bare h).trans hleaf
  rwa [bare_inner hleaf, bare_inner hleaf'] at h

@[simp] theorem BTreeNode.bare_bare (nd : BTreeNode) : nd.bare.bare = nd.bare := by
  unfold bare
  cases nd.leaf <;> rfl

namespace Mem

variable {m m₀ : Mem} {p q : Addr} {nd nd₀ : BTreeNode}

@[simp] theorem bare_bare (m : Mem) : m.bare.bare = m.bare := by
  simp [bare]

@[simp] theorem bare_nodes_length (m : Mem) :
    m.bare.nodes.length = m.nodes.length := List.length_map _

theorem get_bare (m : Mem) (p : Addr) :
    m.bare.get p = (m.get p).map BTreeNode.bare := by
  by_cases hp : p ∈ m.deleted <;> simp [get, bare, hp]

theorem bare_set (m : Mem) (p : Addr) (nd : BTreeNode) :
    (m.set p nd).bare = m.bare.set p nd.bare := by
  simp [bare, set]

theorem bare_push (m : Mem) (nd : BTreeNode) :
    (m.push nd).bare = m.bare.push nd.bare := by
  simp [bare, push]

theorem length_of_bare (h : m.bare = m₀.bare) :
    m.nodes.length = m₀.nodes.length := by
  rw [← bare_nodes_length m, h, bare_nodes_length]

/-- A node of one memory is there in the other, too. -/
theorem get_of_bare (h : m.bare = m₀.bare) (h₀ : m₀.get p = some nd₀) :
    ∃ nd, m.get p = some nd ∧ nd.bare = nd₀.bare := by
  have hget : (m.get p).map BTreeNode.bare = some nd₀.bare := by
    rw [← get_bare, h, get_bare, h₀, Option.map_some]
  simpa using hget

/-- The leaf flag of a node, deleted or not. -/
def flag (m : Mem) (p : Addr) : Option Bool := m.nodes[p]?.map BTreeNode.leaf

theorem flag_of_get (h : m.get p = some nd) : m.flag p = some nd.leaf := by
  have hnodes : m.nodes[p]? = some nd := by
    simpa [get, notMem_deleted_of_get h] using h
  rw [flag, hnodes, Option.map_some]

theorem flag_set_ne (h : q ≠ p) : (m.set p nd).flag q = m.flag q := by
  simp [flag, set, List.getElem?_set_ne (Ne.symm h)]

theorem flag_set_self (h : p < m.nodes.length) :
    (m.set p nd).flag p = some nd.leaf := by
  simp [flag, set, h]

theorem flag_push_lt (h : q < m.nodes.length) :
    (m.push nd).flag q = m.flag q := by
  simp [flag, push, List.getElem?_append_left h]

theorem flag_push_self : (m.push nd).flag m.nodes.length = some nd.leaf := by
  simp [flag, push]

theorem lt_of_flag {b : Bool} (h : m.flag p = some b) : p < m.nodes.length := by
  by_contra hge
  simp [flag, List.getElem?_eq_none (Nat.le_of_not_lt hge)] at h

end Mem

/-! ## Memories that are the same but for leaves' child slots -/

/-- `m` and `m₀` have the same bare memory, and `m₀` satisfies `I`. -/
structure Same (I : Mem → Prop) (m m₀ : Mem) : Prop where
  bare_eq : m.bare = m₀.bare
  inv : I m₀

/-- The nodes in `φ` have the leaf flags given there. -/
def Flags (φ : List (Addr × Bool)) (m : Mem) : Prop :=
  ∀ e ∈ φ, m.flag e.1 = some e.2

section Rules

variable {I : Mem → Prop} {φ : List (Addr × Bool)} {m m₀ : Mem}
  {p q : Addr} {nd nd₀ old : BTreeNode} {b : Bool} {α : Type}

theorem Flags.leaf (h : Flags φ m) (hp : (p, b) ∈ φ) (hget : m.get p = some nd) :
    nd.leaf = b := by
  have hflag := h _ hp
  rw [Mem.flag_of_get hget] at hflag
  exact Option.some.inj hflag

theorem Same.set (h : Same (Flags φ) m m₀) (hget : m₀.get p = some old)
    (hbare : nd.bare = nd₀.bare) (hleaf : nd₀.leaf = old.leaf) :
    Same (Flags φ) (m.set p nd) (m₀.set p nd₀) where
  bare_eq := by rw [Mem.bare_set, Mem.bare_set, h.bare_eq, hbare]
  inv := by
    intro e he
    by_cases hep : e.1 = p
    · rw [hep, Mem.flag_set_self (Mem.lt_of_get hget), hleaf,
        ← Mem.flag_of_get hget, ← hep]
      exact h.inv e he
    · rw [Mem.flag_set_ne hep]
      exact h.inv e he

theorem node_ok {m' : Mem} (h : node p m = .ok (nd, m')) :
    m.get p = some nd ∧ m' = m := by
  cases hget : m.get p with
  | none =>
      simp only [node, bind_run_ok (get_run m), hget] at h
      exact nomatch h
  | some nd' =>
      rw [node_run hget] at h
      cases h
      exact ⟨rfl, rfl⟩

/-- Reading a node: what the two sides go on with differs in the child slots of a
leaf at most. -/
theorem node_follows {g g₀ : BTreeNode → M α} {T : α → α → Mem → Mem → Prop}
    (h : ∀ nd nd₀, nd.bare = nd₀.bare → (∃ m₀, I m₀ ∧ m₀.get p = some nd₀) →
      Follows (fun m m₀ => m₀.get p = some nd₀ ∧ Same I m m₀) (g nd) (g₀ nd₀) T) :
    Follows (Same I) (node p >>= g) (node p >>= g₀) T := by
  intro m m₀ hsame a n₀ hrun
  obtain ⟨nd₀, m₁, hnode, hrest⟩ := bind_ok hrun
  obtain ⟨hget, rfl⟩ := node_ok hnode
  obtain ⟨nd, hnd, hbare⟩ := Mem.get_of_bare hsame.bare_eq hget
  rw [bind_run_ok (node_run hnd)]
  exact h nd nd₀ hbare ⟨m₁, hsame.inv, hget⟩ m m₁ ⟨hget, hsame⟩ a n₀ hrest

/-- Reading a node for data members that the bare node has as well. -/
theorem Keeps.node {g : BTreeNode → M α} {T : α → α → Mem → Mem → Prop}
    (hg : ∀ nd, g nd.bare = g nd)
    (h : ∀ nd, (∃ m₀, I m₀ ∧ m₀.get p = some nd) →
      Follows (Same I) (g nd) (g nd) T) :
    Follows (Same I) (node p >>= g) (node p >>= g) T := by
  refine node_follows fun nd nd₀ hbare hnd₀ => ?_
  rw [← hg, hbare, hg]
  exact (h nd₀ hnd₀).mono (fun _ _ hpre => hpre.2) fun _ _ _ _ hpost => hpost

theorem Keeps.below (n : Nat) : Keeps (Same I) (below n) := by
  cases n with
  | zero => exact Follows.throw _
  | succ n => exact Keeps.pure n

theorem Keeps.keyAt (i : Nat) : Keeps (Same I) (keyAt p i) := by
  refine Keeps.node (fun _ => rfl) fun nd _ => ?_
  cases nd.keys.cells[i]? with
  | none => exact Follows.throw _
  | some v =>
      cases v with
      | none => exact Follows.throw _
      | some v => exact Keeps.pure v

/-! ### Assignments -/

/-- Assignment to a node leaves memories the same if the nodes assigned are the
same and have the leaf flag the node had. -/
theorem set_follows (hbare : nd.bare = nd₀.bare) (hleaf : nd₀.leaf = old.leaf) :
    Follows (fun m m₀ => m₀.get p = some old ∧ Same (Flags φ) m m₀)
      (modify (·.set p nd) : M PUnit) (modify (·.set p nd₀) : M PUnit)
      fun a b m m₀ => a = b ∧ Same (Flags φ) m m₀ := by
  intro m m₀ hpre a n₀ hrun
  obtain rfl : m₀.set p nd₀ = n₀ := congrArg Prod.snd (Except.ok.inj hrun)
  exact ⟨a, m.set p nd, rfl, rfl, hpre.2.set hpre.1 hbare hleaf⟩

theorem setKeysnum_keeps (n : Nat) :
    Keeps (Same (Flags φ)) (setKeysnum p n) :=
  node_follows fun _ _ hbare _ =>
    set_follows (congrArg (fun nd => { nd with keysnum := n }) hbare) rfl

/-- Assignment to a slot that may not be there. -/
private theorem slot_follows {n : BTreeNode → Nat} {i : Nat} {e e₀ : Fault}
    {nd' nd₀' : BTreeNode} (hn : n nd = n nd₀) (hbare : nd'.bare = nd₀'.bare)
    (hleaf : nd₀'.leaf = nd₀.leaf) :
    Follows (fun m m₀ => m₀.get p = some nd₀ ∧ Same (Flags φ) m m₀)
      (if i < n nd then modify (·.set p nd') else throw e : M PUnit)
      (if i < n nd₀ then modify (·.set p nd₀') else throw e₀ : M PUnit)
      fun a b m m₀ => a = b ∧ Same (Flags φ) m m₀ := by
  rw [hn]
  by_cases hi : i < n nd₀
  · rw [if_pos hi, if_pos hi]
    exact set_follows hbare hleaf
  · rw [if_neg hi, if_neg hi]
    exact Follows.throw e₀

theorem setKey_keeps (i : Nat) (v : Int) :
    Keeps (Same (Flags φ)) (setKey p i v) :=
  node_follows fun _ _ hbare _ =>
    slot_follows (n := fun nd => 2 * nd.t - 1)
      (by rw [BTreeNode.t_of_bare hbare])
      (congrArg (fun nd => { nd with keys := nd.keys.set i (some v) }) hbare) rfl

theorem copyKey_keeps (i j : Nat) :
    Keeps (Same (Flags φ)) (copyKey p i q j) :=
  (Keeps.keyAt i).seq fun v => setKey_keeps j v

/-- What is put into the child slot of a leaf does not matter. -/
theorem setChild_follows (hp : (p, b) ∈ φ) (i : Nat) {slot slot₀ : Option Ptr}
    (hslot : b = false → slot = slot₀) :
    Follows (Same (Flags φ)) (setChild p i slot) (setChild p i slot₀)
      fun a b m m₀ => a = b ∧ Same (Flags φ) m m₀ := by
  refine node_follows fun nd nd₀ hbare hnd₀ =>
    slot_follows (n := fun nd => 2 * nd.t)
      (by rw [BTreeNode.t_of_bare hbare]) ?_ rfl
  obtain ⟨m₀, hflags, hget⟩ := hnd₀
  have hleaf₀ : nd₀.leaf = b := hflags.leaf hp hget
  have hleaf : nd.leaf = b := (BTreeNode.leaf_of_bare hbare).trans hleaf₀
  cases b with
  | true =>
      rw [BTreeNode.bare_children hleaf, BTreeNode.bare_children hleaf₀, hbare]
  | false => rw [BTreeNode.eq_of_bare hbare hleaf₀, hslot rfl]

/-- Reading a child slot gives what it holds, and may leave an event. -/
theorem childSlot_ok {i : Nat} {slot : Option Ptr} {m' : Mem}
    (h : childSlot p i m = .ok (slot, m')) :
    ∃ nd es, m.get p = some nd ∧ nd.children.cells[i]? = some slot ∧
      m' = m.logs es := by
  obtain ⟨nd, m₁, hnode, hrest⟩ := bind_ok h
  obtain ⟨hget, rfl⟩ := node_ok hnode
  refine ⟨nd, ?_⟩
  cases hcell : nd.children.cells[i]? with
  | none =>
      rw [hcell] at hrest
      exact nomatch hrest
  | some v =>
      cases v with
      | none =>
          rw [childSlot_unwritten hget hcell] at h
          cases h
          exact ⟨[.unwritten p i], hget, rfl, rfl⟩
      | some c =>
          rw [childSlot_run hget hcell] at h
          cases h
          exact ⟨[], hget, rfl, by simp [Mem.logs]⟩

theorem childSlot_logs {i : Nat} {slot : Option Ptr} (h : m.get p = some nd)
    (hcell : nd.children.cells[i]? = some slot) :
    ∃ es, childSlot p i m = .ok (slot, m.logs es) := by
  cases slot with
  | none => exact ⟨[.unwritten p i], childSlot_unwritten h hcell⟩
  | some c =>
      refine ⟨[], ?_⟩
      rw [childSlot_run h hcell]
      simp [Mem.logs]

theorem Same.logs (h : Same (Flags φ) m m₀) (es es₀ : List Event) :
    Same (Flags φ) (m.logs es) (m₀.logs es₀) where
  bare_eq := h.bare_eq
  inv := h.inv

/-- Copying out of an inner node gives the same pointer on both sides. -/
theorem childSlot_follows (hp : (p, b) ∈ φ) (i : Nat) :
    Follows (Same (Flags φ)) (childSlot p i) (childSlot p i)
      fun slot slot₀ m m₀ => (b = false → slot = slot₀) ∧
        Same (Flags φ) m m₀ := by
  intro m m₀ h slot₀ n₀ hrun
  obtain ⟨nd₀, es₀, hget₀, hcell₀, rfl⟩ := childSlot_ok hrun
  obtain ⟨nd, hget, hbare⟩ := Mem.get_of_bare h.bare_eq hget₀
  have hlt : i < nd.children.cells.length := by
    have hlt₀ := (List.getElem?_eq_some_iff.mp hcell₀).1
    rw [nd₀.children.length_cells] at hlt₀
    rw [nd.children.length_cells, BTreeNode.t_of_bare hbare]
    exact hlt₀
  obtain ⟨es, hslot⟩ := childSlot_logs hget (List.getElem?_eq_getElem hlt)
  refine ⟨_, _, hslot, ?_, h.logs es es₀⟩
  rintro rfl
  obtain rfl : nd = nd₀ := BTreeNode.eq_of_bare hbare (h.inv.leaf hp hget₀)
  exact Option.some.inj ((List.getElem?_eq_getElem hlt).symm.trans hcell₀)

/-- A child slot is copied between two leaves or between two inner nodes. -/
theorem copyChild_keeps (hp : (p, b) ∈ φ) (hq : (q, b) ∈ φ) (i j : Nat) :
    Keeps (Same (Flags φ)) (copyChild p i q j) := by
  refine (childSlot_follows hp i).bind fun slot slot₀ => ?_
  intro m m₀ hpre
  exact setChild_follows hq j hpre.1 m m₀ hpre.2

/-- Calls are recorded in the trace only. -/
theorem record_keeps (hI : ∀ m e, I m → I (m.log e)) (fn : Fn) (caller : Ptr)
    (idx : Nat) (arg : Ptr) : Keeps (Same I) (record fn caller p idx arg) := by
  intro m m₀ h a n₀ hrun
  obtain rfl := congrArg Prod.snd (Except.ok.inj hrun)
  exact ⟨a, _, rfl, rfl, h.bare_eq, hI m₀ _ h.inv⟩

/-- A new node has the address it has on the other side, and is flagged. -/
theorem newNode_follows (t : Nat) (b : Bool) :
    Follows (Same (Flags φ)) (newNode t b) (newNode t b)
      fun z z₀ m m₀ => z = z₀ ∧ Same (Flags ((z₀, b) :: φ)) m m₀ := by
  intro m m₀ h z₀ n₀ hrun
  obtain ⟨rfl, rfl⟩ : m₀.nodes.length = z₀ ∧ m₀.push (.new t b) = n₀ :=
    Prod.mk.inj (Except.ok.inj hrun)
  refine ⟨m.nodes.length, m.push (.new t b), rfl, Mem.length_of_bare h.bare_eq,
    ?_, ?_⟩
  · rw [Mem.bare_push, Mem.bare_push, h.bare_eq]
  · intro e he
    rcases List.mem_cons.mp he with rfl | he
    · exact Mem.flag_push_self
    · rw [Mem.flag_push_lt (Mem.lt_of_flag (h.inv e he))]
      exact h.inv e he

/-- A node that is marked as a leaf has nothing in its child slots any more. -/
theorem setLeaf_follows :
    Follows (Same I) (setLeaf p true) (setLeaf p true)
      fun a b m m₀ => a = b ∧ Same (Flags [(p, true)]) m m₀ := by
  refine node_follows fun nd nd₀ hbare _ => ?_
  rintro m m₀ ⟨hget, h⟩ a n₀ hrun
  obtain rfl := congrArg Prod.snd (Except.ok.inj hrun)
  refine ⟨a, _, rfl, rfl, ?_, ?_⟩
  · rw [Mem.bare_set, Mem.bare_set, h.bare_eq]
    exact congrArg (fun nd => m₀.bare.set p { nd with leaf := true }.bare) hbare
  · intro e he
    rw [List.mem_singleton.mp he]
    exact Mem.flag_set_self (Mem.lt_of_get hget)

/-- Deleting a node that is marked as a leaf. -/
theorem delete_keeps (hp : (p, true) ∈ φ) (fuel : Nat) :
    Keeps (Same (Flags φ)) (BTreeNode.delete fuel (some p)) := by
  cases fuel with
  | zero => exact Follows.throw _
  | succ fuel =>
      refine Keeps.node (fun _ => rfl) fun nd hnd => ?_
      obtain ⟨m₀, hflags, hget⟩ := hnd
      rw [onlyIf_neg (by simp [hflags.leaf hp hget])]
      intro m m₀ h a n₀ hrun
      obtain rfl := congrArg Prod.snd (Except.ok.inj hrun)
      refine ⟨a, _, rfl, rfl, ?_, h.inv⟩
      exact congrArg (·.release p) h.bare_eq

/-- Reading how many nodes there are. -/
theorem Keeps.size {g : Nat → M α} {T : α → α → Mem → Mem → Prop}
    (h : ∀ k, Follows (Same I) (g k) (g k) T) :
    Follows (Same I) (get >>= fun m => g m.nodes.length)
      (get >>= fun m => g m.nodes.length) T := by
  intro m m₀ hsame
  rw [bind_run_ok (get_run m), bind_run_ok (get_run m₀),
    Mem.length_of_bare hsame.bare_eq]
  exact h _ m m₀ hsame

end Rules

end ParallelBTree.Ports.NodeMemory
