import ParallelBTree.Verified.Slots

/-!
# The memory the tree's nodes live in

A `BTreeNode` object is its five data members.  Nodes are created by `new` and
referred to by address; the address is the node's identity, the position at
which it was created, and is never used again.  `delete` records a node, and a
recorded node can no longer be accessed.

Both arrays of a node keep exactly the slots the constructor allocates, written
or not, whatever `keysnum` says: removals, merges and splits only lower
`keysnum` and leave the slots behind it as they are.

Every access goes through the accessors below, and an access the C++ program
may not make is a `Fault`.  A key that was never written has no value to hand
on, so reading it is a fault; an unwritten child slot can still be *copied*
(the pointer is not followed), which the trace records.

The trace is a ghost: it lists the calls made, what was printed, and the reads
of unwritten child slots.  No function reads it back.
-/

namespace ParallelBTree.Ports.NodeMemory

open ParallelBTree.Verified.Program
open ParallelBTree.Verified.Slots

/-- The identity of a node: how many were created before it. -/
abbrev Addr := Nat

/-- A `BTreeNode*`; `none` is `nullptr`. -/
abbrev Ptr := Option Addr

/-- The data members of a `BTreeNode`.  `keys` has `2 * t - 1` slots and
`children` has `2 * t`; a slot is `none` until it is first assigned. -/
structure BTreeNode where
  t : Nat
  leaf : Bool
  keysnum : Nat
  keys : SlotArray Int (2 * t - 1)
  children : SlotArray Ptr (2 * t)

/-- The constructor: both arrays allocated, neither initialised. -/
def BTreeNode.new (t : Nat) (leaf : Bool) : BTreeNode where
  t := t
  leaf := leaf
  keysnum := 0
  keys := .fresh Int (2 * t - 1)
  children := .fresh Ptr (2 * t)

/-- What may go wrong in an access. -/
inductive Fault where
  /-- `keys[i]` outside `[0, 2t-1)` -/
  | keyIndex (p : Addr) (i : Nat)
  /-- `children[i]` outside `[0, 2t)` -/
  | childIndex (p : Addr) (i : Nat)
  /-- an index or a count below zero -/
  | negative
  /-- the value of a key slot that was never assigned -/
  | unwrittenKey (p : Addr) (i : Nat)
  /-- a child slot that was never assigned, followed or deleted -/
  | unwrittenChild (p : Addr) (i : Nat)
  /-- `nullptr` followed -/
  | nullChild (p : Addr) (i : Nat)
  /-- a node that was deleted, or never created -/
  | deadNode (p : Addr)
  /-- more recursive calls than there are nodes -/
  | fuel
  deriving DecidableEq, Repr

/-! ## The trace -/

/-- The member functions whose calls are recorded; `removed` is the return
from a `remove`. -/
inductive Fn where
  | insertNonFull | splitChild | remove | removed | fill
  | borrowFromPrev | borrowFromNext | merge
  deriving DecidableEq, Repr

/-- A node as a call finds it: how many keys it holds, and which children with
how many keys each. -/
structure View where
  id : Addr
  keysnum : Nat
  children : List (Addr × Nat)
  deriving DecidableEq, Repr

/-- One call: the receiver, the index and the node passed to it, and the
receiver of the call it was made from when that is another node. -/
structure Call where
  fn : Fn
  caller : Option View
  idx : Nat
  arg : Ptr
  view : View
  deriving DecidableEq, Repr

inductive Event where
  | call (c : Call)
  | unwritten (p : Addr) (i : Nat)
  | print (msg : String)
  deriving DecidableEq, Repr

/-! ## Memory -/

/-- All nodes created so far, the identities recorded by `delete` in their
order, and the trace. -/
structure Mem where
  nodes : List BTreeNode
  deleted : List Addr
  trace : List Event

namespace Mem

def empty : Mem := ⟨[], [], []⟩

/-- The node at an address, if it was created and not deleted. -/
def get (m : Mem) (p : Addr) : Option BTreeNode :=
  if p ∈ m.deleted then none else m.nodes[p]?

def set (m : Mem) (p : Addr) (nd : BTreeNode) : Mem :=
  { m with nodes := m.nodes.set p nd }

/-- Allocation of one more node. -/
def push (m : Mem) (nd : BTreeNode) : Mem :=
  { m with nodes := m.nodes ++ [nd] }

/-- `delete` of one node. -/
def release (m : Mem) (p : Addr) : Mem :=
  { m with deleted := m.deleted ++ [p] }

def log (m : Mem) (e : Event) : Mem :=
  { m with trace := m.trace ++ [e] }

def logs (m : Mem) (es : List Event) : Mem :=
  { m with trace := m.trace ++ es }

/-- The key count of a node, zero for an address without one. -/
def occupancy (m : Mem) (p : Addr) : Nat :=
  (m.get p).elim 0 BTreeNode.keysnum

/-- What a call with receiver `p` finds. -/
def view (m : Mem) (p : Addr) : View :=
  match m.get p with
  | none => ⟨p, 0, []⟩
  | some nd =>
      ⟨p, nd.keysnum,
        if nd.leaf then []
        else (nd.children.cells.take (nd.keysnum + 1)).filterMap fun slot =>
          slot.join.map fun c => (c, m.occupancy c)⟩

theorem lt_of_get {m : Mem} {p : Addr} {nd : BTreeNode}
    (h : m.get p = some nd) : p < m.nodes.length := by
  simp only [get] at h
  split at h
  · cases h
  · exact (List.getElem?_eq_some_iff.mp h).1

theorem notMem_deleted_of_get {m : Mem} {p : Addr} {nd : BTreeNode}
    (h : m.get p = some nd) : p ∉ m.deleted := by
  intro hd
  simp [get, hd] at h

theorem get_set_self {m : Mem} {p : Addr} {nd old : BTreeNode}
    (h : m.get p = some old) : (m.set p nd).get p = some nd := by
  have hd : p ∉ m.deleted := notMem_deleted_of_get h
  have hlt : p < m.nodes.length := lt_of_get h
  simp [get, set, hd, hlt]

theorem set_self {m : Mem} {q : Addr} {nd : BTreeNode} (h : m.get q = some nd) :
    m.set q nd = m := by
  have hlt : q < m.nodes.length := lt_of_get h
  have hnd : m.nodes[q] = nd := by
    simpa [get, notMem_deleted_of_get h, hlt] using h
  have hset : m.nodes.set q nd = m.nodes := by
    rw [← hnd, List.set_getElem_self]
  unfold set
  rw [hset]

@[simp] theorem get_set_ne {m : Mem} {p q : Addr} {nd : BTreeNode}
    (h : q ≠ p) : (m.set p nd).get q = m.get q := by
  simp [get, set, List.getElem?_set_ne (Ne.symm h)]

theorem get_push_self {m : Mem} {nd : BTreeNode}
    (h : m.nodes.length ∉ m.deleted) :
    (m.push nd).get m.nodes.length = some nd := by
  simp [get, push, h]

theorem get_push_lt {m : Mem} {nd : BTreeNode} {q : Addr}
    (h : q < m.nodes.length) : (m.push nd).get q = m.get q := by
  simp [get, push, List.getElem?_append_left h]

theorem get_release_ne {m : Mem} {p q : Addr} (h : q ≠ p) :
    (m.release p).get q = m.get q := by
  simp [get, release, h]

@[simp] theorem set_nodes_length (m : Mem) (p : Addr) (nd : BTreeNode) :
    (m.set p nd).nodes.length = m.nodes.length := by
  simp [set]

@[simp] theorem set_deleted (m : Mem) (p : Addr) (nd : BTreeNode) :
    (m.set p nd).deleted = m.deleted := rfl

@[simp] theorem set_trace (m : Mem) (p : Addr) (nd : BTreeNode) :
    (m.set p nd).trace = m.trace := rfl

end Mem

/-! ## Accessors -/

/-- Programs over the memory. -/
abbrev M (α : Type) := Prog Mem Fault α

/-- `*p`. -/
def node (p : Addr) : M BTreeNode := do
  match (← get).get p with
  | some nd => pure nd
  | none => throw (.deadNode p)

/-- Assignment to the data members of `*p`. -/
def modifyNode (p : Addr) (f : BTreeNode → BTreeNode) : M Unit := do
  let nd ← node p
  modify (·.set p (f nd))

def setKeysnum (p : Addr) (n : Nat) : M Unit :=
  modifyNode p fun nd => { nd with keysnum := n }

def setLeaf (p : Addr) (leaf : Bool) : M Unit :=
  modifyNode p fun nd => { nd with leaf := leaf }

/-- `n - 1` where the program needs it to be a position or a count. -/
def below : Nat → M Nat
  | 0 => throw .negative
  | n + 1 => pure n

/-- The value of `p->keys[i]`. -/
def keyAt (p : Addr) (i : Nat) : M Int := do
  let nd ← node p
  match nd.keys.cells[i]? with
  | none => throw (.keyIndex p i)
  | some none => throw (.unwrittenKey p i)
  | some (some v) => pure v

/-- `p->keys[i] = v`. -/
def setKey (p : Addr) (i : Nat) (v : Int) : M Unit := do
  let nd ← node p
  if i < 2 * nd.t - 1 then
    modify (·.set p { nd with keys := nd.keys.set i (some v) })
  else throw (.keyIndex p i)

/-- What stands in `p->children[i]`, to be copied and not followed. -/
def childSlot (p : Addr) (i : Nat) : M (Option Ptr) := do
  let nd ← node p
  match nd.children.cells[i]? with
  | none => throw (.childIndex p i)
  | some none => do
      modify (·.log (.unwritten p i))
      pure none
  | some (some c) => pure (some c)

/-- `p->children[i] = slot`. -/
def setChild (p : Addr) (i : Nat) (slot : Option Ptr) : M Unit := do
  let nd ← node p
  if i < 2 * nd.t then
    modify (·.set p { nd with children := nd.children.set i slot })
  else throw (.childIndex p i)

/-- The pointer in `p->children[i]`. -/
def childPtr (p : Addr) (i : Nat) : M Ptr := do
  match ← childSlot p i with
  | none => throw (.unwrittenChild p i)
  | some c => pure c

/-- The node `p->children[i]` points to. -/
def child (p : Addr) (i : Nat) : M Addr := do
  match ← childPtr p i with
  | none => throw (.nullChild p i)
  | some c => pure c

/-- `q->keys[j] = p->keys[i]`. -/
def copyKey (p : Addr) (i : Nat) (q : Addr) (j : Nat) : M Unit := do
  setKey q j (← keyAt p i)

/-- `q->children[j] = p->children[i]`. -/
def copyChild (p : Addr) (i : Nat) (q : Addr) (j : Nat) : M Unit := do
  setChild q j (← childSlot p i)

/-- `new BTreeNode(t, leaf)`. -/
def newNode (t : Nat) (leaf : Bool) : M Addr := do
  let m ← get
  modify (·.push (.new t leaf))
  pure m.nodes.length

/-- Ghost: record a call with receiver `self`. -/
def record (fn : Fn) (caller : Ptr) (self : Addr) (idx : Nat) (arg : Ptr) :
    M Unit :=
  modify fun m => m.log (.call ⟨fn, caller.map m.view, idx, arg, m.view self⟩)

/-- `std::cout << msg`. -/
def print (msg : String) : M Unit :=
  modify (·.log (.print msg))

end ParallelBTree.Ports.NodeMemory
