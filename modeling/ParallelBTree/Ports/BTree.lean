import ParallelBTree.Ports.BTreeNode

/-!
# `btree/BTree.cpp`

The class `BTree` over the node functions, and the histories of its calls.
-/

namespace ParallelBTree.Ports

open ParallelBTree.Verified.Program
open ParallelBTree.Ports.NodeMemory

/-- The data members of a `BTree`, with the memory that holds its nodes. -/
structure BTree where
  t : Nat
  root : Ptr
  mem : Mem

namespace BTree

/-- `BTree(t)`. -/
def new (t : Nat) : BTree := ⟨t, none, .empty⟩

/-- `to_str()`. -/
def to_str (root : Ptr) : M String := do
  match root with
  | some r => BTreeNode.to_str (← get).nodes.length r
  | none => pure " [ ]"

/-- `exist(key)`. -/
def exist (rd : Addr → Nat → M Int) (root : Ptr) (key : Int) : M Bool := do
  match root with
  | some r => BTreeNode.exist rd (← get).nodes.length r key
  | none => pure false

/-- `insert(key)`: what it returns and the new `root`. -/
def insert (t : Nat) (root : Ptr) (key : Int) : M (Bool × Ptr) := do
  match root with
  | none => do
      let r ← newNode t true
      setKey r 0 key
      setKeysnum r 1
      pure (true, some r)
  | some r => do
      let fuel := (← get).nodes.length
      if (← node r).keysnum ≠ 2 * t - 1 then
        record .insertNonFull none r 0 none
        BTreeNode.insertNonFull fuel r key
        pure (true, some r)
      else
        let newroot ← newNode t false
        setChild newroot 0 (some (some r))
        BTreeNode.splitChild newroot 0 r
        let i := if (← keyAt newroot 0) < key then 1 else 0
        let c ← child newroot i
        record .insertNonFull (some newroot) c i none
        BTreeNode.insertNonFull fuel c key
        pure (true, some newroot)

/-- `remove(key)`: what it returns and the new `root`. -/
def remove (root : Ptr) (key : Int) : M (Bool × Ptr) := do
  match root with
  | none => pure (false, none)
  | some r => do
      record .remove none r 0 none
      BTreeNode.remove (← get).nodes.length r key
      record .removed none r 0 none
      if (← node r).keysnum = 0 then
        let root ← (if (← node r).leaf then pure none
          else do
            let c ← childPtr r 0
            setChild r 0 (some none)
            pure c)
        BTreeNode.delete (← get).nodes.length (some r)
        pure (true, root)
      else pure (true, some r)

/-- `~BTree()`. -/
def destroy (root : Ptr) : M Unit := do
  BTreeNode.delete (← get).nodes.length root

/-! ## Histories -/

/-- A call of one of the two mutating member functions. -/
inductive Op where
  | insert (key : Int)
  | remove (key : Int)
  deriving DecidableEq, Repr

/-- One call on a tree object: what it returns and the tree afterwards. -/
def exec (b : BTree) (op : Op) : Except Fault (Bool × BTree) := do
  let ((r, root), mem) ← (match op with
    | .insert key => insert b.t b.root key b.mem
    | .remove key => remove b.root key b.mem)
  pure (r, ⟨b.t, root, mem⟩)

/-- A sequence of calls, one after the other. -/
def run (b : BTree) : List Op → Except Fault BTree
  | [] => pure b
  | op :: ops => do
      let (_, b) ← b.exec op
      b.run ops

end BTree

end ParallelBTree.Ports
