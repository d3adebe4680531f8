import ParallelBTree.Ports.NodeMemory

/-!
# `btree/BTreeNode.cpp`

The member functions of `BTreeNode`, statement by statement; `p` is `this`.

Recursive functions take the number of nested calls still allowed as `fuel`
and fault without it.  `BTree` starts them with the number of nodes created so
far.  An index variable that the source lets run down to `-1` is kept one
higher here (`i + 1` in the source is `pos` below), so that it is a natural
number throughout; where the source itself uses `n - 1` as an index or a count,
`below n` faults when there is no such number.

`removeFromNonLeaf` calls `remove` on a child; it takes that function as its
argument, with the fuel already spent by one.
-/

namespace ParallelBTree.Ports.BTreeNode

open ParallelBTree.Verified.Program
open ParallelBTree.Ports.NodeMemory

/-- `delete ptr`: the destructor deletes `children[0..keysnum]` of a node that
is not marked as a leaf, and then the node is gone. -/
def delete : Nat → Ptr → M Unit
  | _, none => pure ()
  | 0, some _ => throw .fuel
  | fuel + 1, some p => do
      let nd ← node p
      onlyIf (!nd.leaf) <|
        forUp 0 (nd.keysnum + 1) fun i => do delete fuel (← childPtr p i)
      modify (·.release p)

/-- `to_str()`. -/
def to_str : Nat → Addr → M String
  | 0, _ => throw .fuel
  | fuel + 1, p => do
      let nd ← node p
      let result ← foldUp nd.keysnum " [" fun i result => do
        let result ← (if nd.leaf then pure result
          else do pure (result ++ (← to_str fuel (← child p i))))
        pure (result ++ (" " ++ toString (← keyAt p i)))
      let result ← (if nd.leaf then pure result
        else do pure (result ++ (← to_str fuel (← child p nd.keysnum))))
      pure (result ++ " ]")

/-- `exist(key)`.  The comparison after the loop reads `keys[i]` also when
`i == keysnum`; what that read gives is left to `rd`. -/
def exist (rd : Addr → Nat → M Int) : Nat → Addr → Int → M Bool
  | 0, _, _ => throw .fuel
  | fuel + 1, p, key => do
      let nd ← node p
      let i ← scanUp nd.keysnum fun i => do pure (decide ((← rd p i) < key))
      if (← rd p i) = key then pure true
      else if nd.leaf then pure false
      else exist rd fuel (← child p i) key

/-- `findKey(key)`. -/
def findKey (p : Addr) (key : Int) : M Nat := do
  scanUp (← node p).keysnum fun i => do pure (decide ((← keyAt p i) < key))

/-- `splitChild(i, y)`. -/
def splitChild (p : Addr) (i : Nat) (y : Addr) : M Unit := do
  record .splitChild none p i (some y)
  let t := (← node p).t
  let z ← newNode (← node y).t (← node y).leaf
  setKeysnum z (t - 1)
  forUp 0 (t - 1) fun j => copyKey y (j + t) z j
  onlyIf (!(← node y).leaf) <|
    forUp 0 t fun j => copyChild y (j + t) z j
  setKeysnum y (t - 1)
  forDown ((← node p).keysnum + 1) (i + 1) fun j => copyChild p j p (j + 1)
  setChild p (i + 1) (some (some z))
  forDown (← node p).keysnum i fun j => copyKey p j p (j + 1)
  copyKey y (t - 1) p i
  setKeysnum p ((← node p).keysnum + 1)

/-- `insertNonFull(key)`. -/
def insertNonFull : Nat → Addr → Int → M Unit
  | 0, _, _ => throw .fuel
  | fuel + 1, p, key => do
      let nd ← node p
      if nd.leaf then
        let pos ← scanDown (fun i => do pure (decide (key < (← keyAt p i))))
          (fun i => copyKey p i p (i + 1)) nd.keysnum
        setKey p pos key
        setKeysnum p ((← node p).keysnum + 1)
      else
        let pos ← scanDown (fun i => do pure (decide (key < (← keyAt p i))))
          (fun _ => pure ()) nd.keysnum
        let y ← child p pos
        let pos ← (if (← node y).keysnum = 2 * nd.t - 1 then do
            splitChild p pos y
            if (← keyAt p pos) < key then pure (pos + 1) else pure pos
          else pure pos)
        let c ← child p pos
        record .insertNonFull (some p) c pos none
        insertNonFull fuel c key

/-- `removeFromLeaf(idx)`. -/
def removeFromLeaf (p : Addr) (idx : Nat) : M Unit := do
  forUp (idx + 1) (← node p).keysnum fun i => copyKey p i p (i - 1)
  setKeysnum p (← below (← node p).keysnum)

/-- The loop of `getPred`: the rightmost leaf below `cur`. -/
def rightmostLeaf : Nat → Addr → M Addr
  | 0, _ => throw .fuel
  | fuel + 1, cur => do
      let nd ← node cur
      if nd.leaf then pure cur
      else rightmostLeaf fuel (← child cur nd.keysnum)

/-- `getPred(idx)`. -/
def getPred (fuel : Nat) (p : Addr) (idx : Nat) : M Int := do
  let cur ← rightmostLeaf fuel (← child p idx)
  keyAt cur (← below (← node cur).keysnum)

/-- The loop of `getSucc`: the leftmost leaf below `cur`. -/
def leftmostLeaf : Nat → Addr → M Addr
  | 0, _ => throw .fuel
  | fuel + 1, cur => do
      let nd ← node cur
      if nd.leaf then pure cur
      else leftmostLeaf fuel (← child cur 0)

/-- `getSucc(idx)`. -/
def getSucc (fuel : Nat) (p : Addr) (idx : Nat) : M Int := do
  let cur ← leftmostLeaf fuel (← child p (idx + 1))
  keyAt cur 0

/-- `borrowFromPrev(idx)`. -/
def borrowFromPrev (p : Addr) (idx : Nat) : M Unit := do
  record .borrowFromPrev none p idx none
  let c ← child p idx
  let s ← child p (← below idx)
  forDown (← node c).keysnum 0 fun i => copyKey c i c (i + 1)
  onlyIf (!(← node c).leaf) <| do
    forDown ((← node c).keysnum + 1) 0 fun i => copyChild c i c (i + 1)
  copyKey p (← below idx) c 0
  -- the source tests its own `leaf` here, not the child's
  onlyIf (!(← node p).leaf) <| do
    copyChild s (← node s).keysnum c 0
  copyKey s (← below (← node s).keysnum) p (← below idx)
  setKeysnum c ((← node c).keysnum + 1)
  setKeysnum s (← below (← node s).keysnum)

/-- `borrowFromNext(idx)`. -/
def borrowFromNext (p : Addr) (idx : Nat) : M Unit := do
  record .borrowFromNext none p idx none
  let c ← child p idx
  let s ← child p (idx + 1)
  copyKey p idx c (← node c).keysnum
  onlyIf (!(← node c).leaf) <| do
    copyChild s 0 c ((← node c).keysnum + 1)
  copyKey s 0 p idx
  forUp 1 (← node s).keysnum fun i => copyKey s i s (i - 1)
  onlyIf (!(← node s).leaf) <| do
    forUp 1 ((← node s).keysnum + 1) fun i => copyChild s i s (i - 1)
  setKeysnum c ((← node c).keysnum + 1)
  setKeysnum s (← below (← node s).keysnum)

/-- `merge(idx)`. -/
def merge (p : Addr) (idx : Nat) : M Unit := do
  record .merge none p idx none
  let t := (← node p).t
  let c ← child p idx
  let s ← child p (idx + 1)
  copyKey p idx c (t - 1)
  forUp 0 (← node s).keysnum fun i => copyKey s i c (i + t)
  onlyIf (!(← node c).leaf) <| do
    forUp 0 ((← node s).keysnum + 1) fun i => copyChild s i c (i + t)
  forUp (idx + 1) (← node p).keysnum fun i => copyKey p i p (i - 1)
  forUp (idx + 2) ((← node p).keysnum + 1) fun i => copyChild p i p (i - 1)
  setKeysnum c ((← node c).keysnum + ((← node s).keysnum + 1))
  setKeysnum p (← below (← node p).keysnum)
  -- marked as a leaf, so that its destructor leaves the moved children alone
  setLeaf s true
  delete (← get).nodes.length (some s)

/-- `fill(idx)`. -/
def fill (p : Addr) (idx : Nat) : M Unit := do
  record .fill none p idx none
  let nd ← node p
  let fromPrev ← (if idx ≠ 0 then do
      pure (decide (nd.t ≤ (← node (← child p (← below idx))).keysnum))
    else pure false)
  if fromPrev then borrowFromPrev p idx
  else
    let fromNext ← (if idx ≠ nd.keysnum then do
        pure (decide (nd.t ≤ (← node (← child p (idx + 1))).keysnum))
      else pure false)
    if fromNext then borrowFromNext p idx
    else if idx ≠ nd.keysnum then merge p idx
    else merge p (← below idx)

/-- `children[idx]->remove(key)` as it stands in a member function of `p`. -/
def removeIn (rec : Addr → Int → M Unit) (p : Addr) (idx : Nat) (key : Int) :
    M Unit := do
  let c ← child p idx
  record .remove (some p) c idx none
  rec c key
  record .removed (some p) c idx none

/-- `removeFromNonLeaf(idx)`. -/
def removeFromNonLeaf (fuel : Nat) (rec : Addr → Int → M Unit) (p : Addr)
    (idx : Nat) : M Unit := do
  let k ← keyAt p idx
  let t := (← node p).t
  if t ≤ (← node (← child p idx)).keysnum then
    let pred ← getPred fuel p idx
    setKey p idx pred
    removeIn rec p idx pred
  else if t ≤ (← node (← child p (idx + 1))).keysnum then
    let succ ← getSucc fuel p idx
    setKey p idx succ
    removeIn rec p (idx + 1) succ
  else
    merge p idx
    removeIn rec p idx k

/-- What `remove` prints when the search for the key ends at a leaf. -/
def notFound (key : Int) : String :=
  "The key " ++ toString key ++ " is does not exist in the tree\n"

/-- `remove(key)`. -/
def remove : Nat → Addr → Int → M Unit
  | 0, _, _ => throw .fuel
  | fuel + 1, p, key => do
      let idx ← findKey p key
      let nd ← node p
      let found ← (if idx < nd.keysnum then do
          pure (decide ((← keyAt p idx) = key))
        else pure false)
      if found then
        if nd.leaf then removeFromLeaf p idx
        else removeFromNonLeaf fuel (remove fuel) p idx
      else if nd.leaf then print (notFound key)
      else
        let flag := decide (idx = nd.keysnum)
        onlyIf (decide ((← node (← child p idx)).keysnum < nd.t)) (fill p idx)
        if flag && decide ((← node p).keysnum < idx) then
          removeIn (remove fuel) p (← below idx) key
        else removeIn (remove fuel) p idx key

end ParallelBTree.Ports.BTreeNode
