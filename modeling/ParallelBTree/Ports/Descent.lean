import ParallelBTree.Verified.Restructure
import ParallelBTree.Ports.BTreeNode
import Mathlib.Data.List.DropRight

/-!
# The descents of `BTreeNode`, as functions on trees

`insertNonFull` and `remove` on the abstract trees of `Verified.Multiway`: the
same decisions in the same order as in `btree/BTreeNode.cpp`, with the array
loops replaced by list operations and without a memory.  Each function returns
the tree it leaves together with what it does to the memory: how many nodes it
creates, which ones it deletes, and what it appends to the trace.

`Ports.RefineSteps`, `Ports.RefineInsert` and `Ports.RefineRemove` prove that the
functions on the memory compute exactly these; everything about contents and shape
is proved on the trees, by induction on the height.
-/

namespace ParallelBTree.Ports.Descent

open ParallelBTree.Verified.Multiway
open ParallelBTree.Ports.NodeMemory

/-- What a descent into a tree of height `n` leaves behind. -/
structure Outcome (n : Nat) where
  tree : Tree Int n
  created : Nat
  freed : List Addr
  trace : List Event

/-- Nothing happens. -/
def Outcome.same {n : Nat} (T : Tree Int n) : Outcome n := ⟨T, 0, [], []⟩

/-- What a call finds when its receiver is the root of `T`. -/
def viewOf : (n : Nat) → Tree Int n → View
  | 0, T => ⟨T.id, T.size, []⟩
  | _ + 1, T => ⟨T.id, T.size, T.kids.map fun c => (c.id, c.size)⟩

/-- The call of a member function on the root of `T`. -/
def called (fn : Fn) {n : Nat} (T : Tree Int n) (idx : Nat)
    (arg : Ptr) : Event :=
  .call ⟨fn, none, idx, arg, viewOf n T⟩

/-- The call of a member function on kid `idx` of `T`, from one of `T`'s. -/
def calledIn (fn : Fn) {n : Nat} (T : Tree Int (n + 1)) (idx : Nat)
    (c : Tree Int n) : Event :=
  .call ⟨fn, some (viewOf (n + 1) T), idx, none, viewOf n c⟩

/-- Where `findKey` stops. -/
def lowerPos (K : List Int) (key : Int) : Nat :=
  (K.takeWhile (· < key)).length

/-- Where the loops of `insertNonFull` stop, one above their `i`. -/
def upperPos (K : List Int) (key : Int) : Nat :=
  (K.rdropWhile (key < ·)).length

/-- Kid `j` replaced. -/
def setKid {n : Nat} (T : Tree Int (n + 1)) (j : Nat) (c : Tree Int n) :
    Tree Int (n + 1) :=
  ⟨T.id, T.keys, T.kids.set j c⟩

/-- Key `j` replaced. -/
def setKeyOf {n : Nat} (T : Tree Int n) (j : Nat) (k : Int) : Tree Int n :=
  ⟨T.id, T.keys.set j k, T.kids⟩

/-! ## Insertion -/

/-- The recursive call of `insertNonFull`, on kid `j`. -/
def insertIn {n : Nat} (rec : Tree Int n → Outcome n) (T : Tree Int (n + 1))
    (j : Nat) : Outcome (n + 1) :=
  match T.kids[j]? with
  | none => .same T
  | some c =>
      let o := rec c
      ⟨setKid T j o.tree, o.created, o.freed,
        calledIn .insertNonFull T j c :: o.trace⟩

/-- The kid the key belongs to after kid `pos` has been split. -/
def splitPos (K : List Int) (key : Int) (pos : Nat) : Nat :=
  if K[pos]?.any (· < key) then pos + 1 else pos

/-- `insertNonFull`; `next` is the identity the next new node gets. -/
def insertNonFull (t : Nat) (key : Int) :
    (n : Nat) → Tree Int n → Nat → Outcome n
  | 0, T, _ =>
      let pos := upperPos T.keys key
      .same ⟨T.id, T.keys.take pos ++ key :: T.keys.drop pos, T.kids⟩
  | n + 1, T, next =>
      let pos := upperPos T.keys key
      match T.kids[pos]? with
      | none => .same T
      | some y =>
          if y.size = 2 * t - 1 then
            let T' := T.split t next pos
            let o := insertIn (fun c => insertNonFull t key n c (next + 1)) T'
              (splitPos T'.keys key pos)
            ⟨o.tree, o.created + 1, o.freed,
              called .splitChild T pos (some y.id) :: o.trace⟩
          else insertIn (fun c => insertNonFull t key n c next) T pos

/-! ## Removal -/

/-- The number of keys of kid `i`. -/
def kidSize {n : Nat} (T : Tree Int (n + 1)) (i : Nat) : Nat :=
  (T.kids[i]?).elim 0 Node.size

/-- The identity of kid `i`, as a list. -/
def kidId {n : Nat} (T : Tree Int (n + 1)) (i : Nat) : List Addr :=
  (T.kids[i]?).toList.map Node.id

/-- What `borrowFromPrev` copies out of a sibling that is a leaf. -/
def staleCopy {n : Nat} (T : Tree Int (n + 1)) (i : Nat) : List Event :=
  if n = 0 then
    (T.kids[i]?).toList.map fun s => .unwritten s.id s.size
  else []

/-- `fill(idx)`. -/
def fill (t : Nat) {n : Nat} (T : Tree Int (n + 1)) (idx : Nat) :
    Outcome (n + 1) :=
  if idx ≠ 0 ∧ t ≤ kidSize T (idx - 1) then
    ⟨T.rotateRight (idx - 1), 0, [],
      called .fill T idx none :: called .borrowFromPrev T idx none ::
        staleCopy T (idx - 1)⟩
  else if idx ≠ T.size ∧ t ≤ kidSize T (idx + 1) then
    ⟨T.rotateLeft idx, 0, [],
      [called .fill T idx none, called .borrowFromNext T idx none]⟩
  else if idx ≠ T.size then
    ⟨T.merge idx, 0, kidId T (idx + 1),
      [called .fill T idx none, called .merge T idx none]⟩
  else
    ⟨T.merge (idx - 1), 0, kidId T idx,
      [called .fill T idx none, called .merge T (idx - 1) none]⟩

/-- The recursive call of `remove`, on kid `j`. -/
def removeIn {n : Nat} (rec : Tree Int n → Outcome n) (T : Tree Int (n + 1))
    (j : Nat) : Outcome (n + 1) :=
  match T.kids[j]? with
  | none => .same T
  | some c =>
      let o := rec c
      ⟨setKid T j o.tree, o.created, o.freed,
        calledIn .remove T j c :: o.trace ++
          [calledIn .removed (setKid T j o.tree) j o.tree]⟩

/-- One outcome after another. -/
def Outcome.andThen {n : Nat} (o : Outcome n) (f : Tree Int n → Outcome n) :
    Outcome n :=
  let o' := f o.tree
  ⟨o'.tree, o.created + o'.created, o.freed ++ o'.freed, o.trace ++ o'.trace⟩

/-- `merge(idx)` by itself. -/
def mergeAt {n : Nat} (T : Tree Int (n + 1)) (idx : Nat) : Outcome (n + 1) :=
  ⟨T.merge idx, 0, kidId T (idx + 1), [called .merge T idx none]⟩

/-- `removeFromNonLeaf(idx)`; `rec` removes a key from a kid. -/
def removeFromNonLeaf (t : Nat) {n : Nat}
    (rec : Int → Tree Int n → Outcome n) (T : Tree Int (n + 1)) (idx : Nat)
    (k : Int) : Outcome (n + 1) :=
  match T.kids[idx]?, T.kids[idx + 1]? with
  | some c, some s =>
      if t ≤ c.size then
        match (inorder n c).getLast? with
        | none => .same T
        | some pred => removeIn (rec pred) (setKeyOf T idx pred) idx
      else if t ≤ s.size then
        match (inorder n s).head? with
        | none => .same T
        | some succ => removeIn (rec succ) (setKeyOf T idx succ) (idx + 1)
      else (mergeAt T idx).andThen fun T' => removeIn (rec k) T' idx
  | _, _ => .same T

/-- The kid `remove` descends into after `fill(idx)`, from the old and the new
key count. -/
def fillPos (idx size size' : Nat) : Nat :=
  if idx = size ∧ size' < idx then idx - 1 else idx

/-- `remove(key)`. -/
def remove (t : Nat) : (n : Nat) → Int → Tree Int n → Outcome n
  | 0, key, T =>
      let idx := lowerPos T.keys key
      if T.keys[idx]? = some key then
        .same ⟨T.id, T.keys.take idx ++ T.keys.drop (idx + 1), T.kids⟩
      else ⟨T, 0, [], [.print (BTreeNode.notFound key)]⟩
  | n + 1, key, T =>
      let idx := lowerPos T.keys key
      if T.keys[idx]? = some key then
        removeFromNonLeaf t (remove t n) T idx key
      else
        let o := if kidSize T idx < t then fill t T idx else .same T
        o.andThen fun T' =>
          removeIn (remove t n key) T' (fillPos idx T.size T'.size)

end ParallelBTree.Ports.Descent
