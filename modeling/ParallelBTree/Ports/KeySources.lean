import ParallelBTree.Ports.Bare
import ParallelBTree.Ports.ExistBounds
import ParallelBTree.Verified.Partial

/-!
# Where keys come from

Removals, merges and splits leave keys behind in the dead slots, and `exist` may
take one of them for a key of the tree.  It is at least a key that was inserted
at some time: no member function writes anything else into a key slot
(`insert_keyed`, `remove_keyed`), whatever it does to the shape of the tree.

## Main results

* `exist_sources` — what `exist` finds was inserted, or the search ends at a slot
  that was never written.
-/

namespace ParallelBTree.Ports

open Relation
open ParallelBTree.Verified.Multiway
open ParallelBTree.Verified.Partial
open ParallelBTree.Verified.Program
open ParallelBTree.Ports.NodeMemory
open ParallelBTree.Ports.Represent

/-- Every key slot that was written holds a key in `S`. -/
def KeyedNode (S : Int → Prop) (nd : BTreeNode) : Prop :=
  ∀ (i : Nat) v, nd.keys.cells[i]? = some (some v) → S v

/-- In all nodes, the deleted ones included. -/
def Keyed (S : Int → Prop) (m : Mem) : Prop := ∀ nd ∈ m.nodes, KeyedNode S nd

section Accessors

variable {S : Int → Prop} {p q : Addr} {i j : Nat} {α : Type}

theorem Mem.mem_of_get {m : Mem} {nd : BTreeNode} (h : m.get p = some nd) :
    nd ∈ m.nodes := by
  unfold Mem.get at h
  split at h
  · cases h
  · exact List.mem_of_getElem? h

theorem Keyed.set {m : Mem} (h : Keyed S m) {nd : BTreeNode}
    (hnd : KeyedNode S nd) (p : Addr) : Keyed S (m.set p nd) := by
  intro nd' hmem
  rcases List.mem_or_eq_of_mem_set hmem with hmem | rfl
  · exact h nd' hmem
  · exact hnd

theorem Keyed.push {m : Mem} (h : Keyed S m) {nd : BTreeNode}
    (hnd : KeyedNode S nd) : Keyed S (m.push nd) := by
  intro nd' hmem
  rcases List.mem_append.mp hmem with hmem | hmem
  · exact h nd' hmem
  · exact List.mem_singleton.mp hmem ▸ hnd

theorem keyed_node : Secures (Keyed S) (node p) (KeyedNode S) := by
  intro m hm nd m' hrun
  obtain ⟨hget, rfl⟩ := node_ok hrun
  exact ⟨hm, hm nd (Mem.mem_of_get hget)⟩

theorem keyed_modifyNode {f : BTreeNode → BTreeNode}
    (hf : ∀ nd, KeyedNode S nd → KeyedNode S (f nd)) :
    Secures (Keyed S) (modifyNode p f) fun _ => True :=
  keyed_node.bind fun nd hnd => .modify fun _ hm => hm.set (hf nd hnd) p

theorem keyed_setKeysnum (n : Nat) :
    Secures (Keyed S) (setKeysnum p n) fun _ => True :=
  keyed_modifyNode fun _ h => h

theorem keyed_setLeaf (leaf : Bool) :
    Secures (Keyed S) (setLeaf p leaf) fun _ => True :=
  keyed_modifyNode fun _ h => h

theorem keyed_below (n : Nat) : Secures (Keyed S) (below n) fun _ => True := by
  cases n with
  | zero => exact .throw _
  | succ n => exact .pure trivial

/-- What is read from a key slot is in `S`. -/
theorem keyed_keyAt : Secures (Keyed S) (keyAt p i) S := by
  refine keyed_node.bind fun nd hnd => ?_
  cases hcell : nd.keys.cells[i]? with
  | none => exact .throw _
  | some slot =>
      cases slot with
      | none => exact .throw _
      | some v => exact .pure (hnd i v hcell)

/-- What is written to one has to be. -/
theorem keyed_setKey {v : Int} (hv : S v) :
    Secures (Keyed S) (setKey p i v) fun _ => True := by
  refine keyed_node.bind fun nd hnd => ?_
  split
  · refine .modify fun m hm => hm.set (fun j w hw => ?_) p
    have hset : (nd.keys.cells.set i (some v))[j]? = some (some w) := hw
    rw [List.getElem?_set] at hset
    split at hset
    · split at hset
      · exact Option.some.inj (Option.some.inj hset) ▸ hv
      · cases hset
    · exact hnd j w hset
  · exact .throw _

theorem keyed_copyKey : Secures (Keyed S) (copyKey p i q j) fun _ => True :=
  keyed_keyAt.bind fun _ hv => keyed_setKey hv

theorem keyed_childSlot : Secures (Keyed S) (childSlot p i) fun _ => True := by
  refine keyed_node.seq fun nd => ?_
  cases nd.children.cells[i]? with
  | none => exact .throw _
  | some slot =>
      cases slot with
      | none =>
          refine Secures.seq (Secures.modify fun _ hm => hm) fun _ => ?_
          exact .pure trivial
      | some c => exact .pure trivial

theorem keyed_setChild (slot : Option Ptr) :
    Secures (Keyed S) (setChild p i slot) fun _ => True := by
  refine keyed_node.bind fun nd hnd => ?_
  split
  · refine .modify fun m hm => hm.set ?_ p
    exact hnd
  · exact .throw _

theorem keyed_copyChild : Secures (Keyed S) (copyChild p i q j) fun _ => True :=
  keyed_childSlot.seq fun slot => keyed_setChild slot

theorem keyed_childPtr : Secures (Keyed S) (childPtr p i) fun _ => True := by
  refine keyed_childSlot.seq fun slot => ?_
  cases slot with
  | none => exact .throw _
  | some c => exact .pure trivial

theorem keyed_child : Secures (Keyed S) (child p i) fun _ => True := by
  refine keyed_childPtr.seq fun c => ?_
  cases c with
  | none => exact .throw _
  | some c => exact .pure trivial

theorem keyed_record (fn : Fn) (caller arg : Ptr) :
    Secures (Keyed S) (record fn caller p i arg) fun _ => True :=
  .modify fun _ hm => hm

/-- A new node has no keys. -/
theorem keyed_newNode (t : Nat) (leaf : Bool) :
    Secures (Keyed S) (newNode t leaf) fun _ => True := by
  refine Secures.get.seq fun m => ?_
  refine (Secures.modify fun _ hm => hm.push fun i v hv => ?_).seq
    fun _ => .pure trivial
  have hcell : (List.replicate (2 * t - 1) (none : Option Int))[i]? =
      some (some v) := hv
  cases (List.mem_replicate.mp (List.mem_of_getElem? hcell)).2

end Accessors

/-! ## The member functions -/

namespace BTreeNode

variable {S : Int → Prop} {p : Addr}

theorem keyed_less (key : Int) (i : Nat) :
    Secures (Keyed S) (do pure (decide (key < (← keyAt p i)))) fun _ => True :=
  keyed_keyAt.seq fun _ => .pure trivial

theorem splitChild_keyed (i : Nat) (y : Addr) :
    Secures (Keyed S) (splitChild p i y) fun _ => True := by
  refine (keyed_record _ _ _).seq fun _ => ?_
  refine keyed_node.seq fun _ => ?_
  refine keyed_node.seq fun _ => ?_
  refine keyed_node.seq fun _ => ?_
  refine (keyed_newNode _ _).seq fun _ => ?_
  refine (keyed_setKeysnum _).seq fun _ => ?_
  refine (Secures.forUp fun _ => keyed_copyKey).seq fun _ => ?_
  refine keyed_node.seq fun _ => ?_
  refine (Secures.onlyIf (.forUp fun _ => keyed_copyChild)).seq fun _ => ?_
  refine (keyed_setKeysnum _).seq fun _ => ?_
  refine keyed_node.seq fun _ => ?_
  refine (Secures.forDown fun _ => keyed_copyChild).seq fun _ => ?_
  refine (keyed_setChild _).seq fun _ => ?_
  refine keyed_node.seq fun _ => ?_
  refine (Secures.forDown fun _ => keyed_copyKey).seq fun _ => ?_
  refine keyed_copyKey.seq fun _ => ?_
  exact keyed_node.seq fun _ => keyed_setKeysnum _

theorem insertNonFull_keyed {key : Int} (hkey : S key) (fuel : Nat) (p : Addr) :
    Secures (Keyed S) (insertNonFull fuel p key) fun _ => True := by
  induction fuel generalizing p with
  | zero => exact .throw _
  | succ fuel ih =>
      refine keyed_node.seq fun nd => ?_
      split
      · refine (Secures.scanDown (keyed_less key) (fun _ => keyed_copyKey) _).seq
          fun _ => ?_
        refine (keyed_setKey hkey).seq fun _ => ?_
        exact keyed_node.seq fun _ => keyed_setKeysnum _
      · refine (Secures.scanDown (keyed_less key) (fun _ => .pure trivial) _).seq
          fun _ => ?_
        refine keyed_child.seq fun y => ?_
        refine keyed_node.seq fun _ => ?_
        refine Secures.seq (P := fun _ => True) ?_ fun pos => ?_
        · split
          · refine (splitChild_keyed _ _).seq fun _ => ?_
            refine keyed_keyAt.seq fun _ => ?_
            split <;> exact .pure trivial
          · exact .pure trivial
        · refine keyed_child.seq fun c => ?_
          exact (keyed_record _ _ _).seq fun _ => ih c

theorem removeFromLeaf_keyed (idx : Nat) :
    Secures (Keyed S) (removeFromLeaf p idx) fun _ => True := by
  refine keyed_node.seq fun _ => ?_
  refine (Secures.forUp fun _ => keyed_copyKey).seq fun _ => ?_
  refine keyed_node.seq fun _ => ?_
  exact (keyed_below _).seq fun _ => keyed_setKeysnum _

theorem rightmostLeaf_keyed (fuel : Nat) (cur : Addr) :
    Secures (Keyed S) (rightmostLeaf fuel cur) fun _ => True := by
  induction fuel generalizing cur with
  | zero => exact .throw _
  | succ fuel ih =>
      refine keyed_node.seq fun nd => ?_
      split
      · exact .pure trivial
      · exact keyed_child.seq fun c => ih c

theorem leftmostLeaf_keyed (fuel : Nat) (cur : Addr) :
    Secures (Keyed S) (leftmostLeaf fuel cur) fun _ => True := by
  induction fuel generalizing cur with
  | zero => exact .throw _
  | succ fuel ih =>
      refine keyed_node.seq fun nd => ?_
      split
      · exact .pure trivial
      · exact keyed_child.seq fun c => ih c

/-- The keys that take the place of a removed one are keys of the tree. -/
theorem getPred_keyed (fuel idx : Nat) :
    Secures (Keyed S) (getPred fuel p idx) S := by
  refine keyed_child.seq fun c => ?_
  refine (rightmostLeaf_keyed fuel c).seq fun cur => ?_
  refine keyed_node.seq fun _ => ?_
  exact (keyed_below _).seq fun _ => keyed_keyAt

theorem getSucc_keyed (fuel idx : Nat) :
    Secures (Keyed S) (getSucc fuel p idx) S := by
  refine keyed_child.seq fun c => ?_
  exact (leftmostLeaf_keyed fuel c).seq fun cur => keyed_keyAt

theorem borrowFromPrev_keyed (idx : Nat) :
    Secures (Keyed S) (borrowFromPrev p idx) fun _ => True := by
  refine (keyed_record _ _ _).seq fun _ => ?_
  refine keyed_child.seq fun c => ?_
  refine (keyed_below _).seq fun _ => ?_
  refine keyed_child.seq fun s => ?_
  refine keyed_node.seq fun _ => ?_
  refine (Secures.forDown fun _ => keyed_copyKey).seq fun _ => ?_
  refine keyed_node.seq fun _ => ?_
  refine (Secures.onlyIf (keyed_node.seq fun _ =>
    .forDown fun _ => keyed_copyChild)).seq fun _ => ?_
  refine (keyed_below _).seq fun _ => ?_
  refine keyed_copyKey.seq fun _ => ?_
  refine keyed_node.seq fun _ => ?_
  refine (Secures.onlyIf (keyed_node.seq fun _ => keyed_copyChild)).seq fun _ => ?_
  refine keyed_node.seq fun _ => ?_
  refine (keyed_below _).seq fun _ => ?_
  refine (keyed_below _).seq fun _ => ?_
  refine keyed_copyKey.seq fun _ => ?_
  refine keyed_node.seq fun _ => ?_
  refine (keyed_setKeysnum _).seq fun _ => ?_
  refine keyed_node.seq fun _ => ?_
  exact (keyed_below _).seq fun _ => keyed_setKeysnum _

theorem borrowFromNext_keyed (idx : Nat) :
    Secures (Keyed S) (borrowFromNext p idx) fun _ => True := by
  refine (keyed_record _ _ _).seq fun _ => ?_
  refine keyed_child.seq fun c => ?_
  refine keyed_child.seq fun s => ?_
  refine keyed_node.seq fun _ => ?_
  refine keyed_copyKey.seq fun _ => ?_
  refine keyed_node.seq fun _ => ?_
  refine (Secures.onlyIf (keyed_node.seq fun _ => keyed_copyChild)).seq fun _ => ?_
  refine keyed_copyKey.seq fun _ => ?_
  refine keyed_node.seq fun _ => ?_
  refine (Secures.forUp fun _ => keyed_copyKey).seq fun _ => ?_
  refine keyed_node.seq fun _ => ?_
  refine (Secures.onlyIf (keyed_node.seq fun _ =>
    .forUp fun _ => keyed_copyChild)).seq fun _ => ?_
  refine keyed_node.seq fun _ => ?_
  refine (keyed_setKeysnum _).seq fun _ => ?_
  refine keyed_node.seq fun _ => ?_
  exact (keyed_below _).seq fun _ => keyed_setKeysnum _

theorem delete_keyed (fuel : Nat) (ptr : Ptr) :
    Secures (Keyed S) (delete fuel ptr) fun _ => True := by
  induction fuel generalizing ptr with
  | zero =>
      cases ptr with
      | none => exact .pure trivial
      | some p => exact .throw _
  | succ fuel ih =>
      cases ptr with
      | none => exact .pure trivial
      | some p =>
          refine keyed_node.seq fun nd => ?_
          refine (Secures.onlyIf (.forUp fun i =>
            keyed_childPtr.seq fun c => ih c)).seq fun _ => ?_
          exact .modify fun _ hm => hm

theorem merge_keyed (idx : Nat) :
    Secures (Keyed S) (merge p idx) fun _ => True := by
  refine (keyed_record _ _ _).seq fun _ => ?_
  refine keyed_node.seq fun _ => ?_
  refine keyed_child.seq fun c => ?_
  refine keyed_child.seq fun s => ?_
  refine keyed_copyKey.seq fun _ => ?_
  refine keyed_node.seq fun _ => ?_
  refine (Secures.forUp fun _ => keyed_copyKey).seq fun _ => ?_
  refine keyed_node.seq fun _ => ?_
  refine (Secures.onlyIf (keyed_node.seq fun _ =>
    .forUp fun _ => keyed_copyChild)).seq fun _ => ?_
  refine keyed_node.seq fun _ => ?_
  refine (Secures.forUp fun _ => keyed_copyKey).seq fun _ => ?_
  refine keyed_node.seq fun _ => ?_
  refine (Secures.forUp fun _ => keyed_copyChild).seq fun _ => ?_
  refine keyed_node.seq fun _ => ?_
  refine keyed_node.seq fun _ => ?_
  refine (keyed_setKeysnum _).seq fun _ => ?_
  refine keyed_node.seq fun _ => ?_
  refine (keyed_below _).seq fun _ => ?_
  refine (keyed_setKeysnum _).seq fun _ => ?_
  refine (keyed_setLeaf _).seq fun _ => ?_
  exact Secures.get.seq fun _ => delete_keyed _ _

/-- `c && ask` asks nothing that matters. -/
private theorem keyed_ask {c : Prop} [Decidable c] {ask : M Bool}
    (h : Secures (Keyed S) ask fun _ => True) :
    Secures (Keyed S) (if c then ask else pure false) fun _ => True := by
  split
  · exact h
  · exact .pure trivial

theorem fill_keyed (idx : Nat) : Secures (Keyed S) (fill p idx) fun _ => True := by
  have hasks : ∀ t i, Secures (Keyed S)
      (do pure (decide (t ≤ (← node (← child p i)).keysnum))) fun _ => True :=
    fun t i => keyed_child.seq fun _ => keyed_node.seq fun _ => .pure trivial
  refine (keyed_record _ _ _).seq fun _ => ?_
  refine keyed_node.seq fun nd => ?_
  refine (keyed_ask ((keyed_below _).seq fun i => hasks nd.t i)).seq fun prev => ?_
  split
  · exact borrowFromPrev_keyed idx
  · refine (keyed_ask (hasks nd.t (idx + 1))).seq fun next => ?_
    split
    · exact borrowFromNext_keyed idx
    · split
      · exact merge_keyed idx
      · exact (keyed_below _).seq fun _ => merge_keyed _

section Remove

variable {rec : Addr → Int → M Unit}

theorem removeIn_keyed (hrec : ∀ q key, Secures (Keyed S) (rec q key) fun _ => True)
    (idx : Nat) (key : Int) :
    Secures (Keyed S) (removeIn rec p idx key) fun _ => True := by
  refine keyed_child.seq fun c => ?_
  refine (keyed_record _ _ _).seq fun _ => ?_
  exact (hrec c key).seq fun _ => keyed_record _ _ _

theorem removeFromNonLeaf_keyed
    (hrec : ∀ q key, Secures (Keyed S) (rec q key) fun _ => True) (fuel idx : Nat) :
    Secures (Keyed S) (removeFromNonLeaf fuel rec p idx) fun _ => True := by
  refine keyed_keyAt.seq fun k => ?_
  refine keyed_node.seq fun _ => ?_
  refine keyed_child.seq fun _ => ?_
  refine keyed_node.seq fun _ => ?_
  split
  · refine (getPred_keyed fuel idx).bind fun pred hpred => ?_
    exact (keyed_setKey hpred).seq fun _ => removeIn_keyed hrec _ _
  · refine keyed_child.seq fun _ => ?_
    refine keyed_node.seq fun _ => ?_
    split
    · refine (getSucc_keyed fuel idx).bind fun succ hsucc => ?_
      exact (keyed_setKey hsucc).seq fun _ => removeIn_keyed hrec _ _
    · exact (merge_keyed idx).seq fun _ => removeIn_keyed hrec _ _

end Remove

theorem remove_keyed (fuel : Nat) (p : Addr) (key : Int) :
    Secures (Keyed S) (remove fuel p key) fun _ => True := by
  induction fuel generalizing p key with
  | zero => exact .throw _
  | succ fuel ih =>
      refine Secures.seq (P := fun _ => True) ?_ fun idx => ?_
      · exact keyed_node.seq fun _ =>
          .scanUp fun _ => keyed_keyAt.seq fun _ => .pure trivial
      refine keyed_node.seq fun nd => ?_
      refine (keyed_ask (keyed_keyAt.seq fun _ => .pure trivial)).seq fun found => ?_
      split
      · split
        · exact removeFromLeaf_keyed idx
        · exact removeFromNonLeaf_keyed ih fuel idx
      · split
        · exact .modify fun _ hm => hm
        · refine keyed_child.seq fun _ => ?_
          refine keyed_node.seq fun _ => ?_
          refine (Secures.onlyIf (fill_keyed idx)).seq fun _ => ?_
          refine keyed_node.seq fun _ => ?_
          split
          · exact (keyed_below _).seq fun _ => removeIn_keyed ih _ _
          · exact removeIn_keyed ih _ _

end BTreeNode

namespace BTree

variable {S : Int → Prop} {b b' : BTree}

theorem insert_keyed {key : Int} (hkey : S key) (t : Nat) (root : Ptr) :
    Secures (Keyed S) (insert t root key) fun _ => True := by
  cases root with
  | none =>
      refine (keyed_newNode _ _).seq fun r => ?_
      refine (keyed_setKey hkey).seq fun _ => ?_
      exact (keyed_setKeysnum _).seq fun _ => .pure trivial
  | some r =>
      refine Secures.get.seq fun m => ?_
      refine keyed_node.seq fun nd => ?_
      split
      · refine (keyed_record _ _ _).seq fun _ => ?_
        exact (BTreeNode.insertNonFull_keyed hkey _ _).seq fun _ => .pure trivial
      · refine (keyed_newNode _ _).seq fun newroot => ?_
        refine (keyed_setChild _).seq fun _ => ?_
        refine (BTreeNode.splitChild_keyed _ _).seq fun _ => ?_
        refine keyed_keyAt.seq fun _ => ?_
        refine keyed_child.seq fun c => ?_
        refine (keyed_record _ _ _).seq fun _ => ?_
        exact (BTreeNode.insertNonFull_keyed hkey _ _).seq fun _ => .pure trivial

theorem remove_keyed (root : Ptr) (key : Int) :
    Secures (Keyed S) (remove root key) fun _ => True := by
  cases root with
  | none => exact .pure trivial
  | some r =>
      refine (keyed_record _ _ _).seq fun _ => ?_
      refine Secures.get.seq fun m => ?_
      refine (BTreeNode.remove_keyed _ _ _).seq fun _ => ?_
      refine (keyed_record _ _ _).seq fun _ => ?_
      refine keyed_node.seq fun nd => ?_
      split
      · refine keyed_node.seq fun nd => ?_
        refine Secures.seq (P := fun _ => True) ?_ fun root => ?_
        · split
          · exact .pure trivial
          · refine keyed_childPtr.seq fun c => ?_
            exact (keyed_setChild _).seq fun _ => .pure trivial
        · refine Secures.get.seq fun m => ?_
          exact (BTreeNode.delete_keyed _ _).seq fun _ => .pure trivial
      · exact .pure trivial

/-- One call. -/
theorem exec_keyed {op : Op} {r : Bool} (hop : ∀ key, op = .insert key → S key)
    (h : Keyed S b.mem) (hexec : b.exec op = .ok (r, b')) : Keyed S b'.mem := by
  cases op with
  | insert key =>
      have hexec' : (insert b.t b.root key b.mem >>= fun o =>
          pure (o.1.1, (⟨b.t, o.1.2, o.2⟩ : BTree))) = .ok (r, b') := hexec
      cases hrun : insert b.t b.root key b.mem with
      | error e =>
          rw [hrun] at hexec'
          cases hexec'
      | ok o =>
          rw [hrun] at hexec'
          obtain ⟨-, rfl⟩ := Prod.mk.inj (Except.ok.inj hexec')
          exact (insert_keyed (hop key rfl) b.t b.root b.mem h o.1 o.2 hrun).1
  | remove key =>
      have hexec' : (remove b.root key b.mem >>= fun o =>
          pure (o.1.1, (⟨b.t, o.1.2, o.2⟩ : BTree))) = .ok (r, b') := hexec
      cases hrun : remove b.root key b.mem with
      | error e =>
          rw [hrun] at hexec'
          cases hexec'
      | ok o =>
          rw [hrun] at hexec'
          obtain ⟨-, rfl⟩ := Prod.mk.inj (Except.ok.inj hexec')
          exact (remove_keyed b.root key b.mem h o.1 o.2 hrun).1

/-- A whole history. -/
theorem run_keyed {ops : List Op} (hops : ∀ key, Op.insert key ∈ ops → S key)
    (h : Keyed S b.mem) (hrun : b.run ops = .ok b') : Keyed S b'.mem := by
  induction ops generalizing b with
  | nil =>
      obtain rfl := Except.ok.inj hrun
      exact h
  | cons op ops ih =>
      have hrun' : (b.exec op >>= fun o => o.2.run ops) = .ok b' := hrun
      cases hexec : b.exec op with
      | error e =>
          rw [hexec] at hrun'
          cases hrun'
      | ok o =>
          rw [hexec] at hrun'
          refine ih (fun key hkey => hops key (List.mem_cons_of_mem op hkey)) ?_ hrun'
          exact exec_keyed (fun key hop => hops key (hop ▸ List.mem_cons_self)) h hexec

end BTree

/-! ## What `exist` finds -/

namespace BTreeNode

/-- The live keys of `q` are all smaller.  The slot behind them, which is compared
then, was never written or is not in the array, and `key` happens to be there. -/
def GarbageHit (garbage : Addr → Nat → Int) (t : Nat) (m : Mem) (key : Int)
    (q : Addr) : Prop :=
  ∃ nd, m.get q = some nd ∧ (∀ j < nd.keysnum, KeyBelow nd j key) ∧
    nd.keysnum ≤ 2 * t - 1 ∧
    (∀ v, nd.keys.cells[nd.keysnum]? ≠ some (some v)) ∧
    garbage q nd.keysnum = key

section Found

variable {S : Int → Prop} {garbage : Addr → Nat → Int} {m : Mem} {t n d : Nat}
  {T : Tree Int n} {key : Int} {p : Addr}

/-- Where the scan of a node stops at the key, the slot was written or is garbage
behind the live keys. -/
theorem hit_keyed (h : Rep m t n T) (hwf : WF t n T) (hm : Keyed S m)
    (hp : BTree.Below m T.id d p) (hhit : Hit garbage m key p) :
    S key ∨ GarbageHit garbage t m key p := by
  obtain ⟨nd, i, hget, hi, hbelow, -, hread⟩ := hhit
  obtain ⟨k, -, U, rfl, hU, hUwf, -⟩ := subtree_of_below h hwf hp
  obtain ⟨nd', hget', hnd⟩ := hU.root
  obtain rfl : nd = nd' := Option.some.inj (hget.symm.trans hget')
  have hnum : nd.keysnum = U.size := hnd.keysnum_eq
  unfold slotValue at hread
  split at hread
  · rename_i v hv
    exact Or.inl (hread ▸ hm nd (Mem.mem_of_get hget) i v hv)
  · rename_i hdead
    have hend : i = nd.keysnum := by
      refine Nat.le_antisymm hi (Nat.le_of_not_lt fun hlt => ?_)
      have hlive : i < U.keys.length := Nat.lt_of_lt_of_eq hlt hnum
      exact hdead _ (hnd.key_at (List.getElem?_eq_getElem hlive))
    subst hend
    exact Or.inr ⟨nd, hget, hbelow, hnum ▸ hUwf.size_le, hdead, hread⟩

/-- A search that is misled ends at such a slot. -/
theorem misled_keyed (h : Rep m t n T) (hwf : WF t n T) (hm : Keyed S m)
    (hp : BTree.Below m T.id d p)
    (hmis : Misled (pastValue garbage m) m key p) :
    S key ∨ ∃ q, ReflTransGen (MissStep garbage m key) p q ∧
      GarbageHit garbage t m key q := by
  obtain ⟨q, hpath, ⟨nd, hget, hall⟩, hdead⟩ := hmis
  induction hpath using ReflTransGen.head_induction_on generalizing d with
  | refl =>
      have hread : slotValue garbage q nd nd.keysnum = key := by
        rw [pastValue, hget] at hdead
        exact hdead
      have hhit : Hit garbage m key q :=
        ⟨nd, nd.keysnum, hget, Nat.le_refl _, hall,
          fun hlt => absurd hlt (Nat.lt_irrefl _), hread⟩
      exact (hit_keyed h hwf hm hp hhit).imp_right fun hq => ⟨q, .refl, hq⟩
  | @head p c hstep _ ih =>
      by_cases hhit : Hit garbage m key p
      · exact (hit_keyed h hwf hm hp hhit).imp_right fun hq => ⟨p, .refl, hq⟩
      · have hmiss : MissStep garbage m key p c := ⟨hstep, hhit⟩
        obtain ⟨nd', i, hget', hleaf, hi, -, -, hc⟩ := hstep
        refine (ih (hp.kid hget' hleaf hi hc)).imp_right ?_
        rintro ⟨q', hpath', hq'⟩
        exact ⟨q', .head hmiss hpath', hq'⟩

end Found

end BTreeNode

namespace BTree

/-- The search for `key` ends at a slot that was never written. -/
def FindsGarbage (garbage : Addr → Nat → Int) (b : BTree) (key : Int) : Prop :=
  ∃ r q, b.root = some r ∧
    ReflTransGen (BTreeNode.MissStep garbage b.mem key) r q ∧
    BTreeNode.GarbageHit garbage b.t b.mem key q

theorem Stores.exist_keyed {S : Int → Prop} {b : BTree} {L : List Int}
    {garbage : Addr → Nat → Int} {key : Int} (h : b.Stores L)
    (hm : Keyed S b.mem) (hL : ∀ k ∈ L, S k)
    (hfound : BTree.exist (BTreeNode.readWith garbage) b.root key b.mem =
      .ok (true, b.mem)) : S key ∨ b.FindsGarbage garbage key := by
  obtain ⟨found, hrun, hiff⟩ := h.exist (BTreeNode.reads_with garbage b.mem) key
  obtain rfl : true = found :=
    congrArg Prod.fst (Except.ok.inj (hfound.symm.trans hrun))
  rcases hiff.mp rfl with hmem | ⟨r, hroot, hmis⟩
  · exact Or.inl (hL key hmem)
  cases h with
  | vacant h => exact absurd (hroot.symm.trans h.root) (Option.some_ne_none r)
  | @holding n T h =>
      obtain rfl : T.id = r := Option.some.inj (h.root.symm.trans hroot)
      refine (BTreeNode.misled_keyed h.rep h.wf hm .self hmis).imp_right ?_
      rintro ⟨q, hpath, hq⟩
      exact ⟨T.id, q, hroot, hpath, hq⟩

/-- What is stored was inserted. -/
theorem mem_foldl_sortedStep {key : Int} : ∀ {ops : List Op} {L : List Int},
    key ∈ ops.foldl sortedStep L → key ∈ L ∨ Op.insert key ∈ ops := by
  intro ops
  induction ops with
  | nil => exact fun hkey => Or.inl hkey
  | cons op ops ih =>
      intro L hkey
      rcases ih hkey with hmem | hmem
      · cases op with
        | insert k =>
            rcases (List.mem_orderedInsert (· ≤ ·)).mp hmem with rfl | hmem
            · exact Or.inr List.mem_cons_self
            · exact Or.inl hmem
        | remove k => exact Or.inl (List.mem_of_mem_erase hmem)
      · exact Or.inr (List.mem_cons_of_mem op hmem)

/-- All that a new tree comes to hold was inserted. -/
theorem keyed_of_run {t : Nat} {ops : List Op} {b : BTree}
    (hrun : (BTree.new t).run ops = .ok b) :
    Keyed (fun key => Op.insert key ∈ ops) b.mem :=
  run_keyed (fun _ h => h) (fun _ hnd => absurd hnd List.not_mem_nil) hrun

theorem exist_inserted {t : Nat} (ht : 2 ≤ t) {ops : List Op} {b : BTree}
    {garbage : Addr → Nat → Int} {key : Int} (hrun : (BTree.new t).run ops = .ok b)
    (hfound : exist (BTreeNode.readWith garbage) b.root key b.mem =
      .ok (true, b.mem)) :
    Op.insert key ∈ ops ∨ b.FindsGarbage garbage key := by
  obtain ⟨b', hrun', -, h⟩ := run_stores ht ops
  obtain rfl := Except.ok.inj (hrun.symm.trans hrun')
  refine h.exist_keyed (keyed_of_run hrun) (fun k hk => ?_) hfound
  exact (mem_foldl_sortedStep hk).resolve_left List.not_mem_nil

/-- What `exist` finds was inserted at some time; or the search passes nothing that
it takes for the key and then comes to a node with smaller keys only, where the
slot behind them was never written and happens to hold it. -/
theorem exist_sources (t : Nat) (ht : 2 ≤ t) (ops : List Op) :
    ∃ b, (BTree.new t).run ops = .ok b ∧ ∀ garbage key,
      exist (BTreeNode.readWith garbage) b.root key b.mem = .ok (true, b.mem) →
        Op.insert key ∈ ops ∨ b.FindsGarbage garbage key := by
  obtain ⟨b, hrun, -, -⟩ := run_stores ht ops
  exact ⟨b, hrun, fun garbage key hfound => exist_inserted ht hrun hfound⟩

theorem exist_sources_two :
    ∃ b, (BTree.new 2).run [.insert 1, .insert 2, .remove 1] = .ok b ∧
      ∀ garbage key,
        exist (BTreeNode.readWith garbage) b.root key b.mem = .ok (true, b.mem) →
          Op.insert key ∈ [.insert 1, .insert 2, .remove 1] ∨
            b.FindsGarbage garbage key :=
  exist_sources 2 (by decide) [.insert 1, .insert 2, .remove 1]

end BTree

end ParallelBTree.Ports
