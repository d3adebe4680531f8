import ParallelBTree.Ports.Runs
import ParallelBTree.Verified.Actions

/-!
# `insert`, one write at a time

`insertNonFull`, `splitChild` and `BTree::insert` once more, statement by statement
and cut into actions.  An action writes one slot, one counter or one pointer at
most; what it reads before was written by the same thread.  The data member `root`
is part of the state now, and a new node is stored in it where the source does.

## Main results

* `run_insert` — the actions put together are the call.
-/

namespace ParallelBTree.Ports.InsertActions

open ParallelBTree.Verified.Program (Prog bind_run_ok bind_run_error)
open ParallelBTree.Verified.Actions
open ParallelBTree.Verified.Actions.Thread
open ParallelBTree.Ports.NodeMemory

/-- A program on the nodes as one on the tree object. -/
def onMem {α : Type} (f : M α) : Prog BTree Fault α := fun b => do
  let (a, m) ← f b.mem
  pure (a, { b with mem := m })

/-- One action on the nodes. -/
def on {α : Type} (f : M α) : Thread BTree Fault α := atom (onMem f)

/-- Assignment to `root`. -/
def setRoot (root : Ptr) : Thread BTree Fault Unit :=
  atom (modify fun b => { b with root := root })

/-- `splitChild(i, y)`. -/
def splitChild (p : Addr) (i : Nat) (y : Addr) : Thread BTree Fault Unit := do
  on (record .splitChild none p i (some y))
  let t := (← on (node p)).t
  let z ← on (do newNode (← node y).t (← node y).leaf)
  on (setKeysnum z (t - 1))
  forUp 0 (t - 1) fun j => on (copyKey y (j + t) z j)
  onlyIf (!(← on (node y)).leaf) <|
    forUp 0 t fun j => on (copyChild y (j + t) z j)
  on (setKeysnum y (t - 1))
  forDown ((← on (node p)).keysnum + 1) (i + 1) fun j =>
    on (copyChild p j p (j + 1))
  on (setChild p (i + 1) (some (some z)))
  forDown (← on (node p)).keysnum i fun j => on (copyKey p j p (j + 1))
  on (copyKey y (t - 1) p i)
  on (do setKeysnum p ((← node p).keysnum + 1))

/-- `insertNonFull(key)`. -/
def insertNonFull : Nat → Addr → Int → Thread BTree Fault Unit
  | 0, _, _ => on (throw .fuel)
  | fuel + 1, p, key => do
      let nd ← on (node p)
      if nd.leaf then
        let pos ← scanDown (fun i => on do pure (decide (key < (← keyAt p i))))
          (fun i => on (copyKey p i p (i + 1))) nd.keysnum
        on (setKey p pos key)
        on (do setKeysnum p ((← node p).keysnum + 1))
      else
        let pos ← scanDown (fun i => on do pure (decide (key < (← keyAt p i))))
          (fun _ => pure ()) nd.keysnum
        let y ← on (child p pos)
        let pos ← (if (← on (node y)).keysnum = 2 * nd.t - 1 then do
            splitChild p pos y
            if (← on (keyAt p pos)) < key then pure (pos + 1) else pure pos
          else pure pos)
        let c ← on (child p pos)
        on (record .insertNonFull (some p) c pos none)
        insertNonFull fuel c key

/-- `insert(key)`. -/
def insert (t : Nat) (key : Int) : Thread BTree Fault Bool := do
  match ← atom (do pure (← get).root) with
  | none => do
      let r ← on (newNode t true)
      setRoot (some r)
      on (setKey r 0 key)
      on (setKeysnum r 1)
      pure true
  | some r => do
      let fuel ← on (do pure (← get).nodes.length)
      if (← on (node r)).keysnum ≠ 2 * t - 1 then
        on (record .insertNonFull none r 0 none)
        insertNonFull fuel r key
        pure true
      else
        let newroot ← on (newNode t false)
        on (setChild newroot 0 (some (some r)))
        splitChild newroot 0 r
        let i := if (← on (keyAt newroot 0)) < key then 1 else 0
        let c ← on (child newroot i)
        on (record .insertNonFull (some newroot) c i none)
        insertNonFull fuel c key
        setRoot (some newroot)
        pure true

/-! ## The actions put together -/

section Run

variable {α β : Type}

theorem onMem_run {f : M α} {b : BTree} {a : α} {m : Mem}
    (h : f b.mem = .ok (a, m)) : onMem f b = .ok (a, { b with mem := m }) := by
  unfold onMem
  rw [h]
  rfl

@[simp] theorem onMem_pure (a : α) : onMem (pure a : M α) = pure a := rfl

@[simp] theorem onMem_bind (f : M α) (g : α → M β) :
    onMem (f >>= g) = onMem f >>= fun a => onMem (g a) := by
  funext b
  cases hf : f b.mem with
  | error e =>
      have hbind : (f >>= g) b.mem = .error e := bind_run_error hf
      have hon : onMem f b = .error e := by
        unfold onMem
        rw [hf]
        rfl
      rw [bind_run_error hon]
      unfold onMem
      rw [hbind]
      rfl
  | ok o =>
      rw [bind_run_ok (onMem_run hf)]
      unfold onMem
      rw [bind_run_ok hf]

@[simp] theorem onMem_ite {c : Prop} [Decidable c] (f g : M α) :
    onMem (if c then f else g) = if c then onMem f else onMem g := by
  split <;> rfl

@[simp] theorem onMem_forUp (lo hi : Nat) (body : Nat → M Unit) :
    onMem (Verified.Program.forUp lo hi body) =
      Verified.Program.forUp lo hi fun j => onMem (body j) := by
  unfold Verified.Program.forUp
  generalize hi - lo = count
  induction count generalizing lo with
  | zero => rfl
  | succ count ih => simp only [Verified.Program.upFrom, onMem_bind, ih]

@[simp] theorem onMem_forDown (hi lo : Nat) (body : Nat → M Unit) :
    onMem (Verified.Program.forDown hi lo body) =
      Verified.Program.forDown hi lo fun j => onMem (body j) := by
  unfold Verified.Program.forDown
  generalize hi - lo = count
  induction count with
  | zero => rfl
  | succ count ih => simp only [Verified.Program.downFrom, onMem_bind, ih]

@[simp] theorem onMem_onlyIf (c : Bool) (f : M Unit) :
    onMem (Verified.Program.onlyIf c f) = Verified.Program.onlyIf c (onMem f) := by
  cases c <;> rfl

@[simp] theorem onMem_scanDown (test : Nat → M Bool) (body : Nat → M Unit)
    (n : Nat) : onMem (Verified.Program.scanDown test body n) =
      Verified.Program.scanDown (fun i => onMem (test i)) (fun i => onMem (body i)) n := by
  induction n with
  | zero => rfl
  | succ n ih =>
      simp only [Verified.Program.scanDown, onMem_bind, onMem_ite, ih, onMem_pure]

@[simp] theorem run_on (f : M α) : (on f).run = onMem f := run_atom _

theorem run_splitChild (p : Addr) (i : Nat) (y : Addr) :
    (splitChild p i y).run = onMem (BTreeNode.splitChild p i y) := by
  simp only [splitChild, BTreeNode.splitChild, run_bind, run_on, run_forUp,
    run_forDown, run_onlyIf, onMem_bind, onMem_forUp, onMem_forDown,
    onMem_onlyIf, bind_assoc]

theorem run_insertNonFull (fuel : Nat) (p : Addr) (key : Int) :
    (insertNonFull fuel p key).run =
      onMem (BTreeNode.insertNonFull fuel p key) := by
  induction fuel generalizing p with
  | zero => exact run_on _
  | succ fuel ih =>
      simp only [insertNonFull, BTreeNode.insertNonFull, run_bind, run_on,
        run_scanDown, run_ite, run_pure, run_splitChild, ih, onMem_bind,
        onMem_ite, onMem_pure, onMem_scanDown]

theorem run_setRoot (root : Ptr) (b : BTree) :
    (setRoot root).run b = .ok ((), { b with root := root }) := by
  rw [setRoot, run_atom]
  rfl

theorem onMem_ok {f : M α} {b b' : BTree} {a : α}
    (h : onMem f b = .ok (a, b')) :
    ∃ m, f b.mem = .ok (a, m) ∧ b' = { b with mem := m } := by
  unfold onMem at h
  cases hf : f b.mem with
  | error e =>
      rw [hf] at h
      cases h
  | ok o =>
      rw [hf] at h
      obtain ⟨rfl, rfl⟩ := Prod.mk.inj (Except.ok.inj h)
      exact ⟨o.2, rfl, rfl⟩

/-- A call that leaves the assignment to `root` to its end. -/
theorem exec_eq (b : BTree) (key : Int) : b.exec (.insert key) =
    (onMem (BTree.insert b.t b.root key) >>= fun o =>
      (setRoot o.2).run >>= fun _ => pure o.1 : Prog BTree Fault Bool) b := by
  have hexec : b.exec (.insert key) =
      BTree.insert b.t b.root key b.mem >>= fun o =>
        pure (o.1.1, ⟨b.t, o.1.2, o.2⟩) := rfl
  rw [hexec]
  cases hins : BTree.insert b.t b.root key b.mem with
  | error e =>
      have hon : onMem (BTree.insert b.t b.root key) b = .error e := by
        unfold onMem
        rw [hins]
        rfl
      rw [bind_run_error hon]
      rfl
  | ok o =>
      rw [bind_run_ok (onMem_run hins), bind_run_ok (run_setRoot o.1.2 _)]
      rfl

/-- The nodes do not depend on `root`. -/
theorem setRoot_onMem (root : Ptr) (f : M α) (k : α → Prog BTree Fault β) :
    ((setRoot root).run >>= fun _ => onMem f >>= k) =
      onMem f >>= fun a => (setRoot root).run >>= fun _ => k a := by
  funext b
  rw [bind_run_ok (run_setRoot root b)]
  cases hf : f b.mem with
  | error e =>
      have herror : ∀ b' : BTree, b'.mem = b.mem → onMem f b' = .error e := by
        intro b' hb'
        unfold onMem
        rw [hb', hf]
        rfl
      exact (bind_run_error (herror { b with root := root } rfl)).trans
        (bind_run_error (herror b rfl)).symm
  | ok o =>
      have hok : onMem f { b with root := root } =
          .ok (o.1, { b with root := root, mem := o.2 }) := onMem_run hf
      rw [bind_run_ok (onMem_run hf), bind_run_ok hok,
        bind_run_ok (run_setRoot root _)]

/-- Assigning to `root` what it is changes nothing. -/
theorem setRoot_same {b : BTree} (f : M α) (c : β) :
    (onMem f >>= fun _ => pure c : Prog BTree Fault β) b =
      (onMem f >>= fun _ => (setRoot b.root).run >>= fun _ => pure c :
        Prog BTree Fault β) b := by
  cases hf : onMem f b with
  | error e => rw [bind_run_error hf, bind_run_error hf]
  | ok o =>
      obtain ⟨m, -, hsame⟩ := onMem_ok hf
      rw [bind_run_ok hf, bind_run_ok hf, bind_run_ok (run_setRoot _ _), hsame]

theorem run_insert (b : BTree) (key : Int) :
    (insert b.t key).run b = b.exec (.insert key) := by
  rw [exec_eq]
  have hroot : (atom (do pure (← get).root) : Thread BTree Fault Ptr).run b =
      .ok (b.root, b) := rfl
  rw [insert, run_bind, bind_run_ok hroot]
  cases hr : b.root with
  | none =>
      simp only [BTree.insert, run_bind, run_on, run_pure, onMem_bind, onMem_pure,
        bind_assoc, pure_bind, setRoot_onMem]
  | some r =>
      simp only [BTree.insert, run_bind, run_on, run_pure, run_ite, onMem_bind,
        onMem_pure, onMem_ite, bind_assoc, pure_bind, run_insertNonFull,
        run_splitChild]
      have hget : onMem get b = .ok (b.mem, b) := rfl
      rw [bind_run_ok hget, bind_run_ok hget]
      cases hnd : onMem (node r) b with
      | error e => rw [bind_run_error hnd, bind_run_error hnd]
      | ok o =>
          obtain ⟨m, -, hsame⟩ := onMem_ok hnd
          rw [bind_run_ok hnd, bind_run_ok hnd]
          split
          · -- the source assigns to `root` in the other branch only
            have hkeep := setRoot_same (b := o.2)
              (do record .insertNonFull none r 0 none
                  BTreeNode.insertNonFull b.mem.nodes.length r key) true
            have hroot : o.2.root = b.root := by rw [hsame]
            rw [hroot, hr] at hkeep
            simpa only [onMem_bind, bind_assoc, pure_bind] using hkeep
          · simp only [bind_assoc, pure_bind]

end Run

end ParallelBTree.Ports.InsertActions
