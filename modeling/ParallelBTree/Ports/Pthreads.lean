import ParallelBTree.Ports.Exist
import ParallelBTree.Verified.Interleaving
import ParallelBTree.Verified.Loop

/-!
# `pthreads.cpp`

The driver as a step relation on the states of its threads: `main`, the thread
that runs `insert`, and the threads that run `check`.  Taking `rwlock`, starting
a call on `tree4`, ending it and releasing the lock are separate steps, and any
thread may make the next one.  A call takes effect on `tree4` where it ends; the
invariant shows that nobody looks at the tree in between.

The lock follows POSIX (`Verified.Interleaving.RWLock`).  `pthread_create`
starts a thread and stores its handle in the object it is given, and
`pthread_join` waits for a thread only when given such a handle: the elements of
`threads` start out without one.

Nothing is said about what a thread does once it uses `rwlock`, `tree4` or
`tasks`, a local of `main`, after they have been destroyed, nor about a checker
whose counter would pass `INT_MAX`: such a step is not in the relation.
-/

namespace ParallelBTree.Ports.Pthreads

open Relation
open ParallelBTree.Verified.Program
open ParallelBTree.Verified.Interleaving
open ParallelBTree.Verified.Loop
open ParallelBTree.Ports.NodeMemory
open ParallelBTree.Ports.BTree

/-- What a run of the driver depends on besides the schedule: the shuffled
`keys`, the keys drawn for the removals, the number of checker threads
(`concurentThreads`), the value of `tasks`, and what memory holds where no key
was ever written. -/
structure Setup where
  keys : List Int
  draws : Nat → Int
  checkers : Nat
  tasks : Int32
  garbage : Addr → Nat → Int

/-- The calls of `insert`. -/
def Setup.inserts (d : Setup) : List Op := d.keys.map .insert

/-- The calls of the second `for_each` in `main`. -/
def Setup.removes (d : Setup) : List Op :=
  (List.range d.keys.length).map fun j => .remove (d.draws j)

/-- All calls that change the tree, one after the other. -/
def Setup.history (d : Setup) : List Op := d.inserts ++ d.removes

/-! ## Threads -/

inductive Thread where
  | inserter
  | checker (i : Nat)
  deriving DecidableEq, Repr

/-- A `pthread_t`; `none` as long as `pthread_create` has not stored one. -/
abbrev Handle := Option Thread

/-- Where a thread is in an iteration of a `for_each` over `keys`. -/
inductive Phase where
  /-- before `pthread_rwlock_wrlock` -/
  | outside
  /-- before the call on `tree4` -/
  | locked
  /-- in the call -/
  | calling
  /-- before `pthread_rwlock_unlock` -/
  | called
  deriving DecidableEq, Repr

/-- A thread in a `for_each` over `keys`. -/
structure Writer where
  iteration : Nat
  phase : Phase
  deriving DecidableEq, Repr

/-- The calls on `tree4` that have ended. -/
def Writer.calls (w : Writer) : Nat :=
  w.iteration + if w.phase = .called then 1 else 0

/-- A thread in `check`. -/
inductive Checker where
  /-- before `tasks` is read -/
  | created
  /-- at `i != tasks` -/
  | loop (i : Int32)
  /-- before `pthread_rwlock_rdlock` -/
  | outside (i : Int32)
  /-- before the call of `exist` -/
  | locked (i : Int32)
  /-- in `tree4.exist(key)`; `tree` is a ghost, the tree when the call began -/
  | searching (i : Int32) (key : Int) (tree : BTree)
  /-- before `pthread_rwlock_unlock` -/
  | answered (i : Int32) (key : Int) (found : Bool)
  /-- before `++i` -/
  | unlocked (i : Int32)
  | finished

def Checker.inside : Checker → Bool
  | .locked _ | .searching _ _ _ | .answered _ _ _ => true
  | _ => false

/-- Where `main` is. -/
inductive Main where
  /-- before the `pthread_create` of the inserter -/
  | start
  /-- in the loop that creates the checkers -/
  | create (i : Nat)
  /-- before the `pthread_join` of the inserter -/
  | joinInserter
  /-- in the `for_each` that removes -/
  | remove (w : Writer)
  /-- in the loop that joins the checkers -/
  | join (i : Nat)
  /-- before `pthread_rwlock_destroy` -/
  | destroy
  /-- `rwlock` and `tree4` are destroyed -/
  | returned

structure State where
  rwlock : RWLock
  tree4 : BTree
  main : Main
  /-- the local `inserter` of `main` -/
  inserter : Handle
  /-- the local `threads` of `main` -/
  threads : List Handle
  /-- the loop variable `thread` of `main` -/
  thread : Handle
  /-- the thread that runs `insert`, once created -/
  inserting : Option Writer
  /-- the threads that run `check`, in the order of their creation -/
  checking : List Checker

def Setup.init (d : Setup) : State where
  rwlock := .free
  tree4 := .new 4
  main := .start
  inserter := none
  threads := List.replicate d.checkers none
  thread := none
  inserting := none
  checking := []

/-- The function that the thread runs has returned. -/
def State.Finished (d : Setup) (s : State) : Thread → Prop
  | .inserter => s.inserting = some ⟨d.inserts.length, .outside⟩
  | .checker i => s.checking[i]? = some .finished

/-- `pthread_join(h)` returns. -/
def State.Joins (d : Setup) (s : State) (h : Handle) : Prop :=
  ∀ thread ∈ h, s.Finished d thread

/-! ## Steps -/

/-- One step of a `for_each` over `keys` whose iterations make the calls
`ops`. -/
inductive WriterStep (ops : List Op) :
    RWLock × BTree × Writer → RWLock × BTree × Writer → Prop where
  | wrlock {l tree i} (hi : i < ops.length) (hl : l.CanWrite) :
      WriterStep ops (l, tree, ⟨i, .outside⟩) (l.lockWrite, tree, ⟨i, .locked⟩)
  | call {l tree i} :
      WriterStep ops (l, tree, ⟨i, .locked⟩) (l, tree, ⟨i, .calling⟩)
  | ret {l tree i op r tree'} (hop : ops[i]? = some op)
      (hexec : tree.exec op = .ok (r, tree')) :
      WriterStep ops (l, tree, ⟨i, .calling⟩) (l, tree', ⟨i, .called⟩)
  | unlock {l tree i} :
      WriterStep ops (l, tree, ⟨i, .called⟩)
        (l.unlockWrite, tree, ⟨i + 1, .outside⟩)

/-- One step of `check`. -/
inductive CheckerStep (d : Setup) (tree : BTree) :
    RWLock × Checker → RWLock × Checker → Prop where
  /-- `tasks` is there as long as the lock is, since `main` returns next. -/
  | enter {l} (hl : l.alive = true) :
      CheckerStep d tree (l, .created) (l, .loop 0)
  | next {l i} (hi : i ≠ d.tasks) :
      CheckerStep d tree (l, .loop i) (l, .outside i)
  | leave {l} : CheckerStep d tree (l, .loop d.tasks) (l, .finished)
  | rdlock {l i} (hl : l.CanRead) :
      CheckerStep d tree (l, .outside i) (l.lockRead, .locked i)
  | call {l i} (key : Int) (hl : l.alive = true) :
      CheckerStep d tree (l, .locked i) (l, .searching i key tree)
  | ret {l i key tree₀ found m} (hl : l.alive = true)
      (hexist : BTree.exist (BTreeNode.readWith d.garbage) tree.root key
        tree.mem = .ok (found, m)) :
      CheckerStep d tree (l, .searching i key tree₀) (l, .answered i key found)
  | unlock {l i key found} (hl : l.alive = true) :
      CheckerStep d tree (l, .answered i key found) (l.unlockRead, .unlocked i)
  | count {l i i'} (hi : succ32 i = some i') :
      CheckerStep d tree (l, .unlocked i) (l, .loop i')

inductive Step (d : Setup) : State → State → Prop where
  | createInserter {s : State} (hm : s.main = .start) :
      Step d s { s with
        main := .create 0
        inserter := some .inserter
        inserting := some ⟨0, .outside⟩ }
  /-- `thread` is a copy of the element of `threads`, and the copy is what
  `pthread_create` stores the handle in. -/
  | createChecker {s : State} {i : Nat} (hm : s.main = .create i)
      (hi : i < s.threads.length) :
      Step d s { s with
        main := .create (i + 1)
        thread := some (.checker i)
        checking := s.checking ++ [.created] }
  | created {s : State} (hm : s.main = .create s.threads.length) :
      Step d s { s with main := .joinInserter }
  | joinInserter {s : State} (hm : s.main = .joinInserter)
      (hj : s.Joins d s.inserter) :
      Step d s { s with main := .remove ⟨0, .outside⟩ }
  | removed {s : State} (hm : s.main = .remove ⟨d.removes.length, .outside⟩) :
      Step d s { s with main := .join 0 }
  | join {s : State} {i : Nat} {h : Handle} (hm : s.main = .join i)
      (hh : s.threads[i]? = some h) (hj : s.Joins d h) :
      Step d s { s with main := .join (i + 1), thread := h }
  | joined {s : State} (hm : s.main = .join s.threads.length) :
      Step d s { s with main := .destroy }
  | destroy {s : State} (hm : s.main = .destroy) :
      Step d s { s with main := .returned, rwlock := s.rwlock.destroy }
  | insert {s : State} {w w' : Writer} {l : RWLock} {tree : BTree}
      (hw : s.inserting = some w)
      (hstep : WriterStep d.inserts (s.rwlock, s.tree4, w) (l, tree, w')) :
      Step d s { s with rwlock := l, tree4 := tree, inserting := some w' }
  | remove {s : State} {w w' : Writer} {l : RWLock} {tree : BTree}
      (hw : s.main = .remove w)
      (hstep : WriterStep d.removes (s.rwlock, s.tree4, w) (l, tree, w')) :
      Step d s { s with rwlock := l, tree4 := tree, main := .remove w' }
  | check {s : State} {A B : List Checker} {c c' : Checker} {l : RWLock}
      (hc : s.checking = A ++ c :: B)
      (hstep : CheckerStep d s.tree4 (s.rwlock, c) (l, c')) :
      Step d s { s with rwlock := l, checking := A ++ c' :: B }

/-- The states that some interleaving leads to. -/
def Setup.Reachable (d : Setup) (s : State) : Prop :=
  ReflTransGen (Step d) d.init s

/-! ## What holds in every reachable state -/

def Writer.held (w : Writer) : Nat := if w.phase = .outside then 0 else 1

/-- How often a thread that may not exist holds the lock. -/
def heldBy (w : Option Writer) : Nat := w.elim 0 Writer.held

def Main.writer : Main → Option Writer
  | .remove w => some w
  | _ => none

/-- The removals that have ended, `total` in all. -/
def Main.calls (total : Nat) : Main → Nat
  | .remove w => w.calls
  | .join _ | .destroy | .returned => total
  | _ => 0

/-- `main` is past the `pthread_join` of the inserter. -/
def Main.pastJoin : Main → Bool
  | .remove _ | .join _ | .destroy | .returned => true
  | _ => false

/-- The calls that change the tree and have ended. -/
def State.calls (d : Setup) (s : State) : Nat :=
  s.inserting.elim 0 Writer.calls + s.main.calls d.removes.length

/-- The lock counts the threads in their critical sections, the tree is the one
the ended calls make, and the program counters are in step. -/
structure Inv (d : Setup) (s : State) : Prop where
  guards : s.rwlock.Guards (s.checking.countP Checker.inside)
    (heldBy s.inserting + heldBy s.main.writer)
  tree : (BTree.new 4).run (d.history.take (s.calls d)) = .ok s.tree4
  start : s.main = .start → s.inserting = none
  handle : s.main ≠ .start → s.inserter = some .inserter
  inserted : s.main.pastJoin = true → s.Finished d .inserter
  views : ∀ i key tree, .searching i key tree ∈ s.checking → tree = s.tree4

section WriterSteps

variable {ops : List Op} {l l' : RWLock} {tree tree' : BTree} {w w' : Writer}

theorem WriterStep.guards (h : WriterStep ops (l, tree, w) (l', tree', w'))
    {r n : Nat} (hl : l.Guards r (n + w.held)) : l'.Guards r (n + w'.held) := by
  cases h with
  | wrlock _ hfree => exact hl.lockWrite hfree
  | call => exact hl
  | ret => exact hl
  | unlock => exact hl.unlockWrite

/-- A thread that can make a step has not completed all iterations. -/
theorem WriterStep.unfinished (h : WriterStep ops (l, tree, w) (l', tree', w')) :
    w ≠ ⟨ops.length, .outside⟩ := by
  rintro rfl
  cases h with
  | wrlock hi => exact lt_irrefl _ hi

/-- Only the end of a call changes the tree, and then the lock is held. -/
theorem WriterStep.effect (h : WriterStep ops (l, tree, w) (l', tree', w')) :
    (tree' = tree ∧ w'.calls = w.calls) ∨
      (w.held = 1 ∧ w'.calls = w.calls + 1 ∧
        ∃ op r, ops[w.calls]? = some op ∧ tree.exec op = .ok (r, tree')) := by
  cases h with
  | wrlock => exact Or.inl ⟨rfl, rfl⟩
  | call => exact Or.inl ⟨rfl, rfl⟩
  | ret hop hexec => exact Or.inr ⟨rfl, rfl, _, _, hop, hexec⟩
  | unlock => exact Or.inl ⟨rfl, rfl⟩

end WriterSteps

section CheckerSteps

variable {d : Setup} {l l' : RWLock} {tree : BTree} {c c' : Checker}

theorem CheckerStep.guards (h : CheckerStep d tree (l, c) (l', c')) {n w : Nat}
    (hl : l.Guards (n + c.inside.toNat) w) :
    l'.Guards (n + c'.inside.toNat) w := by
  cases h with
  | enter => exact hl
  | next => exact hl
  | leave => exact hl
  | rdlock hfree => exact hl.lockRead hfree
  | call => exact hl
  | ret => exact hl
  | unlock => exact hl.unlockRead
  | count => exact hl

/-- A search begins on the tree as it is. -/
theorem CheckerStep.view (h : CheckerStep d tree (l, c) (l', c')) {i : Int32}
    {key : Int} {tree₀ : BTree} (hc : c' = .searching i key tree₀) : tree₀ = tree := by
  subst hc
  cases h with
  | call => rfl

end CheckerSteps

section Invariant

variable {d : Setup} {s s' : State}

theorem inv_init (d : Setup) : Inv d d.init where
  guards := .free
  tree := rfl
  start _ := rfl
  handle h := absurd rfl h
  inserted h := Bool.noConfusion h
  views := nofun

/-- A thread in a critical section that it has write-locked keeps the checkers
out of theirs. -/
theorem Inv.no_search (h : Inv d s)
    (hw : 1 ≤ heldBy s.inserting + heldBy s.main.writer) {c : Checker}
    (hc : c ∈ s.checking) : c.inside = false := by
  by_contra hin
  rw [Bool.not_eq_false] at hin
  have hpos : 1 ≤ s.checking.countP Checker.inside :=
    List.countP_pos_iff.mpr ⟨c, hc, hin⟩
  have hnone := h.guards.no_writer hpos
  omega

/-- The step of a thread that runs a `for_each`, whichever of the two it is. -/
theorem Inv.writes (h : Inv d s) {ops : List Op} {w w' : Writer} {l : RWLock}
    {tree : BTree} (hstep : WriterStep ops (s.rwlock, s.tree4, w) (l, tree, w'))
    {before : Nat} (hcalls : s.calls d = before + w.calls)
    (hops : ∀ i op, ops[i]? = some op → d.history[before + i]? = some op)
    (hheld : w.held ≤ heldBy s.inserting + heldBy s.main.writer) :
    (BTree.new 4).run (d.history.take (before + w'.calls)) = .ok tree ∧
      ∀ i key tree₀, .searching i key tree₀ ∈ s.checking → tree₀ = tree := by
  have htree := h.tree
  rw [hcalls] at htree
  rcases hstep.effect with ⟨rfl, hsame⟩ | ⟨hin, hnext, op, r, hop, hexec⟩
  · rw [hsame]
    exact ⟨htree, h.views⟩
  · rw [hnext]
    refine ⟨run_take_succ (hops _ _ hop) hexec htree, ?_⟩
    intro i key tree₀ hmem
    exact Bool.noConfusion (h.no_search (hin ▸ hheld) hmem)

/-- `main` goes on from `m` to `m'`, and nothing else happens. -/
theorem Inv.moves (h : Inv d s) {m : Main} (hm : s.main = m) (m' : Main)
    (thread : Handle) (hheld : heldBy m'.writer = heldBy m.writer)
    (hcalls : m'.calls d.removes.length = m.calls d.removes.length)
    (hstart : m ≠ .start) (hstart' : m' ≠ .start)
    (hjoin : m'.pastJoin = true → m.pastJoin = true ∨ s.Finished d .inserter) :
    Inv d { s with main := m', thread := thread } where
  guards := by
    rw [hheld, ← hm]
    exact h.guards
  tree := by
    show (BTree.new 4).run (d.history.take
      (s.inserting.elim 0 Writer.calls + m'.calls d.removes.length)) = _
    rw [hcalls, ← hm]
    exact h.tree
  start hs := absurd hs hstart'
  handle _ := h.handle (hm ▸ hstart)
  inserted hp := by
    rcases hjoin hp with hpast | hdone
    · exact h.inserted (hm ▸ hpast)
    · exact hdone
  views := h.views

/-- A new thread begins outside its critical section. -/
theorem Inv.spawns (h : Inv d s) :
    Inv d { s with checking := s.checking ++ [.created] } where
  guards := by
    have hcount : (s.checking ++ [Checker.created]).countP Checker.inside =
        s.checking.countP Checker.inside := by
      rw [List.countP_append]
      rfl
    rw [hcount]
    exact h.guards
  tree := h.tree
  start := h.start
  handle := h.handle
  inserted := h.inserted
  views := by
    intro i key tree hmem
    rcases List.mem_append.mp hmem with hmem | hmem
    · exact h.views i key tree hmem
    · exact Checker.noConfusion (List.mem_singleton.mp hmem)

/-- A step of `insert`: `main` waits for the thread, so it has not called
`remove` yet. -/
theorem Inv.inserts (h : Inv d s) {w w' : Writer} {l : RWLock} {tree : BTree}
    (hw : s.inserting = some w)
    (hstep : WriterStep d.inserts (s.rwlock, s.tree4, w) (l, tree, w')) :
    Inv d { s with rwlock := l, tree4 := tree, inserting := some w' } := by
  have hpast : s.main.pastJoin = false := by
    by_contra hjoin
    have hdone := h.inserted (Bool.not_eq_false _ ▸ hjoin)
    exact hstep.unfinished (Option.some.inj (hw.symm.trans hdone))
  have hwriter : s.main.writer = none ∧ s.main.calls d.removes.length = 0 := by
    cases hm : s.main with
    | remove => simp [hm, Main.pastJoin] at hpast
    | join => simp [hm, Main.pastJoin] at hpast
    | destroy => simp [hm, Main.pastJoin] at hpast
    | returned => simp [hm, Main.pastJoin] at hpast
    | _ => exact ⟨rfl, rfl⟩
  have hguards := h.guards
  rw [hw, hwriter.1] at hguards
  have hcalls : s.calls d = 0 + w.calls := by
    rw [State.calls, hw, hwriter.2, Nat.zero_add]
    rfl
  have hwrites := h.writes hstep hcalls
    (fun i op hop => by
      have hlt : i < d.inserts.length := (List.getElem?_eq_some_iff.mp hop).1
      rw [Nat.zero_add, Setup.history, List.getElem?_append_left hlt]
      exact hop)
    (by rw [hw]; exact Nat.le_add_right _ _)
  constructor
  · have hnew := hstep.guards (n := 0) (by rwa [Nat.zero_add])
    rw [Nat.zero_add] at hnew
    rw [hwriter.1]
    exact hnew
  · have htree := hwrites.1
    rw [Nat.zero_add] at htree
    rw [State.calls, hwriter.2]
    exact htree
  · intro hm
    exact absurd (hw.symm.trans (h.start hm)) (by simp)
  · exact h.handle
  · intro hjoin
    exact absurd (hpast.symm.trans hjoin) Bool.false_ne_true
  · exact hwrites.2

/-- A step of the removals in `main`: `insert` has returned. -/
theorem Inv.removes (h : Inv d s) {w w' : Writer} {l : RWLock} {tree : BTree}
    (hw : s.main = .remove w)
    (hstep : WriterStep d.removes (s.rwlock, s.tree4, w) (l, tree, w')) :
    Inv d { s with rwlock := l, tree4 := tree, main := .remove w' } := by
  have hdone : s.inserting = some ⟨d.inserts.length, .outside⟩ :=
    h.inserted (by rw [hw]; rfl)
  have hguards := h.guards
  rw [hdone, hw] at hguards
  have hcalls : s.calls d = d.inserts.length + w.calls := by
    rw [State.calls, hdone, hw]
    rfl
  have hwrites := h.writes hstep hcalls
    (fun i op hop => by
      rw [Setup.history, List.getElem?_append_right (Nat.le_add_right _ _),
        Nat.add_sub_cancel_left]
      exact hop)
    (by rw [hw]; exact Nat.le_add_left _ _)
  constructor
  · rw [hdone]
    exact hstep.guards hguards
  · rw [State.calls, hdone]
    exact hwrites.1
  · exact nofun
  · exact fun _ => h.handle (by rw [hw]; nofun)
  · exact fun _ => hdone
  · exact hwrites.2

/-- A step of `check`. -/
theorem Inv.checks (h : Inv d s) {A B : List Checker} {c c' : Checker}
    {l : RWLock} (hc : s.checking = A ++ c :: B)
    (hstep : CheckerStep d s.tree4 (s.rwlock, c) (l, c')) :
    Inv d { s with rwlock := l, checking := A ++ c' :: B } where
  guards := by
    have hguards := h.guards
    rw [hc, countP_middle] at hguards
    rw [countP_middle]
    exact hstep.guards hguards
  tree := h.tree
  start := h.start
  handle := h.handle
  inserted := h.inserted
  views := by
    intro i key tree hmem
    rcases List.mem_append.mp hmem with hmem | hmem
    · exact h.views i key tree (hc ▸ List.mem_append_left _ hmem)
    · rcases List.mem_cons.mp hmem with heq | hmem
      · exact hstep.view heq.symm
      · exact h.views i key tree
          (hc ▸ List.mem_append_right A (List.mem_cons_of_mem c hmem))

theorem inv_step (h : Inv d s) (hstep : Step d s s') : Inv d s' := by
  cases hstep with
  | createInserter hm =>
      have hnone := h.start hm
      have hguards := h.guards
      have htree := h.tree
      simp only [State.calls, hnone, hm] at hguards htree
      exact
        { guards := hguards
          tree := htree
          start := nofun
          handle := fun _ => rfl
          inserted := fun hp => Bool.noConfusion hp
          views := h.views }
  | @createChecker i hm =>
      exact (h.moves hm (.create (i + 1)) (some (.checker i)) rfl rfl nofun nofun
        nofun).spawns
  | created hm => exact h.moves hm _ _ rfl rfl nofun nofun nofun
  | joinInserter hm hj =>
      have hhandle := h.handle (by rw [hm]; nofun)
      exact h.moves hm _ _ rfl rfl nofun nofun
        fun _ => Or.inr (hj .inserter hhandle)
  | removed hm => exact h.moves hm _ _ rfl rfl nofun nofun fun _ => Or.inl rfl
  | join hm => exact h.moves hm _ _ rfl rfl nofun nofun fun _ => Or.inl rfl
  | joined hm => exact h.moves hm _ _ rfl rfl nofun nofun fun _ => Or.inl rfl
  | destroy hm =>
      have hmoved := h.moves hm .returned s.thread rfl rfl nofun nofun
        fun _ => Or.inl rfl
      exact { hmoved with guards := hmoved.guards.destroy }
  | insert hw hstep => exact h.inserts hw hstep
  | remove hw hstep => exact h.removes hw hstep
  | check hc hstep => exact h.checks hc hstep

theorem inv_reachable (h : d.Reachable s) : Inv d s := by
  have hrun : ReflTransGen (Step d) d.init s := h
  exact invariant_run (I := Inv d) (fun _ _ hinv hstep => inv_step hinv hstep)
    hrun (inv_init d)

end Invariant

/-! ## The reader-writer protocol -/

section Protocol

variable {d : Setup} {s : State}

/-- A call of `insert` on the tree is in progress. -/
def State.Inserting (s : State) : Prop :=
  ∃ i, s.inserting = some ⟨i, .calling⟩

/-- A call of `remove` on the tree is in progress. -/
def State.Removing (s : State) : Prop := ∃ i, s.main = .remove ⟨i, .calling⟩

/-- A call of `exist` on the tree is in progress; it began on `tree`. -/
def State.Searching (s : State) (tree : BTree) : Prop :=
  ∃ i key, .searching i key tree ∈ s.checking

/-- In every reachable state: calls that change the tree overlap neither each
other nor a search; `main` does not begin to remove before `insert` is through
with all keys; and every search that is in progress began on the tree as it
still is, which is what a first part of the history makes. -/
theorem rwlock_protocol (d : Setup) (s : State) (h : d.Reachable s) :
    (∀ tree, s.Searching tree → ¬ s.Inserting ∧ ¬ s.Removing) ∧
    ¬ (s.Inserting ∧ s.Removing) ∧
    (∀ w, s.main = .remove w → s.Finished d .inserter) ∧
    ∀ tree, s.Searching tree → tree = s.tree4 ∧
      ∃ ops, ops <+: d.history ∧ (BTree.new 4).run ops = .ok tree := by
  have hinv := inv_reachable h
  have hdone : ∀ w, s.main = .remove w → s.Finished d .inserter :=
    fun w hw => hinv.inserted (by rw [hw]; rfl)
  refine ⟨?_, ?_, hdone, ?_⟩
  · rintro tree ⟨i, key, hmem⟩
    constructor
    · rintro ⟨j, hj⟩
      have hheld : 1 ≤ heldBy s.inserting + heldBy s.main.writer := by
        rw [hj]
        exact Nat.le_add_right _ _
      exact Bool.noConfusion (hinv.no_search hheld hmem)
    · rintro ⟨j, hj⟩
      have hheld : 1 ≤ heldBy s.inserting + heldBy s.main.writer := by
        rw [hj]
        exact Nat.le_add_left _ _
      exact Bool.noConfusion (hinv.no_search hheld hmem)
  · rintro ⟨⟨i, hi⟩, j, hj⟩
    have hone := hinv.guards.writers_le
    rw [hi, hj] at hone
    have htwo : 2 ≤ 1 := hone
    exact absurd htwo (by decide)
  · rintro tree ⟨i, key, hmem⟩
    obtain rfl := hinv.views i key tree hmem
    exact ⟨rfl, _, List.take_prefix _ _, hinv.tree⟩

/-- One checker searches for 3 after the only insertion. -/
theorem rwlock_protocol_searching :
    let d : Setup := ⟨[3], fun _ => 0, 1, 1, fun _ _ => 0⟩
    ∃ s, d.Reachable s ∧ s.Searching s.tree4 ∧
      (∀ tree, s.Searching tree → ¬ s.Inserting ∧ ¬ s.Removing) ∧
      ¬ (s.Inserting ∧ s.Removing) ∧
      (∀ w, s.main = .remove w → s.Finished d .inserter) ∧
      ∀ tree, s.Searching tree → tree = s.tree4 ∧
        ∃ ops, ops <+: d.history ∧ (BTree.new 4).run ops = .ok tree := by
  intro d
  have hcreated := (ReflTransGen.single (Step.createInserter (d := d)
    (s := d.init) rfl)).tail (.createChecker rfl Nat.zero_lt_one)
  have hinserted := (((hcreated.tail (.insert rfl
    (.wrlock Nat.zero_lt_one ⟨rfl, rfl, rfl⟩))).tail (.insert rfl .call)).tail
    (.insert rfl (.ret rfl rfl))).tail (.insert rfl .unlock)
  have hsearching := (((hinserted.tail (.check (A := []) rfl (.enter rfl))).tail
    (.check (A := []) rfl (.next (by decide)))).tail
    (.check (A := []) rfl (.rdlock ⟨rfl, rfl⟩))).tail
    (.check (A := []) rfl (.call 3 rfl))
  exact ⟨_, hsearching, ⟨0, 3, List.mem_singleton_self _⟩,
    rwlock_protocol d _ hsearching⟩

end Protocol

end ParallelBTree.Ports.Pthreads
