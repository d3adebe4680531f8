import ParallelBTree.Ports.Lifetime
import ParallelBTree.Ports.PthreadsProgress
import ParallelBTree.Verified.History

/-!
# What the threads of `pthreads.cpp` see of each other

The events of a run are the calls of `insert` and `remove` that end and the
answers that `exist` gives, in the order in which they do.  Since a call takes
effect between its beginning and its end, this order keeps that of calls which
do not overlap.

`answers_linearize` says that one thread which makes the same calls in this order
on a tree of its own gets the same answers.

## Main results

* `answers_linearize` — every run is a sequential one.
* `returned_tree` — no update is lost.
-/

namespace ParallelBTree.Ports.Pthreads

open Relation
open ParallelBTree.Verified.Program
open ParallelBTree.Verified.Interleaving
open ParallelBTree.Verified.History
open ParallelBTree.Verified.Multiway
open ParallelBTree.Ports.NodeMemory
open ParallelBTree.Ports.BTree

/-- A call on `tree4` that has ended. -/
inductive Event where
  | changed (op : Op)
  | answered (key : Int) (found : Bool)
  deriving DecidableEq, Repr

def Event.op? : Event → Option Op
  | .changed op => some op
  | .answered _ _ => none

/-- The call that ends when a writer goes on from `w` to `w'`. -/
def Writer.sees (ops : List Op) (w w' : Writer) : List Event :=
  if w.phase = .calling ∧ w'.phase = .called then
    (ops[w.iteration]?.map Event.changed).toList
  else []

/-- The same for a thread that may not be in such a loop. -/
def writerSees (ops : List Op) : Option Writer → Option Writer → List Event
  | some w, some w' => w.sees ops w'
  | _, _ => []

/-- The answer that a checker gets when it goes on from one place to another. -/
def Checker.sees : Checker → Checker → List Event
  | .searching _ key _, .answered _ _ found => [.answered key found]
  | _, _ => []

/-- The calls that end in a step from `s` to `s'`. -/
def State.sees (d : Setup) (s s' : State) : List Event :=
  writerSees d.inserts s.inserting s'.inserting ++
    writerSees d.removes s.main.writer s'.main.writer ++
    (List.zipWith Checker.sees s.checking s'.checking).flatten

/-- One thread that makes the calls of the history, with searches in between:
how many calls it has made, and its tree. -/
def Calls (d : Setup) : Nat × BTree → Event → Nat × BTree → Prop
  | (k, b), .changed op, (k', b') =>
      k' = k + 1 ∧ d.history[k]? = some op ∧ ∃ r, b.exec op = .ok (r, b')
  | (k, b), .answered key found, (k', b') =>
      k' = k ∧ b' = b ∧ BTree.exist (BTreeNode.readWith d.garbage) b.root key
        b.mem = .ok (found, b.mem)

section Events

variable {d : Setup} {ops : List Op} {l l' : RWLock} {tree tree' : BTree}
  {w w' : Writer} {c c' : Checker} {s s' : State}

@[simp] theorem writerSees_self (w : Option Writer) : writerSees ops w w = [] := by
  cases w with
  | none => rfl
  | some w => cases h : w.phase <;> simp [writerSees, Writer.sees, h]

@[simp] theorem writerSees_some (w w' : Writer) :
    writerSees ops (some w) (some w') = w.sees ops w' := rfl

@[simp] theorem Checker.sees_self (c : Checker) : c.sees c = [] := by
  cases c <;> rfl

@[simp] theorem checkersSee_self (L : List Checker) :
    (List.zipWith Checker.sees L L).flatten = [] := by
  have h := flatten_zipWith_append Checker.sees_self L []
  rwa [List.append_nil] at h

/-- A writer lets its call be seen where the call ends. -/
theorem WriterStep.sequential (h : WriterStep ops (l, tree, w) (l', tree', w'))
    {before : Nat}
    (hops : ∀ i op, ops[i]? = some op → d.history[before + i]? = some op) :
    InSequence (Calls d) (before + w.calls, tree) (w.sees ops w')
      (before + w'.calls, tree') := by
  cases h with
  | wrlock => rfl
  | call => rfl
  | @ret _ _ i op r _ hop hexec =>
      have hsees : Writer.sees ops ⟨i, .calling⟩ ⟨i, .called⟩ =
          [.changed op] := by
        simp [Writer.sees, hop]
      rw [hsees]
      exact sequential_one ⟨rfl, hops i op hop, r, hexec⟩
  | unlock => rfl

/-- A checker lets its answer be seen where the search ends. -/
theorem CheckerStep.sequential (h : CheckerStep d tree (l, c) (l', c'))
    (hexist : ∀ key, ∃ found, BTree.exist (BTreeNode.readWith d.garbage) tree.root
      key tree.mem = .ok (found, tree.mem)) (k : Nat) :
    InSequence (Calls d) (k, tree) (c.sees c') (k, tree) := by
  cases h with
  | @ret _ i key tree₀ found m _ hrun =>
      obtain ⟨found', hrun'⟩ := hexist key
      obtain ⟨rfl, rfl⟩ : found = found' ∧ m = tree.mem := by
        simpa using hrun.symm.trans hrun'
      exact sequential_one ⟨rfl, rfl, hrun⟩
  | _ => rfl

end Events

section Simulation

variable {d : Setup} {s s' : State}

/-- While `insert` runs `main` has not removed anything. -/
theorem Inv.calls_insert (h : Inv d s) {w w' : Writer} {l : RWLock} {tree : BTree}
    (hw : s.inserting = some w)
    (hstep : WriterStep d.inserts (s.rwlock, s.tree4, w) (l, tree, w')) :
    s.main.calls d.removes.length = 0 := by
  have hpast : s.main.pastJoin ≠ true := fun hjoin =>
    hstep.unfinished (Option.some.inj (hw.symm.trans (h.inserted hjoin)))
  cases hm : s.main with
  | remove => exact absurd (congrArg Main.pastJoin hm) hpast
  | join => exact absurd (congrArg Main.pastJoin hm) hpast
  | destroy => exact absurd (congrArg Main.pastJoin hm) hpast
  | returned => exact absurd (congrArg Main.pastJoin hm) hpast
  | _ => rfl

/-- `main` goes on, and no call ends. -/
theorem sequential_moves {m m' : Main} (hm : s.main = m) (thread : Handle)
    (M : List Checker) (hsees : writerSees d.removes m.writer m'.writer = [])
    (hcalls : m'.calls d.removes.length = m.calls d.removes.length) :
    InSequence (Calls d) (s.calls d, s.tree4)
      (s.sees d { s with
        main := m', thread := thread, checking := s.checking ++ M })
      (s.inserting.elim 0 Writer.calls + m'.calls d.removes.length, s.tree4) := by
  have hquiet : s.sees d { s with
      main := m', thread := thread, checking := s.checking ++ M } = [] := by
    rw [State.sees, hm, hsees, writerSees_self,
      flatten_zipWith_append Checker.sees_self]
    rfl
  rw [hquiet, State.calls, hm, hcalls]
  rfl

/-- What can be seen of a step is what one thread does. -/
theorem sequential_step (h : Inv d s) (hstep : Step d s s') :
    InSequence (Calls d) (s.calls d, s.tree4) (s.sees d s')
      (s'.calls d, s'.tree4) := by
  have hquiet {m m' : Main} (hm : s.main = m) (thread : Handle) :=
    @sequential_moves d s m m' hm thread []
  simp only [List.append_nil] at hquiet
  cases hstep with
  | createInserter hm =>
      have hnone := h.start hm
      simp [State.sees, State.calls, hnone, hm, writerSees, Main.writer,
        InSequence, Writer.calls, Main.calls]
  | createChecker hm => exact sequential_moves hm _ [.created] rfl rfl
  | created hm => exact hquiet hm s.thread rfl rfl
  | joinInserter hm => exact hquiet hm s.thread rfl rfl
  | removed hm => exact hquiet hm s.thread rfl rfl
  | join hm => exact hquiet hm _ rfl rfl
  | joined hm => exact hquiet hm s.thread rfl rfl
  | destroy hm => exact hquiet hm s.thread rfl rfl
  | @insert w w' l tree hw hstep =>
      have hzero := h.calls_insert hw hstep
      have hops : ∀ i op, d.inserts[i]? = some op → d.history[0 + i]? = some op := by
        intro i op hop
        have hlt : i < d.inserts.length := (List.getElem?_eq_some_iff.mp hop).1
        rw [Nat.zero_add, Setup.history, List.getElem?_append_left hlt]
        exact hop
      have hseq := hstep.sequential hops
      simpa [State.sees, State.calls, hw, hzero] using hseq
  | @remove w w' l tree hw hstep =>
      have hdone : s.inserting = some ⟨d.inserts.length, .outside⟩ :=
        h.inserted (by rw [hw]; rfl)
      have hops : ∀ i op, d.removes[i]? = some op →
          d.history[d.inserts.length + i]? = some op := by
        intro i op hop
        rw [Setup.history, List.getElem?_append_right (Nat.le_add_right _ _),
          Nat.add_sub_cancel_left]
        exact hop
      have hseq := hstep.sequential hops
      simpa [State.sees, State.calls, hdone, hw, Main.writer, Main.calls,
        Writer.calls] using hseq
  | @check A B c c' l hc hstep =>
      have hseq := hstep.sequential h.exist (s.calls d)
      simpa [State.sees, State.calls, hc,
        flatten_zipWith_middle Checker.sees_self] using hseq

end Simulation

/-! ## Every run is a sequential one -/

section Linear

variable {d : Setup} {s : State} {es : List Event}

/-- What the one thread has made of its tree. -/
theorem sequential_run {k k' : Nat} {b b' : BTree}
    (h : InSequence (Calls d) (k, b) es (k', b')) :
    b.run (es.filterMap Event.op?) = .ok b' ∧
      k' = k + (es.filterMap Event.op?).length ∧
      es.filterMap Event.op? <+: d.history.drop k := by
  induction es generalizing k b with
  | nil =>
      obtain ⟨rfl, rfl⟩ : k = k' ∧ b = b' := Prod.mk.inj h
      exact ⟨rfl, rfl, List.nil_prefix⟩
  | cons e es ih =>
      obtain ⟨⟨j, c⟩, he, hes⟩ := h
      obtain ⟨hrun, hk, hprefix⟩ := ih hes
      cases e with
      | changed op =>
          obtain ⟨rfl, hop, r, hexec⟩ := he
          refine ⟨?_, ?_, ?_⟩
          · simp only [List.filterMap_cons, Event.op?, BTree.run, hexec]
            exact hrun
          · simp only [List.filterMap_cons, Event.op?, List.length_cons]
            omega
          · obtain ⟨hlt, hget⟩ := List.getElem?_eq_some_iff.mp hop
            rw [List.drop_eq_getElem_cons hlt, hget]
            simp only [List.filterMap_cons, Event.op?]
            exact List.cons_prefix_cons.mpr ⟨rfl, hprefix⟩
      | answered key found =>
          obtain ⟨rfl, rfl, -⟩ := he
          exact ⟨hrun, hk, hprefix⟩

theorem observed_sequential (h : Observed (Step d) (State.sees d) d.init es s) :
    InSequence (Calls d) (0, .new 4) es (s.calls d, s.tree4) := by
  have hsim : ∀ s s' a, (Inv d s ∧ a = (s.calls d, s.tree4)) → Step d s s' →
      ∃ a', InSequence (Calls d) a (s.sees d s') a' ∧
        (Inv d s' ∧ a' = (s'.calls d, s'.tree4)) := by
    rintro s s' a ⟨hinv, rfl⟩ hstep
    exact ⟨_, sequential_step hinv hstep, inv_step hinv hstep, rfl⟩
  obtain ⟨a, hseq, -, rfl⟩ := h.sequential hsim ⟨inv_init d, rfl⟩
  exact hseq

/-- In every run the calls that change the tree end in the order of the history,
and each answer is the one that a search gives on the tree which the calls that
ended before make, with nothing else going on: it is true exactly if the key is
stored there or a dead slot on the search path holds it.

That a call takes effect in one step, at its end, is how `Step` has it, and the
lock is not used here: `rwlock_protocol` is what justifies it, since nobody else is
in a section while the tree is changed. -/
theorem answers_linearize (d : Setup) (s : State) (es : List Event)
    (h : Observed (Step d) (State.sees d) d.init es s) :
    es.filterMap Event.op? = d.history.take (s.calls d) ∧
    ∀ pre key found post, es = pre ++ .answered key found :: post →
      ∃ b L, (BTree.new 4).run (pre.filterMap Event.op?) = .ok b ∧
        b.contents = .ok L ∧
        BTree.exist (BTreeNode.readWith d.garbage) b.root key b.mem =
          .ok (found, b.mem) ∧
        (found = true ↔ key ∈ L ∨
          b.Misleads (BTreeNode.pastValue d.garbage b.mem) key) := by
  have hseq := observed_sequential h
  constructor
  · obtain ⟨-, hk, hprefix⟩ := sequential_run hseq
    rw [List.drop_zero] at hprefix
    rw [hk, Nat.zero_add]
    exact List.prefix_iff_eq_take.mp hprefix
  · rintro pre key found post rfl
    obtain ⟨⟨k, b⟩, hpre, -, ⟨-, -, hexist⟩, -⟩ := sequential_append.mp hseq
    obtain ⟨hrun, -, -⟩ := sequential_run hpre
    obtain ⟨b', hrun', -, hb⟩ :=
      run_stores (by decide : 2 ≤ 4) (pre.filterMap Event.op?)
    obtain rfl := Except.ok.inj (hrun'.symm.trans hrun)
    obtain ⟨found', hexist', hfound⟩ :=
      hb.exist (BTreeNode.reads_with d.garbage b'.mem) key
    obtain rfl : found = found' :=
      congrArg Prod.fst (Except.ok.inj (hexist.symm.trans hexist'))
    exact ⟨b', _, hrun, hb.contents, hexist, hfound⟩

/-- One checker finds 3 after the only insertion. -/
theorem answers_linearize_found :
    let d : Setup := ⟨[3], fun _ => 0, 1, 1, fun _ _ => 0⟩
    ∃ s es, Observed (Step d) (State.sees d) d.init es s ∧
      (∃ found, .answered 3 found ∈ es) ∧
      es.filterMap Event.op? = d.history.take (s.calls d) ∧
      ∀ pre key found post, es = pre ++ .answered key found :: post →
        ∃ b L, (BTree.new 4).run (pre.filterMap Event.op?) = .ok b ∧
          b.contents = .ok L ∧
          BTree.exist (BTreeNode.readWith d.garbage) b.root key b.mem =
            .ok (found, b.mem) ∧
          (found = true ↔ key ∈ L ∨
            b.Misleads (BTreeNode.pastValue d.garbage b.mem) key) := by
  intro d
  have hnone : Observed (Step d) (State.sees d) d.init [] d.init := .refl d.init
  have hcreated := (hnone.tail (.createInserter rfl)).tail
    (.createChecker rfl Nat.zero_lt_one)
  have hinserted := (((hcreated.tail (.insert rfl
    (.wrlock Nat.zero_lt_one ⟨rfl, rfl, rfl⟩))).tail (.insert rfl .call)).tail
    (.insert rfl (.ret rfl rfl))).tail (.insert rfl .unlock)
  have hsearching := (((hinserted.tail (.check (A := []) rfl (.enter rfl))).tail
    (.check (A := []) rfl (.next (by decide)))).tail
    (.check (A := []) rfl (.rdlock ⟨rfl, rfl⟩))).tail
    (.check (A := []) rfl (.call 3 rfl))
  obtain ⟨found, hrun⟩ := (inv_reachable hsearching.reachable).exist 3
  have hanswered := hsearching.tail (.check (A := []) rfl (.ret rfl hrun))
  refine ⟨_, _, hanswered, ⟨found, ?_⟩, answers_linearize d _ _ hanswered⟩
  exact List.mem_append_right _ (List.mem_singleton_self _)

end Linear

/-! ## Nothing is lost -/

section Returned

variable {d : Setup} {s : State}

/-- The keys drawn for the removals. -/
def Setup.drawn (d : Setup) : List Int := (List.range d.keys.length).map d.draws

/-- The tree of the whole history. -/
theorem history_stores (d : Setup) :
    ∃ b L, (BTree.new 4).run d.history = .ok b ∧ b.Stores L ∧
      L.Perm (d.keys.diff d.drawn) := by
  obtain ⟨b, hrun, -, h⟩ := run_stores (by decide : 2 ≤ 4) d.history
  refine ⟨b, _, hrun, h, ?_⟩
  have hinserts := foldl_insert_perm d.keys []
  have hremoves : d.removes = d.drawn.map .remove := by
    rw [Setup.drawn, List.map_map]
    rfl
  rw [List.append_nil] at hinserts
  rw [Setup.history, List.foldl_append, hremoves, foldl_remove]
  exact hinserts.diff_right d.drawn

/-- When `main` returns no update was lost, whatever the checkers are doing: the
tree holds the inserted keys except those drawn, and its destructor leaves no
node behind. -/
theorem returned_tree (d : Setup) (s : State) (h : d.Reachable s)
    (hm : s.main = .returned) :
    (BTree.new 4).run d.history = .ok s.tree4 ∧
    ∃ L m, s.tree4.contents = .ok L ∧ L.Perm (d.keys.diff d.drawn) ∧
      L.Pairwise (· ≤ ·) ∧
      BTree.destroy s.tree4.root s.tree4.mem = .ok ((), m) ∧
      m.deleted.Perm (List.range m.nodes.length) := by
  have hinv := inv_reachable h
  have htree := hinv.tree
  have hdone : s.inserting = some ⟨d.inserts.length, .outside⟩ :=
    hinv.inserted (by rw [hm]; rfl)
  have hall : s.calls d = d.history.length := by
    rw [State.calls, hdone, hm, Setup.history, List.length_append]
    rfl
  rw [hall, List.take_length] at htree
  obtain ⟨b, L, hrun, hb, hperm⟩ := history_stores d
  obtain rfl := Except.ok.inj (htree.symm.trans hrun)
  obtain ⟨m, hdestroy, -, hdeleted⟩ := hb.destroy
  exact ⟨htree, L, m, hb.contents, hperm, hb.sorted, hdestroy, hdeleted⟩

/-- Both keys are drawn, and no checker has begun. -/
theorem returned_tree_two :
    let d : Setup := ⟨[1, 0], fun j => j, 2, 5, fun _ _ => 0⟩
    ∃ s, d.Reachable s ∧ (BTree.new 4).run d.history = .ok s.tree4 ∧
      ∃ L m, s.tree4.contents = .ok L ∧ L.Perm (d.keys.diff d.drawn) ∧
        L.Pairwise (· ≤ ·) ∧
        BTree.destroy s.tree4.root s.tree4.mem = .ok ((), m) ∧
        m.deleted.Perm (List.range m.nodes.length) := by
  intro d
  obtain ⟨tree, w, thread, hdestroy⟩ := exists_destroy d
  have hreturned : d.Reachable _ := hdestroy.tail (.destroy rfl)
  exact ⟨_, hreturned, returned_tree d _ hreturned rfl⟩

end Returned

end ParallelBTree.Ports.Pthreads
