import ParallelBTree.Ports.Pthreads

/-!
# How `pthreads.cpp` ends

The loop that creates the checkers iterates over copies of the elements of
`threads`, so the handles are stored in the copies and the elements are left
without one.  The loop that joins them is given those elements, and waits for
nobody.

`exists_destroy` is the schedule that shows it: `main` and `insert` run to the
end while no checker makes a single step.
-/

namespace ParallelBTree.Ports.Pthreads

open Relation
open ParallelBTree.Verified.Interleaving
open ParallelBTree.Ports.NodeMemory
open ParallelBTree.Ports.BTree

/-- `main` gets to `pthread_rwlock_destroy`, and past it, only when all checkers
have finished their loops. -/
def Setup.JoinsCheckers (d : Setup) : Prop :=
  ∀ s, d.Reachable s → s.main = .destroy ∨ s.main = .returned →
    ∀ c ∈ s.checking, c = .finished

/-- The next thing the checker does is to lock `rwlock` or to call
`tree4.exist`. -/
def Checker.Uses : Checker → Prop
  | .outside _ | .locked _ => True
  | _ => False

/-- No checker locks `rwlock` or calls `tree4.exist` once they are destroyed. -/
def Setup.NoLateUse (d : Setup) : Prop :=
  ∀ s, d.Reachable s → s.main = .returned → ∀ c ∈ s.checking, ¬ c.Uses

/-! ## The checkers are not waited for -/

/-- One thread makes all the calls of a `for_each`, nobody else moves. -/
theorem writer_runs {ops : List Op} : ∀ (post pre : List Op), ops = pre ++ post →
    ∀ (tree : BTree) (L : List Int), tree.Stores L → 2 ≤ tree.t →
      ∃ tree' L', tree'.Stores L' ∧ 2 ≤ tree'.t ∧
        ReflTransGen (WriterStep ops) (.free, tree, ⟨pre.length, .outside⟩)
          (.free, tree', ⟨ops.length, .outside⟩) := by
  intro post
  induction post with
  | nil =>
      intro pre hops tree L h ht
      rw [hops, List.append_nil]
      exact ⟨tree, L, h, ht, .refl⟩
  | cons op post ih =>
      intro pre hops tree L h ht
      obtain ⟨r, tree₁, hexec, ht₁, h₁⟩ := h.exec ht op
      obtain ⟨tree', L', h', ht', hrest⟩ := ih (pre ++ [op]) (by simp [hops]) tree₁
        _ h₁ (ht₁ ▸ ht)
      have hop : ops[pre.length]? = some op := by simp [hops]
      have hlt : pre.length < ops.length := (List.getElem?_eq_some_iff.mp hop).1
      have hcall : ReflTransGen (WriterStep ops)
          (.free, tree, ⟨pre.length, .outside⟩)
          (.free, tree₁, ⟨pre.length + 1, .outside⟩) :=
        (((ReflTransGen.single (.wrlock hlt ⟨rfl, rfl, rfl⟩)).tail .call).tail
          (.ret hop hexec)).tail .unlock
      rw [List.length_append, List.length_singleton] at hrest
      exact ⟨tree', L', h', ht', hcall.trans hrest⟩

/-- The states of the schedule: `n` checkers have been created and have not
moved. -/
def Setup.alone (d : Setup) (main : Main) (tree : BTree) (w : Writer)
    (thread : Handle) (n : Nat) : State where
  rwlock := .free
  tree4 := tree
  main := main
  inserter := some .inserter
  threads := List.replicate d.checkers none
  thread := thread
  inserting := some w
  checking := List.replicate n .created

section Alone

variable {d : Setup}

/-- The handles end up in the loop variable. -/
theorem creates (n : Nat) (hn : n ≤ d.checkers) :
    ∃ thread, d.Reachable
      (d.alone (.create n) (.new 4) ⟨0, .outside⟩ thread n) := by
  induction n with
  | zero => exact ⟨none, .single (.createInserter rfl)⟩
  | succ n ih =>
      obtain ⟨thread, hreach⟩ := ih (Nat.le_of_succ_le hn)
      refine ⟨some (.checker n), ?_⟩
      have hstep := hreach.tail (.createChecker rfl
        (by rw [Setup.alone, List.length_replicate]; exact hn))
      rw [Setup.alone, List.replicate_succ']
      exact hstep

/-- The loop that joins the checkers, given elements without handles. -/
theorem joins {tree : BTree} {w : Writer} {thread : Handle}
    (h : d.Reachable (d.alone (.join 0) tree w thread d.checkers)) (n : Nat)
    (hn : n ≤ d.checkers) :
    ∃ thread', d.Reachable (d.alone (.join n) tree w thread' d.checkers) := by
  induction n with
  | zero => exact ⟨thread, h⟩
  | succ n ih =>
      obtain ⟨thread', hreach⟩ := ih (Nat.le_of_succ_le hn)
      refine ⟨none, hreach.tail (.join rfl ?_ nofun)⟩
      rw [Setup.alone, List.getElem?_replicate, if_pos (Nat.lt_of_succ_le hn)]

/-- `main` gets to the end although no checker has begun. -/
theorem exists_destroy (d : Setup) : ∃ tree w thread,
    d.Reachable (d.alone .destroy tree w thread d.checkers) := by
  obtain ⟨thread, hcreated⟩ := creates (d := d) d.checkers (Nat.le_refl _)
  have hjoining : d.Reachable (d.alone .joinInserter (.new 4) ⟨0, .outside⟩
      thread d.checkers) :=
    hcreated.tail (.created (by simp [Setup.alone]))
  -- the inserter
  obtain ⟨tree₁, L₁, h₁, ht₁, hinserts⟩ := writer_runs d.inserts [] rfl (.new 4) []
    (.vacant (vacant_new 4)) (by decide)
  have hinserted : d.Reachable (d.alone .joinInserter tree₁
      ⟨d.inserts.length, .outside⟩ thread d.checkers) := by
    refine hjoining.trans (hinserts.lift (fun a =>
      { d.alone .joinInserter (.new 4) a.2.2 thread d.checkers with
        rwlock := a.1, tree4 := a.2.1 }) ?_)
    exact fun a b hab => .insert rfl hab
  have hremoving : d.Reachable (d.alone (.remove ⟨0, .outside⟩) tree₁
      ⟨d.inserts.length, .outside⟩ thread d.checkers) := by
    refine hinserted.tail (.joinInserter rfl ?_)
    rintro i ⟨⟩
    rfl
  -- the removals
  obtain ⟨tree₂, -, -, -, hremoves⟩ := writer_runs d.removes [] rfl tree₁ L₁ h₁ ht₁
  have hremoved : d.Reachable (d.alone (.remove ⟨d.removes.length, .outside⟩)
      tree₂ ⟨d.inserts.length, .outside⟩ thread d.checkers) := by
    refine hremoving.trans (hremoves.lift (fun a =>
      { d.alone (.remove a.2.2) tree₁ ⟨d.inserts.length, .outside⟩ thread
          d.checkers with rwlock := a.1, tree4 := a.2.1 }) ?_)
    exact fun a b hab => .remove rfl hab
  obtain ⟨thread', hjoined⟩ := joins (hremoved.tail (.removed rfl)) d.checkers
    (Nat.le_refl _)
  exact ⟨_, _, thread', hjoined.tail (.joined (by simp [Setup.alone]))⟩

theorem not_joinsCheckers_of_pos (hn : 1 ≤ d.checkers) : ¬ d.JoinsCheckers := by
  intro hjoins
  obtain ⟨tree, w, thread, hreach⟩ := exists_destroy d
  have hmem : Checker.created ∈ List.replicate d.checkers Checker.created :=
    List.mem_replicate.mpr ⟨Nat.ne_of_gt hn, rfl⟩
  exact Checker.noConfusion (hjoins _ hreach (Or.inl rfl) _ hmem)

/-- A checker that has read `tasks` in time can get to its first one late. -/
theorem not_noLateUse_of_pos (hn : 1 ≤ d.checkers) (ht : d.tasks ≠ 0) :
    ¬ d.NoLateUse := by
  intro hno
  obtain ⟨tree, w, thread, hreach⟩ := exists_destroy d
  obtain ⟨n, hcheckers⟩ := Nat.exists_eq_add_one_of_ne_zero (Nat.ne_of_gt hn)
  rw [hcheckers, Setup.alone, List.replicate_succ] at hreach
  have hlate := ((hreach.tail (.check (A := []) rfl (.enter rfl))).tail
    (.destroy rfl)).tail (.check (A := []) rfl (.next ht.symm))
  exact hno _ hlate rfl (.outside 0) (List.mem_cons_self) trivial

end Alone

/-- With any checkers at all, `main` can destroy lock and tree while they still
run; if there are tasks, a checker can use them then. -/
theorem checkers_not_joined (d : Setup) (hn : 1 ≤ d.checkers) :
    ¬ d.JoinsCheckers ∧ (d.tasks ≠ 0 → ¬ d.NoLateUse) :=
  ⟨not_joinsCheckers_of_pos hn, not_noLateUse_of_pos hn⟩

theorem checkers_not_joined_seven :
    let d : Setup := ⟨[2, 0, 1], fun _ => 1, 7, 3, fun _ _ => 0⟩
    ¬ d.JoinsCheckers ∧ (d.tasks ≠ 0 → ¬ d.NoLateUse) :=
  checkers_not_joined ⟨[2, 0, 1], fun _ => 1, 7, 3, fun _ _ => 0⟩ (by decide)

/-- Two checkers with five tasks each, neither of which has begun. -/
theorem checkers_abandoned :
    let d : Setup := ⟨[1, 0], fun _ => 1, 2, 5, fun _ _ => 0⟩
    ¬ d.JoinsCheckers ∧ ¬ d.NoLateUse :=
  ⟨not_joinsCheckers_of_pos (by decide),
    not_noLateUse_of_pos (by decide) (by decide)⟩

end ParallelBTree.Ports.Pthreads
