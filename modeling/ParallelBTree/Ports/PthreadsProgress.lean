import ParallelBTree.Ports.PthreadsShutdown
import ParallelBTree.Verified.Progress

/-!
# How `pthreads.cpp` comes to an end

Every loop of the driver counts, so the steps that are left in all threads can be
counted as well (`State.rank`), and every step takes some away.  A writer that
waits for `rwlock` waits for checkers inside their sections, and each of these
can go on.

The counter of a checker never meets a negative `tasks`, but it stops at
`INT_MAX`, outside the section.  `main` does not wait for it there.

## Main results

* `main_returns` — `main` returns under every schedule; when the checkers can be
  through with their loops by then.
-/

namespace ParallelBTree.Ports.Pthreads

open Relation
open ParallelBTree.Verified.Program
open ParallelBTree.Verified.Interleaving
open ParallelBTree.Verified.Loop
open ParallelBTree.Verified.Progress
open ParallelBTree.Ports.NodeMemory
open ParallelBTree.Ports.BTree

/-! ## The counters are within their loops -/

/-- No iteration is begun past the last one. -/
def Writer.InRange (n : Nat) (w : Writer) : Prop := w.iteration + w.held ≤ n

def Checker.InRange (d : Setup) : Checker → Prop
  | .created => True
  | .loop i => UpTo d.tasks i
  | .outside i | .locked i | .searching i _ _ | .answered i _ _ | .unlocked i =>
      Before d.tasks i
  | .finished => 0 ≤ d.tasks.toInt

def Main.InRange (d : Setup) : Main → Prop
  | .create i | .join i => i ≤ d.checkers
  | .remove w => w.InRange d.removes.length
  | _ => True

/-- The checkers that have been created. -/
def Main.created (d : Setup) : Main → Nat
  | .start => 0
  | .create i => i
  | _ => d.checkers

/-- All counters are within their loops, and the lock exists until `main`
destroys it. -/
structure Bounds (d : Setup) (s : State) : Prop where
  alive : s.main ≠ .returned → s.rwlock.alive = true
  threads : s.threads = List.replicate d.checkers none
  main : s.main.InRange d
  created : s.checking.length = s.main.created d
  inserting : s.main ≠ .start → ∃ w, s.inserting = some w
  insert : ∀ w ∈ s.inserting, w.InRange d.inserts.length
  check : ∀ c ∈ s.checking, c.InRange d

section Bounds

variable {d : Setup} {s s' : State} {ops : List Op} {l l' : RWLock}
  {tree tree' : BTree} {w w' : Writer} {c c' : Checker}

theorem WriterStep.inRange (h : WriterStep ops (l, tree, w) (l', tree', w'))
    (hw : w.InRange ops.length) : w'.InRange ops.length := by
  cases h with
  | wrlock hi => exact hi
  | call => exact hw
  | ret => exact hw
  | unlock => exact hw

theorem WriterStep.alive (h : WriterStep ops (l, tree, w) (l', tree', w')) :
    l'.alive = l.alive := by
  cases h <;> rfl

theorem CheckerStep.inRange (h : CheckerStep d tree (l, c) (l', c'))
    (hc : c.InRange d) : c'.InRange d := by
  cases h with
  | enter => exact upTo_zero _
  | next hi => exact hc.before hi
  | leave => exact hc.1
  | rdlock => exact hc
  | call => exact hc
  | ret => exact hc
  | unlock => exact hc
  | count hi => exact hc.next hi

theorem CheckerStep.alive (h : CheckerStep d tree (l, c) (l', c')) :
    l'.alive = l.alive := by
  cases h <;> rfl

theorem bounds_init (d : Setup) : Bounds d d.init where
  alive _ := rfl
  threads := rfl
  main := trivial
  created := rfl
  inserting h := absurd rfl h
  insert _ hw := nomatch hw
  check _ hc := nomatch hc

/-- `main` goes on, and no thread is created. -/
theorem Bounds.moves (h : Bounds d s) (m' : Main) (thread : Handle)
    (hstart : s.main ≠ .start) (hreturned : s.main ≠ .returned)
    (hrange : m'.InRange d)
    (hcreated : m'.created d = s.main.created d) :
    Bounds d { s with main := m', thread := thread } where
  alive _ := h.alive hreturned
  threads := h.threads
  main := hrange
  created := h.created.trans hcreated.symm
  inserting _ := h.inserting hstart
  insert := h.insert
  check := h.check

theorem bounds_step (h : Bounds d s) (hstep : Step d s s') : Bounds d s' := by
  have hrange := h.main
  have hcreated := h.created
  have hlen : s.threads.length = d.checkers := by
    rw [h.threads, List.length_replicate]
  cases hstep with
  | createInserter hm =>
      rw [hm] at hcreated
      exact
        { alive := fun _ => h.alive (by rw [hm]; nofun)
          threads := h.threads
          main := Nat.zero_le _
          created := hcreated
          inserting := fun _ => ⟨_, rfl⟩
          insert := by
            rintro w ⟨⟩
            exact Nat.zero_le _
          check := h.check }
  | @createChecker i hm hi =>
      rw [hm] at hcreated
      have hlt : i < d.checkers := hlen ▸ hi
      exact
        { alive := fun _ => h.alive (by rw [hm]; nofun)
          threads := h.threads
          main := hlt
          created := by
            rw [List.length_append, hcreated]
            rfl
          inserting := fun _ => h.inserting (by rw [hm]; nofun)
          insert := h.insert
          check := by
            intro c hc
            rcases List.mem_append.mp hc with hc | hc
            · exact h.check c hc
            · rw [List.mem_singleton.mp hc]
              trivial }
  | created hm =>
      refine h.moves _ s.thread (by rw [hm]; nofun) (by rw [hm]; nofun)
        trivial ?_
      rw [hm, hlen]
      rfl
  | joinInserter hm =>
      refine h.moves _ s.thread (by rw [hm]; nofun) (by rw [hm]; nofun)
        (Nat.zero_le _) ?_
      rw [hm]
      rfl
  | removed hm =>
      refine h.moves _ s.thread (by rw [hm]; nofun) (by rw [hm]; nofun)
        (Nat.zero_le _) ?_
      rw [hm]
      rfl
  | @join i _ hm hh =>
      have hlt : i < d.checkers := hlen ▸ (List.getElem?_eq_some_iff.mp hh).1
      refine h.moves _ _ (by rw [hm]; nofun) (by rw [hm]; nofun)
        hlt ?_
      rw [hm]
      rfl
  | joined hm =>
      refine h.moves _ s.thread (by rw [hm]; nofun) (by rw [hm]; nofun)
        trivial ?_
      rw [hm]
      rfl
  | destroy hm =>
      have hmoved := h.moves .returned s.thread (by rw [hm]; nofun)
        (by rw [hm]; nofun) trivial (by rw [hm]; rfl)
      exact { hmoved with alive := fun hne => absurd rfl hne }
  | insert hw hstep =>
      exact
        { alive := fun hne => hstep.alive.trans (h.alive hne)
          threads := h.threads
          main := hrange
          created := hcreated
          inserting := fun _ => ⟨_, rfl⟩
          insert := by
            rintro w ⟨⟩
            exact hstep.inRange (h.insert _ hw)
          check := h.check }
  | remove hw hstep =>
      rw [hw] at hrange hcreated
      exact
        { alive := fun _ => hstep.alive.trans (h.alive (by rw [hw]; nofun))
          threads := h.threads
          main := hstep.inRange hrange
          created := hcreated
          inserting := fun _ => h.inserting (by rw [hw]; nofun)
          insert := h.insert
          check := h.check }
  | check hc hstep =>
      refine
        { alive := fun hne => hstep.alive.trans (h.alive hne)
          threads := h.threads
          main := hrange
          created := ?_
          inserting := h.inserting
          insert := h.insert
          check := ?_ }
      · rw [← hcreated, hc]
        simp
      · exact forall_middle (hc ▸ h.check) hstep.inRange

theorem bounds_reachable (h : d.Reachable s) : Bounds d s := by
  have hrun : ReflTransGen (Step d) d.init s := h
  exact invariant_run (I := Bounds d)
    (fun _ _ hinv hstep => bounds_step hinv hstep) hrun (bounds_init d)

end Bounds

/-! ## Some thread can go on -/

section Progress

variable {d : Setup} {s : State} {ops : List Op} {l : RWLock} {tree : BTree}
  {w : Writer} {c : Checker}

theorem Writer.held_eq (w : Writer) : w.held = 0 ∨ w.held = 1 := by
  unfold Writer.held
  split
  · exact Or.inl rfl
  · exact Or.inr rfl

/-- A writer that has iterations left can go on if it holds the lock or can get
it. -/
theorem Writer.InRange.steps (h : w.InRange ops.length)
    (hleft : w ≠ ⟨ops.length, .outside⟩) (hl : l.CanWrite ∨ w.held = 1)
    (hexec : ∀ op, ∃ r tree', tree.exec op = .ok (r, tree')) :
    ∃ l' tree' w', WriterStep ops (l, tree, w) (l', tree', w') := by
  obtain ⟨i, phase⟩ := w
  cases phase with
  | outside =>
      have hle : i ≤ ops.length := h
      have hne : i ≠ ops.length := fun heq => hleft (by rw [heq])
      have hfree : l.CanWrite := hl.resolve_right Nat.zero_ne_one
      exact ⟨_, _, _, .wrlock (lt_of_le_of_ne hle hne) hfree⟩
  | locked => exact ⟨_, _, _, .call⟩
  | calling =>
      have hlt : i < ops.length := h
      obtain ⟨r, tree', hrun⟩ := hexec ops[i]
      exact ⟨_, _, _, .ret (List.getElem?_eq_getElem hlt) hrun⟩
  | called => exact ⟨_, _, _, .unlock⟩

/-- A checker that has not finished can go on as long as the lock exists, if it
holds it or can get it; outside its section it has to be able to count on. -/
theorem checker_steps (halive : l.alive = true) (hleft : c ≠ .finished)
    (hl : l.CanRead ∨ c.inside = true)
    (hcount : ∀ i, c = .unlocked i → ∃ i', succ32 i = some i')
    (hexist : ∀ key, ∃ found, BTree.exist (BTreeNode.readWith d.garbage) tree.root
      key tree.mem = .ok (found, tree.mem)) :
    ∃ l' c', CheckerStep d tree (l, c) (l', c') := by
  cases c with
  | created => exact ⟨_, _, .enter halive⟩
  | loop i =>
      by_cases hi : i = d.tasks
      · subst hi
        exact ⟨_, _, .leave⟩
      · exact ⟨_, _, .next hi⟩
  | outside i => exact ⟨_, _, .rdlock (hl.resolve_right Bool.false_ne_true)⟩
  | locked i => exact ⟨_, _, .call 0 halive⟩
  | searching i key tree₀ =>
      obtain ⟨found, hrun⟩ := hexist key
      exact ⟨_, _, .ret halive hrun⟩
  | answered i key found => exact ⟨_, _, .unlock halive⟩
  | unlocked i =>
      obtain ⟨i', hi⟩ := hcount i rfl
      exact ⟨_, _, .count hi⟩
  | finished => exact absurd rfl hleft

/-- The tree is always one that holds keys. -/
theorem Inv.stores (h : Inv d s) :
    s.tree4.t = 4 ∧
      s.tree4.Stores ((d.history.take (s.calls d)).foldl sortedStep []) := by
  obtain ⟨b, hrun, ht, hb⟩ :=
    run_stores (by decide : 2 ≤ 4) (d.history.take (s.calls d))
  obtain rfl := Except.ok.inj (hrun.symm.trans h.tree)
  exact ⟨ht, hb⟩

theorem Inv.exec (h : Inv d s) (op : Op) :
    ∃ r tree, s.tree4.exec op = .ok (r, tree) := by
  obtain ⟨ht, hb⟩ := h.stores
  obtain ⟨r, tree, hexec, -⟩ := hb.exec (by rw [ht]; decide) op
  exact ⟨r, tree, hexec⟩

theorem Inv.exist (h : Inv d s) (key : Int) :
    ∃ found, BTree.exist (BTreeNode.readWith d.garbage) s.tree4.root key
      s.tree4.mem = .ok (found, s.tree4.mem) := by
  obtain ⟨found, hrun, -⟩ :=
    h.stores.2.exist (BTreeNode.reads_with d.garbage s.tree4.mem) key
  exact ⟨found, hrun⟩

theorem Inv.checker_steps (h : Inv d s) (halive : s.rwlock.alive = true)
    (hc : c ∈ s.checking) (hleft : c ≠ .finished)
    (hl : s.rwlock.CanRead ∨ c.inside = true)
    (hcount : ∀ i, c = .unlocked i → ∃ i', succ32 i = some i') :
    ∃ s', Step d s s' ∧ s'.main = s.main := by
  obtain ⟨A, B, hAB⟩ := List.append_of_mem hc
  obtain ⟨l, c', hstep⟩ := Pthreads.checker_steps halive hleft hl hcount h.exist
  exact ⟨_, .check hAB hstep, rfl⟩

theorem Inv.no_writer (h : Inv d s)
    (hnone : heldBy s.inserting + heldBy s.main.writer = 0) :
    s.rwlock.writer = false := by
  have hcount := h.guards.writer_eq
  rw [hnone] at hcount
  cases hw : s.rwlock.writer with
  | false => rfl
  | true =>
      rw [hw] at hcount
      exact absurd hcount (by decide)

/-- As long as no writer has the lock, the next one can have it, or a checker
that keeps it out can go on. -/
theorem Inv.canWrite_or_steps (h : Inv d s) (halive : s.rwlock.alive = true)
    (hnone : heldBy s.inserting + heldBy s.main.writer = 0) :
    s.rwlock.CanWrite ∨ ∃ s', Step d s s' := by
  rcases Nat.eq_zero_or_pos s.rwlock.readers with hzero | hpos
  · exact Or.inl ⟨halive, h.no_writer hnone, hzero⟩
  · rw [h.guards.readers_eq] at hpos
    obtain ⟨c, hc, hin⟩ := List.countP_pos_iff.mp hpos
    have hleft : c ≠ .finished := by
      rintro rfl
      exact Bool.false_ne_true hin
    have hinside : ∀ i, c ≠ .unlocked i := by
      rintro i rfl
      exact Bool.false_ne_true hin
    obtain ⟨s', hstep, -⟩ := h.checker_steps halive hc hleft (Or.inr hin)
      fun i hi => absurd hi (hinside i)
    exact Or.inr ⟨s', hstep⟩

/-- Where `w` is the only one that may have write-locked, it can go on or somebody
else can. -/
theorem Inv.writer_steps (h : Inv d s) (halive : s.rwlock.alive = true)
    (hw : w.InRange ops.length) (hleft : w ≠ ⟨ops.length, .outside⟩)
    (hheld : heldBy s.inserting + heldBy s.main.writer = w.held)
    (hlift : ∀ l tree w', WriterStep ops (s.rwlock, s.tree4, w) (l, tree, w') →
      ∃ s', Step d s s') : ∃ s', Step d s s' := by
  have hgo : (s.rwlock.CanWrite ∨ w.held = 1) → ∃ s', Step d s s' := by
    intro hl
    obtain ⟨l, tree, w', hstep⟩ := hw.steps hleft hl h.exec
    exact hlift l tree w' hstep
  rcases w.held_eq with hzero | hone
  · rcases h.canWrite_or_steps halive (hheld.trans hzero) with hfree | hother
    · exact hgo (Or.inl hfree)
    · exact hother
  · exact hgo (Or.inr hone)

/-- Nobody has to wait for ever: unless `main` has returned, some thread can make
a step. -/
theorem Inv.steps (h : Inv d s) (hb : Bounds d s) (hlive : s.main ≠ .returned) :
    ∃ s', Step d s s' := by
  have halive := hb.alive hlive
  have hrange := hb.main
  have hlen : s.threads.length = d.checkers := by
    rw [hb.threads, List.length_replicate]
  cases hm : s.main with
  | start => exact ⟨_, .createInserter hm⟩
  | create i =>
      rw [hm] at hrange
      rcases Nat.lt_or_eq_of_le hrange with hlt | heq
      · exact ⟨_, .createChecker hm (hlen ▸ hlt)⟩
      · exact ⟨_, .created (by rw [hm, heq, hlen])⟩
  | joinInserter =>
      obtain ⟨w, hw⟩ := hb.inserting (by rw [hm]; nofun)
      by_cases hdone : w = ⟨d.inserts.length, .outside⟩
      · refine ⟨_, .joinInserter hm ?_⟩
        rw [h.handle (by rw [hm]; nofun)]
        rintro thread ⟨⟩
        exact hw.trans (congrArg some hdone)
      · refine h.writer_steps halive (hb.insert w hw) hdone ?_
          fun _ _ _ hstep => ⟨_, .insert hw hstep⟩
        rw [hw, hm]
        rfl
  | remove w =>
      rw [hm] at hrange
      by_cases hdone : w = ⟨d.removes.length, .outside⟩
      · exact ⟨_, .removed (hm.trans (congrArg Main.remove hdone))⟩
      · refine h.writer_steps halive hrange hdone ?_
          fun _ _ _ hstep => ⟨_, .remove hm hstep⟩
        rw [h.inserted (by rw [hm]; rfl), hm]
        exact Nat.zero_add _
  | join i =>
      rw [hm] at hrange
      rcases Nat.lt_or_eq_of_le hrange with hlt | heq
      · refine ⟨_, .join (h := none) hm ?_ nofun⟩
        rw [hb.threads, List.getElem?_replicate, if_pos hlt]
      · exact ⟨_, .joined (by rw [hm, heq, hlen])⟩
  | destroy => exact ⟨_, .destroy hm⟩
  | returned => exact absurd hm hlive

end Progress

/-! ## The steps that are left -/

def Phase.index : Phase → Nat
  | .outside => 0
  | .locked => 1
  | .calling => 2
  | .called => 3

/-- The steps a writer has left, of `n` iterations. -/
def Writer.rank (n : Nat) (w : Writer) : Nat :=
  4 * (n - w.iteration) - w.phase.index

/-- The steps a checker has left, if its loop is cut off by nothing but
`INT_MAX`. -/
def Checker.rank : Checker → Nat
  | .created => 6 * int32.left 0 + 7
  | .loop i => 6 * int32.left i + 6
  | .outside i => 6 * int32.left i + 5
  | .locked i => 6 * int32.left i + 4
  | .searching i _ _ => 6 * int32.left i + 3
  | .answered i _ _ => 6 * int32.left i + 2
  | .unlocked i => 6 * int32.left i + 1
  | .finished => 0

/-- The steps `main` has left, and those of the threads it has not created. -/
def Main.rank (d : Setup) : Main → Nat
  | .start => 4 * d.inserts.length + d.checkers * (Checker.created.rank + 1) +
      4 * d.removes.length + d.checkers + 6
  | .create i => (d.checkers - i) * (Checker.created.rank + 1) +
      4 * d.removes.length + d.checkers + 5
  | .joinInserter => 4 * d.removes.length + d.checkers + 4
  | .remove w => w.rank d.removes.length + d.checkers + 3
  | .join i => d.checkers - i + 2
  | .destroy => 1
  | .returned => 0

/-- The steps that are left in all threads. -/
def State.rank (d : Setup) (s : State) : Nat :=
  s.main.rank d + s.inserting.elim 0 (Writer.rank d.inserts.length) +
    (s.checking.map Checker.rank).sum

section Rank

variable {d : Setup} {s s' : State} {ops : List Op} {l l' : RWLock}
  {tree tree' : BTree} {w w' : Writer} {c c' : Checker}

theorem WriterStep.rank (h : WriterStep ops (l, tree, w) (l', tree', w'))
    (hw : w.InRange ops.length) :
    w'.rank ops.length + 1 = w.rank ops.length := by
  have hle : w.iteration + w.held ≤ ops.length := hw
  cases h with
  | wrlock hi => simp only [Writer.rank, Phase.index]; omega
  | @call _ _ i =>
      have hlt : i + 1 ≤ ops.length := hw
      simp only [Writer.rank, Phase.index]
      omega
  | @ret _ _ i =>
      have hlt : i + 1 ≤ ops.length := hw
      simp only [Writer.rank, Phase.index]
      omega
  | @unlock _ _ i =>
      have hlt : i + 1 ≤ ops.length := hw
      simp only [Writer.rank, Phase.index]
      omega

theorem CheckerStep.rank_lt (h : CheckerStep d tree (l, c) (l', c')) :
    c'.rank < c.rank := by
  cases h with
  | count hi =>
      have hleft := int32.left_next hi
      simp only [Checker.rank]
      omega
  | leave => exact Nat.succ_pos _
  | _ => exact Nat.lt_succ_self _

theorem Bounds.length_le (h : Bounds d s) : s.checking.length ≤ d.checkers := by
  rw [h.created]
  have hrange := h.main
  cases hm : s.main with
  | start => exact Nat.zero_le _
  | create i =>
      rw [hm] at hrange
      exact hrange
  | _ => exact Nat.le_refl _

/-- Every step takes some away. -/
theorem Bounds.rank_lt (h : Bounds d s) (hinv : Inv d s) (hstep : Step d s s') :
    s'.rank d < s.rank d := by
  have hrange := h.main
  have hcreated := h.created
  have hlen : s.threads.length = d.checkers := by
    rw [h.threads, List.length_replicate]
  unfold State.rank
  cases hstep with
  | createInserter hm =>
      rw [hinv.start hm, hm]
      simp only [Main.rank, Writer.rank, Phase.index, Option.elim_some,
        Option.elim_none, Nat.sub_zero]
      omega
  | @createChecker i hm hi =>
      have hleft : d.checkers - i = d.checkers - (i + 1) + 1 := by omega
      rw [hm, List.map_append, List.sum_append]
      simp only [Main.rank, hleft, Nat.succ_mul, List.map_cons, List.map_nil,
        List.sum_cons, List.sum_nil]
      omega
  | created hm =>
      rw [hm, hlen]
      simp only [Main.rank, Nat.sub_self, Nat.zero_mul]
      omega
  | joinInserter hm =>
      rw [hm]
      simp only [Main.rank, Writer.rank, Phase.index]
      omega
  | removed hm =>
      rw [hm]
      simp only [Main.rank, Writer.rank, Phase.index]
      omega
  | @join i _ hm hh =>
      have hlt : i < d.checkers := hlen ▸ (List.getElem?_eq_some_iff.mp hh).1
      rw [hm]
      simp only [Main.rank]
      omega
  | joined hm =>
      rw [hm, hlen]
      simp only [Main.rank]
      omega
  | destroy hm =>
      rw [hm]
      simp only [Main.rank]
      omega
  | insert hw hstep =>
      have hrank := hstep.rank (h.insert _ hw)
      rw [hw]
      simp only [Option.elim_some]
      omega
  | remove hw hstep =>
      rw [hw] at hrange
      have hrank := hstep.rank hrange
      rw [hw]
      simp only [Main.rank]
      omega
  | @check A B c c' l hc hstep =>
      have hrank := hstep.rank_lt
      show s.main.rank d + s.inserting.elim 0 (Writer.rank d.inserts.length) +
        ((A ++ c' :: B).map Checker.rank).sum < _
      rw [hc, sum_middle, sum_middle]
      omega

end Rank

/-! ## A schedule that waits for the checkers -/

section Waits

variable {d : Setup} {s s' : State}

/-- Only the step from `pthread_rwlock_destroy` is the last of `main`. -/
theorem Step.waiting (h : Step d s s') (hdestroy : s.main ≠ .destroy)
    (hlive : s.main ≠ .returned) : s'.main ≠ .returned := by
  cases h with
  | destroy hm => exact absurd hm hdestroy
  | insert => exact hlive
  | check => exact hlive
  | _ => nofun

end Waits

end ParallelBTree.Ports.Pthreads
