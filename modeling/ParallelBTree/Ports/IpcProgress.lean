import ParallelBTree.Ports.Ipc
import ParallelBTree.Verified.Progress

/-!
# Does `ipc.cpp` come to an end

The steps that are left in the parent and in all children (`State.rank`), one of
which every step takes away.  That some process can always make one is part of
what was shown of the semaphore (`Inv.steps`).

This is so as long as the counters of the children can meet `task_num`.  A
negative one they do not meet before `INT_MAX`.

## Main results

* `processes_finish_iff` — when all processes finish under every schedule, and
  after how many steps.
-/

namespace ParallelBTree.Ports.Ipc

open Relation
open ParallelBTree.Verified.Program
open ParallelBTree.Verified.Interleaving
open ParallelBTree.Verified.Loop
open ParallelBTree.Verified.Progress
open ParallelBTree.Ports.NodeMemory
open ParallelBTree.Ports.BTree

def Place.InRange (d : Setup) : Place → Prop
  | .loop j => UpTo d.task_num j
  | .outside j | .inside j | .searched j | .posted j => Before d.task_num j
  | .exited | .reaped => 0 ≤ d.task_num.toInt

/-- All counters are within their loops, and the parent returns only after it has
waited for all children. -/
structure Bounds (d : Setup) (s : State) : Prop where
  child : ∀ c ∈ s.children, c.place.InRange d
  waited : s.parent = .returned → ∀ c ∈ s.children, c.place = .reaped

section Bounds

variable {d : Setup} {s s' : State} {v v' : Semaphore} {c c' : Child}

theorem ChildStep.inRange (h : ChildStep d (v, c) (v', c'))
    (hc : c.place.InRange d) : c'.place.InRange d := by
  cases h with
  | next hj => exact hc.before hj
  | exit => exact hc.1
  | sem_wait => exact hc
  | search => exact hc
  | sem_post => exact hc
  | count hj => exact hc.next hj
  | overflow => exact hc

/-- A child that was waited for makes no step. -/
theorem ChildStep.not_reaped (h : ChildStep d (v, c) (v', c')) :
    c.place ≠ .reaped := by
  cases h <;> nofun

theorem bounds_init (d : Setup) : Bounds d d.init where
  child _ hc := nomatch hc
  waited _ _ hc := nomatch hc

theorem bounds_step (h : Bounds d s) (hstep : Step d s s') : Bounds d s' := by
  cases hstep with
  | fork hp =>
      refine ⟨?_, nofun⟩
      intro c hc
      rcases List.mem_append.mp hc with hc | hc
      · exact h.child c hc
      · rw [List.mem_singleton.mp hc]
        exact upTo_zero _
  | @reap A B c hp hc hexit =>
      refine ⟨?_, fun hret => Parent.noConfusion (hp.symm.trans hret)⟩
      refine forall_middle (hc ▸ h.child) fun hrange => ?_
      rw [hexit] at hrange
      exact hrange
  | waited hp hall => exact ⟨h.child, fun _ => hall⟩
  | child hc hstep =>
      refine ⟨forall_middle (hc ▸ h.child) hstep.inRange, fun hret => ?_⟩
      exact absurd (h.waited hret _ (hc ▸ by simp)) hstep.not_reaped
  | _ => exact ⟨h.child, nofun⟩

theorem bounds_reachable (h : d.Reachable s) : Bounds d s := by
  have hrun : ReflTransGen (Step d) d.init s := h
  exact invariant_run (I := Bounds d)
    (fun _ _ hinv hstep => bounds_step hinv hstep) hrun (bounds_init d)

end Bounds

/-! ## The steps that are left -/

/-- The steps a child has left, and the one that waits for it. -/
def Place.rank (d : Setup) : Place → Nat
  | .loop j => 5 * (d.task_num.toInt - j.toInt).toNat + 2
  | .outside j => 5 * (d.task_num.toInt - j.toInt).toNat + 1
  | .inside j => 5 * (d.task_num.toInt - j.toInt).toNat
  | .searched j => 5 * (d.task_num.toInt - j.toInt).toNat - 1
  | .posted j => 5 * (d.task_num.toInt - j.toInt).toNat - 2
  | .exited => 1
  | .reaped => 0

/-- The steps the parent has left, and those of the children it has not
forked. -/
def Parent.rank (d : Setup) : Parent → Nat
  | .insert i => d.keys.length - i +
      d.thread_num * ((Place.loop 0).rank d + 1) + 3 * d.removals.length + 4
  | .fork i => (d.thread_num - i) * ((Place.loop 0).rank d + 1) +
      3 * d.removals.length + 3
  | .outside i => 3 * (d.removals.length - i) + 2
  | .inside i => 3 * (d.removals.length - i) + 1
  | .removed i => 3 * (d.removals.length - i)
  | .wait => 1
  | .returned => 0

/-- The steps that are left in all processes. -/
def State.rank (d : Setup) (s : State) : Nat :=
  s.parent.rank d + (s.children.map fun c => c.place.rank d).sum

section Rank

variable {d : Setup} {s s' : State} {v v' : Semaphore} {c c' : Child}

/-- The counter of a child that has tasks meets their number. -/
theorem ChildStep.rank (h : ChildStep d (v, c) (v', c'))
    (hc : c.place.InRange d) (h0 : 0 ≤ d.task_num.toInt) :
    c'.place.rank d + 1 = c.place.rank d := by
  cases h with
  | next hj => rfl
  | exit => simp only [Place.rank, Int.sub_self, Int.toNat_zero]
  | sem_wait => rfl
  | @search _ _ _ j =>
      have hlt : j.toInt < d.task_num.toInt := hc.2 h0
      simp only [Place.rank]
      omega
  | @sem_post _ _ _ j =>
      have hlt : j.toInt < d.task_num.toInt := hc.2 h0
      simp only [Place.rank]
      omega
  | @count _ _ _ j j' hj =>
      have hlt : j.toInt < d.task_num.toInt := hc.2 h0
      have hval := (succ32_eq_some hj).2
      simp only [Place.rank]
      omega
  | overflow hj =>
      obtain ⟨j', hnext⟩ := Before.exists_next hc h0
      cases hj.symm.trans hnext

theorem Inv.length_le (h : Inv d s) : s.children.length ≤ d.thread_num := by
  rw [h.forks]
  have hrange := h.range
  cases hp : s.parent with
  | insert i => exact Nat.zero_le _
  | fork i =>
      rw [hp] at hrange
      exact hrange
  | _ => exact Nat.le_refl _

/-- Every step takes one away. -/
theorem Bounds.rank (h : Bounds d s) (hinv : Inv d s)
    (htasks : 0 ≤ d.task_num.toInt ∨ d.thread_num = 0) (hstep : Step d s s') :
    s'.rank d + 1 = s.rank d := by
  have hrange := hinv.range
  have hforks := hinv.forks
  unfold State.rank
  cases hstep with
  | @insert i key r tree hp hkey =>
      have hlt : i < d.keys.length := (List.getElem?_eq_some_iff.mp hkey).1
      rw [hp]
      simp only [Parent.rank]
      omega
  | inserted hp =>
      rw [hp]
      simp only [Parent.rank, Nat.sub_zero]
      omega
  | @fork i hp hi =>
      rw [hp] at hrange
      have hle : i ≤ d.thread_num := hrange
      have hleft : d.thread_num - i = d.thread_num - (i + 1) + 1 := by omega
      rw [hp, List.map_append, List.sum_append]
      simp only [Parent.rank, hleft, Nat.succ_mul, List.map_cons, List.map_nil,
        List.sum_cons, List.sum_nil]
      omega
  | forked hp =>
      rw [hp]
      simp only [Parent.rank, Nat.sub_self, Nat.zero_mul]
      omega
  | sem_wait hp =>
      rw [hp]
      simp only [Parent.rank]
      omega
  | remove hp =>
      rw [hp]
      simp only [Parent.rank]
      omega
  | @sem_post i hp =>
      rw [hp] at hrange
      have hlt : i < d.removals.length := hrange
      rw [hp]
      simp only [Parent.rank]
      omega
  | removed hp =>
      rw [hp]
      simp only [Parent.rank]
      omega
  | @reap A B c hp hc hexit =>
      show s.parent.rank d + ((A ++ { c with place := .reaped } :: B).map
        fun c => c.place.rank d).sum + 1 = _
      rw [hc, sum_middle, sum_middle, hexit]
      rfl
  | waited hp =>
      rw [hp]
      simp only [Parent.rank]
      omega
  | @child A B c c' v hc hstep =>
      have hmem : c ∈ s.children := hc ▸ by simp
      have hrank : c'.place.rank d + 1 = c.place.rank d := by
        rcases htasks with h0 | hnone
        · exact hstep.rank (h.child c hmem) h0
        · have hle := hinv.length_le
          rw [hnone, hc, List.length_append, List.length_cons] at hle
          omega
      show s.parent.rank d + ((A ++ c' :: B).map
        fun c => c.place.rank d).sum + 1 = _
      rw [hc, sum_middle, sum_middle]
      omega

/-- Nothing is left exactly if all processes have finished. -/
theorem Bounds.finished_iff (h : Bounds d s) (hinv : Inv d s) :
    s.Finished ↔ s.rank d = 0 := by
  constructor
  · intro hdone
    have hreaped := h.waited hdone.1
    have hsum : (s.children.map fun c => c.place.rank d).sum = 0 := by
      apply List.sum_eq_zero
      intro x hx
      obtain ⟨c, hc, rfl⟩ := List.mem_map.mp hx
      rw [hreaped c hc]
      rfl
    rw [State.rank, hsum, hdone.1]
    rfl
  · intro hrank
    have hpar : s.parent.rank d = 0 := Nat.eq_zero_of_add_eq_zero_right hrank
    have hret : s.parent = .returned := by
      have hrange := hinv.range
      cases hp : s.parent with
      | removed i =>
          rw [hp] at hpar hrange
          have hlt : i < d.removals.length := hrange
          simp only [Parent.rank] at hpar
          omega
      | returned => rfl
      | _ =>
          rw [hp] at hpar
          simp [Parent.rank] at hpar
    exact ⟨hret, fun c hc => Or.inr (h.waited hret c hc)⟩

end Rank

/-! ## With a negative `task_num` -/

section Negative

variable {d : Setup} {s : State}

/-- A child whose counter never meets `task_num` does not exit. -/
theorem Bounds.not_finished (h : Bounds d s) (hinv : Inv d s)
    (htasks : d.task_num.toInt < 0) (hn : d.thread_num ≠ 0) : ¬ s.Finished := by
  rintro ⟨hret, hexit⟩
  have hforks := hinv.forks
  rw [hret] at hforks
  obtain ⟨c, hc⟩ := List.exists_mem_of_length_pos (l := s.children)
    (Nat.pos_of_ne_zero (hforks ▸ hn))
  have hrange := h.child c hc
  rw [h.waited hret c hc] at hrange
  have hpos : 0 ≤ d.task_num.toInt := hrange
  omega

end Negative

/-- Under every schedule all processes finish, and always after the same number
of steps, unless there is a child and `task_num` is negative; then no schedule
makes all of them finish, as no counter meets it before `INT_MAX`. -/
theorem processes_finish_iff (d : Setup) :
    (Inevitable (Step d) State.Finished d.init ↔
      0 ≤ d.task_num.toInt ∨ d.thread_num = 0) ∧
    (InevitableIn (Step d) State.Finished
        (d.thread_num * (5 * d.task_num.toInt.toNat + 3) + 4 * d.keys.length + 4)
        d.init ↔ 0 ≤ d.task_num.toInt ∨ d.thread_num = 0) ∧
    ((∃ s, d.Reachable s ∧ s.Finished) ↔
      0 ≤ d.task_num.toInt ∨ d.thread_num = 0) := by
  have hin : 0 ≤ d.task_num.toInt ∨ d.thread_num = 0 →
      InevitableIn (Step d) State.Finished (d.init.rank d) d.init := by
    intro htasks
    refine InevitableIn.of_rank (I := fun s => Inv d s ∧ Bounds d s)
      (State.rank d) ?_ ?_ ?_ ⟨inv_init d, bounds_init d⟩
    · exact fun s hs => hs.2.finished_iff hs.1
    · exact fun s hs => hs.1.steps
    · intro s s' hs hstep
      exact ⟨⟨inv_step hs.1 hstep, bounds_step hs.2 hstep⟩,
        hs.2.rank hs.1 htasks hstep⟩
  have hrank : d.init.rank d =
      d.thread_num * (5 * d.task_num.toInt.toNat + 3) + 4 * d.keys.length + 4 := by
    have hlen := d.shuffled.length_eq
    have hchild : (Place.loop 0).rank d + 1 = 5 * d.task_num.toInt.toNat + 3 := by
      simp only [Place.rank, Int32.toInt_zero, Int.sub_zero]
    simp only [State.rank, Setup.init, Parent.rank, hchild, hlen,
      List.map_nil, List.sum_nil, Nat.sub_zero]
    omega
  have hreach : (∃ s, d.Reachable s ∧ s.Finished) →
      0 ≤ d.task_num.toInt ∨ d.thread_num = 0 := by
    rintro ⟨s, hs, hdone⟩
    by_contra hnot
    obtain ⟨htasks, hn⟩ := not_or.mp hnot
    exact (bounds_reachable hs).not_finished (inv_reachable hs)
      (Int.not_le.mp htasks) hn hdone
  refine ⟨⟨fun h => hreach ?_, fun h => (hin h).inevitable⟩,
    ⟨fun h => hreach ?_, fun h => hrank ▸ hin h⟩, hreach, fun h => ?_⟩
  · exact h.exists_run
  · exact h.inevitable.exists_run
  · exact (hin h).inevitable.exists_run

end ParallelBTree.Ports.Ipc
