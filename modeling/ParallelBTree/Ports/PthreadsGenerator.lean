import ParallelBTree.Ports.PthreadsProgress

/-!
# The generator that the threads of `pthreads.cpp` share

`distribution(generator)` changes `generator`, and all threads call it with
`rwlock` held: a checker before and after its search, the inserter behind its
call, and `main` before and behind its own.  Whoever holds the lock for writing
is alone.  The checkers hold it for reading, and reading is what they do to the
tree but not to the generator.

## Main results

* `generator_race_iff` — when two threads may be at the generator at once.
-/

namespace ParallelBTree.Ports.Pthreads

open Relation
open ParallelBTree.Verified.Interleaving
open ParallelBTree.Verified.Loop

/-- The next thing the checker does is to draw, a key or a time to sleep. -/
def Checker.draws : Checker → Bool
  | .locked _ | .answered _ _ _ => true
  | _ => false

/-- The next thing the inserter does is to draw a time to sleep. -/
def Writer.sleeps (w : Writer) : Nat := if w.phase = .called then 1 else 0

/-- `main` draws a key before its call as well. -/
def Writer.draws (w : Writer) : Nat :=
  if w.phase = .locked ∨ w.phase = .called then 1 else 0

/-- The threads that are about to call `distribution(generator)`. -/
def State.drawing (s : State) : Nat :=
  s.checking.countP Checker.draws + s.inserting.elim 0 Writer.sleeps +
    s.main.writer.elim 0 Writer.draws

section Drawing

variable {d : Setup} {s : State}

theorem Checker.inside_of_draws {c : Checker} (h : c.draws = true) :
    c.inside = true := by
  cases c with
  | locked => rfl
  | answered => rfl
  | _ => exact Bool.noConfusion h

/-- A writer draws inside its section. -/
theorem elim_le_heldBy {f : Writer → Nat} (hf : ∀ w, f w ≤ w.held)
    (w : Option Writer) : w.elim 0 f ≤ heldBy w := by
  cases w with
  | none => exact Nat.le_refl 0
  | some w => exact hf w

theorem Writer.draws_le_held (w : Writer) : w.draws ≤ w.held := by
  obtain ⟨i, phase⟩ := w
  cases phase <;> simp [Writer.draws, Writer.held]

theorem Writer.sleeps_le_held (w : Writer) : w.sleeps ≤ w.held := by
  obtain ⟨i, phase⟩ := w
  cases phase <;> simp [Writer.sleeps, Writer.held]

theorem State.draws_le_inside (s : State) :
    s.checking.countP Checker.draws ≤ s.checking.countP Checker.inside :=
  List.countP_mono_left fun _ _ => Checker.inside_of_draws

/-- A thread that holds the lock for writing draws alone, so two that draw are
checkers. -/
theorem Inv.checkers_draw (h : Inv d s) (hrace : 2 ≤ s.drawing) :
    2 ≤ s.checking.countP Checker.draws := by
  have hins := elim_le_heldBy Writer.sleeps_le_held s.inserting
  have hrem := elim_le_heldBy Writer.draws_le_held s.main.writer
  have hinside := s.draws_le_inside
  have hone := h.guards.writers_le
  unfold State.drawing at hrace
  rcases h.guards.apart with hw | hr <;> omega

/-- The first two checkers have taken the lock, and nobody else has moved. -/
theorem two_draw (hcheckers : 2 ≤ d.checkers) (htasks : d.tasks ≠ 0) :
    ∃ s, d.Reachable s ∧ 2 ≤ s.drawing := by
  obtain ⟨thread, hcreated⟩ := creates (d := d) 2 hcheckers
  have hfirst := ((hcreated.tail (.check (A := []) rfl (.enter rfl))).tail
    (.check (A := []) rfl (.next htasks.symm))).tail
    (.check (A := []) rfl (.rdlock ⟨rfl, rfl⟩))
  have hsecond := ((hfirst.tail (.check (A := [.locked 0]) rfl (.enter rfl))).tail
    (.check (A := [.locked 0]) rfl (.next htasks.symm))).tail
    (.check (A := [.locked 0]) rfl (.rdlock ⟨rfl, rfl⟩))
  exact ⟨_, hsecond, Nat.le_refl 2⟩

end Drawing

/-- Under some schedule two threads call `distribution(generator)` at the same
time exactly if there are two checkers and they have something to do; the two are
checkers then, as nobody else is inside. -/
theorem generator_race_iff (d : Setup) :
    ((∃ s, d.Reachable s ∧ 2 ≤ s.drawing) ↔ 2 ≤ d.checkers ∧ d.tasks ≠ 0) ∧
    ∀ s, d.Reachable s → 2 ≤ s.drawing →
      2 ≤ s.checking.countP Checker.draws ∧
        heldBy s.inserting + heldBy s.main.writer = 0 := by
  have honly : ∀ s, d.Reachable s → 2 ≤ s.drawing →
      2 ≤ s.checking.countP Checker.draws ∧
        heldBy s.inserting + heldBy s.main.writer = 0 := by
    intro s hs hrace
    have hinv := inv_reachable hs
    have htwo := hinv.checkers_draw hrace
    have hinside := s.draws_le_inside
    exact ⟨htwo, hinv.guards.no_writer (by omega)⟩
  refine ⟨⟨?_, fun h => two_draw h.1 h.2⟩, honly⟩
  rintro ⟨s, hs, hrace⟩
  have htwo := (honly s hs hrace).1
  have hbounds := bounds_reachable hs
  have hlen : s.checking.countP Checker.draws ≤ s.checking.length :=
    List.countP_le_length
  refine ⟨by have := hbounds.length_le; omega, fun h0 => ?_⟩
  -- without tasks no checker gets inside
  obtain ⟨c, hc, hdraws⟩ := List.countP_pos_iff.mp (Nat.lt_of_lt_of_le Nat.zero_lt_two htwo)
  have hrange := hbounds.check c hc
  have hzero : d.tasks.toInt = 0 := by rw [h0]; rfl
  have hnone : ∀ i, ¬ Before d.tasks i := by
    rintro i ⟨hpos, hlt⟩
    have := hlt (Int.le_of_eq hzero.symm)
    omega
  cases c with
  | locked i => exact hnone i hrange
  | answered i => exact hnone i hrange
  | _ => exact Bool.noConfusion hdraws

end ParallelBTree.Ports.Pthreads
