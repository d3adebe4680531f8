import Mathlib.Algebra.BigOperators.Group.List.Basic
import Mathlib.Algebra.GroupWithZero.Nat
import Mathlib.Logic.Relation
import Mathlib.Tactic.Common

/-!
# Programs that every schedule brings to an end

`Inevitable step Done s` says that whoever makes the next step, the program that
is in state `s` comes to a state in `Done`: it cannot get stuck before, and it
cannot go on for ever without.  Nothing is assumed of the scheduler.

A rank that every step lowers shows it, together with the fact that some step
can always be made (`Inevitable.of_rank`).  Where every step lowers the rank by
one, all schedules come to the end with the same number of steps
(`InevitableIn.of_rank`).
-/

namespace ParallelBTree.Verified.Progress

open Relation

variable {σ : Type*} {step : σ → σ → Prop} {Done : σ → Prop}

/-- Every schedule comes to a state in `Done`. -/
inductive Inevitable (step : σ → σ → Prop) (Done : σ → Prop) : σ → Prop where
  | done {s : σ} (h : Done s) : Inevitable step Done s
  | step {s : σ} (hgo : ∃ s', step s s')
      (h : ∀ s', step s s' → Inevitable step Done s') : Inevitable step Done s

/-- As long as `Done` is not reached some step can be made, and each one lowers
a rank, which the states need not show. -/
theorem Inevitable.of_ranked {ρ : Type*} {lower : ρ → ρ → Prop}
    (hwf : WellFounded lower) {I : ρ → σ → Prop}
    (hgo : ∀ n s, I n s → ¬ Done s → ∃ s', step s s')
    (hstep : ∀ n s s', I n s → step s s' → ∃ m, lower m n ∧ I m s') {n : ρ}
    {s : σ} (h : I n s) : Inevitable step Done s := by
  induction n using hwf.induction generalizing s with
  | _ n ih =>
      by_cases hdone : Done s
      · exact .done hdone
      · refine .step (hgo n s h hdone) fun s' hs' => ?_
        obtain ⟨m, hlower, hm⟩ := hstep n s s' h hs'
        exact ih m hlower hm

/-- The rank may be a number that every state has. -/
theorem Inevitable.of_rank {I : σ → Prop} (rank : σ → Nat)
    (hgo : ∀ s, I s → ¬ Done s → ∃ s', step s s')
    (hstep : ∀ s s', I s → step s s' → I s' ∧ rank s' < rank s) {s : σ}
    (h : I s) : Inevitable step Done s := by
  refine .of_ranked (I := fun n s => I s ∧ rank s = n) Nat.lt_wfRel.wf
    (fun _ s hs => hgo s hs.1) ?_ ⟨h, rfl⟩
  rintro _ s s' ⟨hs, rfl⟩ hs'
  obtain ⟨hI, hlt⟩ := hstep s s' hs hs'
  exact ⟨rank s', hlt, hI, rfl⟩

/-- Some schedule does, then. -/
theorem Inevitable.exists_run {s : σ} (h : Inevitable step Done s) :
    ∃ s', ReflTransGen step s s' ∧ Done s' := by
  induction h with
  | @done s hs => exact ⟨s, .refl, hs⟩
  | step hgo _ ih =>
      obtain ⟨s', hstep⟩ := hgo
      obtain ⟨s'', hrun, hdone⟩ := ih s' hstep
      exact ⟨s'', .head hstep hrun, hdone⟩

/-- Every schedule comes to a state in `Done` with the same number of steps. -/
def InevitableIn (step : σ → σ → Prop) (Done : σ → Prop) : Nat → σ → Prop
  | 0, s => Done s
  | n + 1, s => ¬ Done s ∧ (∃ s', step s s') ∧
      ∀ s', step s s' → InevitableIn step Done n s'

theorem InevitableIn.inevitable {n : Nat} {s : σ}
    (h : InevitableIn step Done n s) : Inevitable step Done s := by
  induction n generalizing s with
  | zero => exact .done h
  | succ n ih => exact .step h.2.1 fun s' hs' => ih (h.2.2 s' hs')

/-- A rank that every step lowers by one, down to 0 where `Done` is reached,
counts the steps. -/
theorem InevitableIn.of_rank {I : σ → Prop} (rank : σ → Nat)
    (hdone : ∀ s, I s → (Done s ↔ rank s = 0))
    (hgo : ∀ s, I s → ¬ Done s → ∃ s', step s s')
    (hstep : ∀ s s', I s → step s s' → I s' ∧ rank s' + 1 = rank s) {s : σ}
    (h : I s) : InevitableIn step Done (rank s) s := by
  induction hn : rank s generalizing s with
  | zero => exact (hdone s h).mpr hn
  | succ n ih =>
      have hlive : ¬ Done s := by
        rw [hdone s h, hn]
        exact Nat.succ_ne_zero n
      refine ⟨hlive, hgo s h hlive, fun s' hs' => ?_⟩
      obtain ⟨hI, hrank⟩ := hstep s s' h hs'
      exact ih hI (by omega)

/-- The ranks of the processes in a list add up. -/
theorem sum_middle {α : Type} (rank : α → Nat) (A B : List α) (c : α) :
    ((A ++ c :: B).map rank).sum = ((A ++ B).map rank).sum + rank c := by
  simp only [List.map_append, List.map_cons, List.sum_append, List.sum_cons]
  omega

/-- What is true of all processes stays so when one of them makes a step that
keeps it. -/
theorem forall_middle {α : Type} {P : α → Prop} {A B : List α} {c c' : α}
    (h : ∀ x ∈ A ++ c :: B, P x) (hc : P c → P c') :
    ∀ x ∈ A ++ c' :: B, P x := by
  intro x hx
  simp only [List.mem_append, List.mem_cons] at h hx
  rcases hx with hx | rfl | hx
  · exact h x (Or.inl hx)
  · exact hc (h c (Or.inr (Or.inl rfl)))
  · exact h x (Or.inr (Or.inr hx))

/-- The process that made a step is the only one that may have changed. -/
theorem getElem?_middle {α : Type} {A B : List α} {c c' x : α} {a : Nat}
    (h : (A ++ c' :: B)[a]? = some x) :
    (A ++ c :: B)[a]? = some x ∨ (A ++ c :: B)[a]? = some c ∧ x = c' := by
  rcases Nat.lt_trichotomy a A.length with hlt | rfl | hgt
  · rw [List.getElem?_append_left hlt] at h ⊢
    exact Or.inl h
  · simp only [List.getElem?_append_right (Nat.le_refl _), Nat.sub_self,
      List.getElem?_cons_zero, Option.some.injEq] at h ⊢
    exact Or.inr ⟨trivial, h.symm⟩
  · obtain ⟨q, hq⟩ : ∃ q, a - A.length = q + 1 := ⟨a - A.length - 1, by omega⟩
    rw [List.getElem?_append_right (Nat.le_of_lt hgt), hq, List.getElem?_cons_succ] at h ⊢
    exact Or.inl h

end ParallelBTree.Verified.Progress
