import Mathlib.Logic.Relation
import Mathlib.Tactic.Common

/-!
# Interleavings, reader-writer locks and semaphores

A concurrent program is a step relation on its global states; an interleaving is
a chain of steps.  `invariant_run` is the rule all safety proofs go through, and
`appears_run` finds the step that made something true.

`RWLock` is the lock itself, with the conditions under which it can be taken.
`Guards l r w` ties it to the program around it: `r` threads are in a section
they read-locked and `w` in one they write-locked.  The four operations on the
lock keep `Guards` as the threads enter and leave (`Guards.lockRead` and so on),
and as long as it holds, writers exclude everybody else.

`Semaphore` is a counting semaphore, and `Grants v n k` says of one that was
created with `n` permits that `k` of them are held.
-/

namespace ParallelBTree.Verified.Interleaving

open Relation

/-- What steps preserve is preserved by every interleaving. -/
theorem invariant_run {σ : Type*} {step : σ → σ → Prop} {I : σ → Prop}
    (hstep : ∀ s s', I s → step s s' → I s') {s s' : σ}
    (hrun : ReflTransGen step s s') (h : I s) : I s' := by
  induction hrun with
  | refl => exact h
  | tail _ hlast ih => exact hstep _ _ ih hlast

/-- What becomes true in a run becomes true by one of its steps. -/
theorem appears_run {σ : Type*} {step : σ → σ → Prop} {P : σ → Prop} {s s' : σ}
    (hrun : ReflTransGen step s s') (hs : ¬ P s) (hs' : P s') :
    ∃ s₀ s₁, ReflTransGen step s s₀ ∧ step s₀ s₁ ∧ ReflTransGen step s₁ s' ∧
      ¬ P s₀ ∧ P s₁ := by
  induction hrun with
  | refl => exact absurd hs' hs
  | @tail s₀ s₁ hrun hlast ih =>
      by_cases h₀ : P s₀
      · obtain ⟨t₀, t₁, hbefore, hstep, hafter, hnot, hnow⟩ := ih h₀
        exact ⟨t₀, t₁, hbefore, hstep, hafter.tail hlast, hnot, hnow⟩
      · exact ⟨s₀, s₁, hrun, hlast, .refl, h₀, hs'⟩

/-- Of the processes in a list, `p` holds of one, or not, and of some others. -/
theorem countP_middle {α : Type} (p : α → Bool) (A B : List α) (c : α) :
    (A ++ c :: B).countP p = (A ++ B).countP p + (p c).toNat := by
  rw [List.countP_append, List.countP_cons, List.countP_append, Nat.add_assoc]
  cases p c with
  | false => rfl
  | true => rfl

/-- A reader-writer lock: whether it still exists, how many readers hold it, and
whether a writer does. -/
structure RWLock where
  alive : Bool
  readers : Nat
  writer : Bool
  deriving DecidableEq, Repr

namespace RWLock

/-- After initialisation. -/
def free : RWLock := ⟨true, 0, false⟩

def destroy (l : RWLock) : RWLock := { l with alive := false }

/-- Readers wait while a writer holds the lock. -/
def CanRead (l : RWLock) : Prop := l.alive = true ∧ l.writer = false

/-- A writer waits while anybody holds the lock. -/
def CanWrite (l : RWLock) : Prop :=
  l.alive = true ∧ l.writer = false ∧ l.readers = 0

def lockRead (l : RWLock) : RWLock := { l with readers := l.readers + 1 }

def unlockRead (l : RWLock) : RWLock := { l with readers := l.readers - 1 }

def lockWrite (l : RWLock) : RWLock := { l with writer := true }

def unlockWrite (l : RWLock) : RWLock := { l with writer := false }

/-- `r` threads hold the lock for reading and `w` for writing. -/
structure Guards (l : RWLock) (r w : Nat) : Prop where
  readers_eq : l.readers = r
  writer_eq : l.writer.toNat = w
  apart : w = 0 ∨ r = 0

namespace Guards

variable {l : RWLock} {r w : Nat}

theorem free : Guards RWLock.free 0 0 := ⟨rfl, rfl, Or.inl rfl⟩

theorem destroy (h : Guards l r w) : Guards l.destroy r w :=
  ⟨h.readers_eq, h.writer_eq, h.apart⟩

theorem lockRead (h : Guards l r w) (hl : l.CanRead) :
    Guards l.lockRead (r + 1) w where
  readers_eq := congrArg (· + 1) h.readers_eq
  writer_eq := h.writer_eq
  apart := Or.inl (by rw [← h.writer_eq, hl.2]; rfl)

theorem unlockRead (h : Guards l (r + 1) w) : Guards l.unlockRead r w where
  readers_eq := by
    show l.readers - 1 = r
    rw [h.readers_eq]
    rfl
  writer_eq := h.writer_eq
  apart := Or.inl (h.apart.resolve_right (Nat.succ_ne_zero r))

theorem lockWrite (h : Guards l r w) (hl : l.CanWrite) :
    Guards l.lockWrite r (w + 1) where
  readers_eq := h.readers_eq
  writer_eq := by
    rw [← h.writer_eq, hl.2.1]
    rfl
  apart := Or.inr (h.readers_eq.symm.trans hl.2.2)

theorem unlockWrite (h : Guards l r (w + 1)) : Guards l.unlockWrite r w where
  readers_eq := h.readers_eq
  writer_eq := by
    have hle : l.writer.toNat ≤ 1 := Bool.toNat_le l.writer
    have hw : w = 0 := by
      rw [h.writer_eq] at hle
      omega
    rw [hw]
    rfl
  apart := Or.inr (h.apart.resolve_left (Nat.succ_ne_zero w))

/-- There is at most one writer. -/
theorem writers_le (h : Guards l r w) : w ≤ 1 :=
  h.writer_eq ▸ Bool.toNat_le l.writer

/-- A reader keeps writers out. -/
theorem no_writer (h : Guards l r w) (hr : 1 ≤ r) : w = 0 :=
  h.apart.resolve_right (Nat.ne_of_gt hr)

end Guards

end RWLock

/-- A counting semaphore. -/
structure Semaphore where
  value : Nat
  deriving DecidableEq, Repr

namespace Semaphore

/-- A process waits while there is no permit left. -/
def CanWait (v : Semaphore) : Prop := 0 < v.value

def wait (v : Semaphore) : Semaphore := ⟨v.value - 1⟩

def post (v : Semaphore) : Semaphore := ⟨v.value + 1⟩

/-- Of `n` permits `k` are held. -/
def Grants (v : Semaphore) (n k : Nat) : Prop := v.value + k = n

namespace Grants

variable {v : Semaphore} {n k : Nat}

theorem full (n : Nat) : Grants ⟨n⟩ n 0 := Nat.add_zero n

theorem wait (h : Grants v n k) (hv : v.CanWait) : Grants v.wait n (k + 1) := by
  show v.value - 1 + (k + 1) = n
  unfold Grants CanWait at *
  omega

theorem post (h : Grants v n (k + 1)) : Grants v.post n k := by
  show v.value + 1 + k = n
  unfold Grants at h
  omega

theorem le (h : Grants v n k) : k ≤ n := by
  unfold Grants at h
  omega

/-- If nobody can have a permit, somebody holds one. -/
theorem held_of_not_canWait (h : Grants v n k) (hn : 1 ≤ n)
    (hv : ¬ v.CanWait) : 1 ≤ k := by
  unfold Grants CanWait at *
  omega

end Grants

end Semaphore

end ParallelBTree.Verified.Interleaving
