import ParallelBTree.Verified.Program

/-!
# Two runs side by side

`Follows R f g S` compares a run of `f` with a run of `g`.  From states related
by `R`, if `g` returns then `f` returns as well, and `S` relates the two values
and the two states.  With `f` and `g` the same program, what `R` says nothing
about is what the program does not look at.

The rules are those of `Returns`, for a pair of runs.  `Keeps` is the case that
occurs most: one program, the same value, and `R` again.
-/

namespace ParallelBTree.Verified.Relational

open ParallelBTree.Verified.Program

variable {σ τ ε α β γ δ : Type}

/-- From states related by `R`, `f` returns where `g` does, and `S` relates what
they return. -/
def Follows (R : σ → τ → Prop) (f : Prog σ ε α) (g : Prog τ ε β)
    (S : α → β → σ → τ → Prop) : Prop :=
  ∀ s u, R s u → ∀ b u', g u = .ok (b, u') →
    ∃ a s', f s = .ok (a, s') ∧ S a b s' u'

/-- `f` gives the same value on both sides, and `R` holds again afterwards. -/
abbrev Keeps (R : σ → σ → Prop) (f : Prog σ ε α) : Prop :=
  Follows R f f fun a b s u => a = b ∧ R s u

section Rules

variable {R R' : σ → τ → Prop} {f : Prog σ ε α} {g : Prog τ ε β}
  {S S' : α → β → σ → τ → Prop} {T : γ → δ → σ → τ → Prop}
  {f' : α → Prog σ ε γ} {g' : β → Prog τ ε δ}

theorem Follows.pure {a : α} {b : β} (h : ∀ s u, R s u → S a b s u) :
    Follows R (Pure.pure a : Prog σ ε α) (Pure.pure b : Prog τ ε β) S := by
  rintro s u hR b' u' hrun
  obtain ⟨rfl, rfl⟩ : b = b' ∧ u = u' := by simpa using hrun
  exact ⟨a, s, rfl, h s u hR⟩

/-- There is no run of a program that faults. -/
theorem Follows.throw (e : ε) : Follows R f (throw e : Prog τ ε β) S :=
  fun _ _ _ _ _ hrun => nomatch hrun

theorem Follows.bind (h : Follows R f g S)
    (h' : ∀ a b, Follows (S a b) (f' a) (g' b) T) :
    Follows R (f >>= f') (g >>= g') T := by
  intro s u hR d u'' hrun
  obtain ⟨b, u', hg, hg'⟩ := bind_ok hrun
  obtain ⟨a, s', hf, hS⟩ := h s u hR b u' hg
  obtain ⟨c, s'', hf', hT⟩ := h' a b s' u' hS d u'' hg'
  exact ⟨c, s'', (bind_run_ok hf).trans hf', hT⟩

/-- Sequencing after programs that only read, and what they read is known. -/
theorem Follows.read {a : α} {b : β}
    (h : ∀ s u, R s u → f s = .ok (a, s) ∧ g u = .ok (b, u))
    (h' : Follows R (f' a) (g' b) T) : Follows R (f >>= f') (g >>= g') T := by
  intro s u hR
  rw [bind_run_ok (h s u hR).1, bind_run_ok (h s u hR).2]
  exact h' s u hR

/-- Consequence. -/
theorem Follows.mono (h : Follows R f g S) (hR : ∀ s u, R' s u → R s u)
    (hS : ∀ a b s u, S a b s u → S' a b s u) : Follows R' f g S' := by
  intro s u hpre b u' hrun
  obtain ⟨a, s', hrun', hpost⟩ := h s u (hR s u hpre) b u' hrun
  exact ⟨a, s', hrun', hS a b s' u' hpost⟩

/-- What `g` is known to do from a state, `f` does from a related one. -/
theorem Follows.returns (h : Follows R f g S) {s : σ} {u : τ} (hR : R s u)
    {Q : β → τ → Prop} (hg : Returns g u Q) :
    Returns f s fun a s' => ∃ b u', S a b s' u' ∧ Q b u' := by
  obtain ⟨b, u', hrun, hQ⟩ := hg
  obtain ⟨a, s', hrun', hS⟩ := h s u hR b u' hrun
  exact ⟨a, s', hrun', b, u', hS, hQ⟩

end Rules

section Keeping

variable {R : σ → σ → Prop} {S : α → σ → σ → Prop} {f : Prog σ ε α}
  {f' : α → Prog σ ε β} {T : β → β → σ → σ → Prop}

/-- Sequencing after a program that gives the same value on both sides. -/
theorem Follows.seq (h : Follows R f f fun a b s u => a = b ∧ S b s u)
    (h' : ∀ a, Follows (S a) (f' a) (f' a) T) :
    Follows R (f >>= f') (f >>= f') T := by
  refine h.bind fun a b s u hab => ?_
  obtain ⟨rfl, hS⟩ := hab
  exact h' a s u hS

theorem Keeps.pure (a : α) : Keeps R (Pure.pure a : Prog σ ε α) :=
  Follows.pure fun _ _ h => ⟨rfl, h⟩

theorem Keeps.onlyIf {f : Prog σ ε Unit} (h : Keeps R f) (b : Bool) :
    Keeps R (onlyIf b f) := by
  cases b with
  | true => exact h
  | false => exact Keeps.pure ()

theorem Keeps.forUp {body : Nat → Prog σ ε Unit} (h : ∀ j, Keeps R (body j))
    (lo hi : Nat) : Keeps R (forUp lo hi body) := by
  unfold Program.forUp
  generalize hi - lo = count
  induction count generalizing lo with
  | zero => exact Keeps.pure ()
  | succ count ih => exact (h lo).seq fun _ => ih (lo + 1)

theorem Keeps.forDown {body : Nat → Prog σ ε Unit} (h : ∀ j, Keeps R (body j))
    (hi lo : Nat) : Keeps R (forDown hi lo body) := by
  unfold Program.forDown
  generalize hi - lo = count
  induction count with
  | zero => exact Keeps.pure ()
  | succ count ih => exact (h (lo + count)).seq fun _ => ih

end Keeping

end ParallelBTree.Verified.Relational
