import ParallelBTree.Verified.Program

/-!
# What programs keep if they return

`Secures I f Q` is partial correctness with an invariant: started in a state in
`I`, whatever `f` returns is in `Q`, and the state it leaves is in `I` again.
Unlike `Returns` it says nothing about whether `f` returns, so there is nothing
to show about what `f` needs, and the rules ask for nothing but the same of the
parts of a program.
-/

namespace ParallelBTree.Verified.Partial

open ParallelBTree.Verified.Program

variable {σ ε α β : Type} {I : σ → Prop} {f : Prog σ ε α} {g : α → Prog σ ε β}
  {P : α → Prop} {Q : β → Prop}

/-- From states in `I`, `f` leads to states in `I`, and returns values in `P`. -/
def Secures (I : σ → Prop) (f : Prog σ ε α) (P : α → Prop) : Prop :=
  ∀ s, I s → ∀ a s', f s = .ok (a, s') → I s' ∧ P a

theorem Secures.pure {a : α} (h : P a) :
    Secures I (Pure.pure a : Prog σ ε α) P := by
  intro s hs b s' hrun
  obtain ⟨rfl, rfl⟩ := Prod.mk.inj (Except.ok.inj hrun)
  exact ⟨hs, h⟩

theorem Secures.throw (e : ε) : Secures I (throw e : Prog σ ε α) P :=
  fun _ _ _ _ hrun => nomatch hrun

theorem Secures.bind (h : Secures I f P) (h' : ∀ a, P a → Secures I (g a) Q) :
    Secures I (f >>= g) Q := by
  intro s hs b s'' hrun
  obtain ⟨a, s', hf, hg⟩ := bind_ok hrun
  obtain ⟨hs', hP⟩ := h s hs a s' hf
  exact h' a hP s' hs' b s'' hg

/-- Sequencing where the value does not matter. -/
theorem Secures.seq (h : Secures I f P) (h' : ∀ a, Secures I (g a) Q) :
    Secures I (f >>= g) Q := h.bind fun a _ => h' a

theorem Secures.modify {u : σ → σ} (h : ∀ s, I s → I (u s)) :
    Secures I (modify u : Prog σ ε PUnit) fun _ => True := by
  intro s hs a s' hrun
  obtain ⟨-, rfl⟩ := Prod.mk.inj (Except.ok.inj hrun)
  exact ⟨h s hs, trivial⟩

theorem Secures.get : Secures I (get : Prog σ ε σ) I := by
  intro s hs a s' hrun
  obtain ⟨rfl, rfl⟩ := Prod.mk.inj (Except.ok.inj hrun)
  exact ⟨hs, hs⟩

theorem Secures.onlyIf {f : Prog σ ε Unit} {b : Bool}
    (h : Secures I f fun _ => True) : Secures I (onlyIf b f) fun _ => True := by
  cases b with
  | true => exact h
  | false => exact .pure trivial

theorem Secures.forUp {body : Nat → Prog σ ε Unit} {lo hi : Nat}
    (h : ∀ j, Secures I (body j) fun _ => True) :
    Secures I (forUp lo hi body) fun _ => True := by
  unfold Program.forUp
  generalize hi - lo = count
  induction count generalizing lo with
  | zero => exact .pure trivial
  | succ count ih => exact (h lo).seq fun _ => ih

theorem Secures.forDown {body : Nat → Prog σ ε Unit} {lo hi : Nat}
    (h : ∀ j, Secures I (body j) fun _ => True) :
    Secures I (forDown hi lo body) fun _ => True := by
  unfold Program.forDown
  generalize hi - lo = count
  induction count with
  | zero => exact .pure trivial
  | succ count ih => exact (h (lo + count)).seq fun _ => ih

theorem Secures.scanUp {test : Nat → Prog σ ε Bool} {hi : Nat}
    (h : ∀ i, Secures I (test i) fun _ => True) :
    Secures I (scanUp hi test) fun _ => True := by
  suffices hfrom : ∀ lo, Secures I (scanUpFrom test lo hi) fun _ => True from
    hfrom 0
  induction hi with
  | zero => exact fun lo => .pure trivial
  | succ count ih =>
      refine fun lo => (h lo).seq fun b => ?_
      split
      · exact ih (lo + 1)
      · exact .pure trivial

theorem Secures.scanDown {test : Nat → Prog σ ε Bool} {body : Nat → Prog σ ε Unit}
    (h : ∀ i, Secures I (test i) fun _ => True)
    (hbody : ∀ i, Secures I (body i) fun _ => True) (n : Nat) :
    Secures I (scanDown test body n) fun _ => True := by
  induction n with
  | zero => exact .pure trivial
  | succ n ih =>
      refine (h n).seq fun b => ?_
      split
      · exact (hbody n).seq fun _ => ih
      · exact .pure trivial

end ParallelBTree.Verified.Partial
