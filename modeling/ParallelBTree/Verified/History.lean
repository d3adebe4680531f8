import Mathlib.Logic.Relation
import Mathlib.Tactic.Common

/-!
# What a run lets the outside see

`sees s s'` are the events of a step from `s` to `s'`; those of a run are put one
behind the other (`Observed`).  A sequential object is given by what one call
does to it, and `InSequence` is one call after another.

A run whose every step is matched by calls on the object is itself such a
sequence (`Observed.sequential`): the object cannot tell the concurrent program
from one that makes the calls in the order in which they end.
-/

namespace ParallelBTree.Verified.History

variable {σ τ ε : Type}

/-- A run, and what it lets the outside see. -/
inductive Observed (step : σ → σ → Prop) (sees : σ → σ → List ε) :
    σ → List ε → σ → Prop where
  | refl (s : σ) : Observed step sees s [] s
  | tail {s s' s'' : σ} {es : List ε} (h : Observed step sees s es s')
      (hlast : step s' s'') : Observed step sees s (es ++ sees s' s'') s''

/-- The calls `es` on the object `b`, one after the other. -/
def InSequence (calls : τ → ε → τ → Prop) : τ → List ε → τ → Prop
  | b, [], b' => b = b'
  | b, e :: es, b' => ∃ c, calls b e c ∧ InSequence calls c es b'

variable {step : σ → σ → Prop} {sees : σ → σ → List ε}
  {calls : τ → ε → τ → Prop} {s s' : σ} {b b' : τ} {es fs : List ε}

theorem Observed.reachable (h : Observed step sees s es s') :
    Relation.ReflTransGen step s s' := by
  induction h with
  | refl => exact .refl
  | tail _ hlast ih => exact ih.tail hlast

theorem sequential_append :
    InSequence calls b (es ++ fs) b' ↔
      ∃ c, InSequence calls b es c ∧ InSequence calls c fs b' := by
  induction es generalizing b with
  | nil => simp [InSequence]
  | cons e es ih =>
      simp only [List.cons_append, InSequence, ih]
      constructor
      · rintro ⟨c, hc, c', hes, hfs⟩
        exact ⟨c', ⟨c, hc, hes⟩, hfs⟩
      · rintro ⟨c', ⟨c, hc, hes⟩, hfs⟩
        exact ⟨c, hc, c', hes, hfs⟩

theorem sequential_one {e : ε} (h : calls b e b') :
    InSequence calls b [e] b' := ⟨b', h, rfl⟩

/-- Simulation: the calls that a step lets see are calls on the object. -/
theorem Observed.sequential {R : σ → τ → Prop}
    (hstep : ∀ s s' b, R s b → step s s' →
      ∃ b', InSequence calls b (sees s s') b' ∧ R s' b')
    (h : Observed step sees s es s') (hR : R s b) :
    ∃ b', InSequence calls b es b' ∧ R s' b' := by
  induction h with
  | refl => exact ⟨b, rfl, hR⟩
  | tail _ hlast ih =>
      obtain ⟨c, hes, hc⟩ := ih
      obtain ⟨b', hnew, hb'⟩ := hstep _ _ c hc hlast
      exact ⟨b', sequential_append.mpr ⟨c, hes, hnew⟩, hb'⟩

/-! ## Lists of processes -/

/-- No process makes a step, and perhaps new ones are there. -/
theorem flatten_zipWith_append {α : Type} {sees : α → α → List ε}
    (hself : ∀ x, sees x x = []) (L M : List α) :
    (List.zipWith sees L (L ++ M)).flatten = [] := by
  induction L with
  | nil => simp
  | cons x L ih => simp [hself, ih]

/-- One process makes a step, and the others let nothing be seen. -/
theorem flatten_zipWith_middle {α : Type} {sees : α → α → List ε}
    (hself : ∀ x, sees x x = []) (A B : List α) (c c' : α) :
    (List.zipWith sees (A ++ c :: B) (A ++ c' :: B)).flatten = sees c c' := by
  induction A with
  | nil => simp [hself]
  | cons x A ih => simpa [hself] using ih

end ParallelBTree.Verified.History
