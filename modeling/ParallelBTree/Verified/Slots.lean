import Mathlib.Data.List.Induction
import ParallelBTree.Verified.Program

/-!
# Fixed-size arrays whose slots start out unwritten

`SlotArray β n` is what `new T[n]` gives: exactly `n` slots, each of them
unwritten (`none`) until the first assignment.  An index at or past `n` has no
slot at all.

Array code moves runs of slots by loops that copy one slot at a time.  The
three lemmas of the last section say what such a loop leaves behind, for any
program that copies a slot: a run moved one place up, a run moved one place
down, and a run taken over from another array.  They are stated with the array
cut into the part before the run, the run, and the part behind it, which is the
form every caller has it in.
-/

namespace ParallelBTree.Verified.Slots

open ParallelBTree.Verified.Program

/-- `n` slots holding a `β` or still unwritten. -/
structure SlotArray (β : Type) (n : Nat) where
  cells : List (Option β)
  length_cells : cells.length = n
  deriving DecidableEq, Repr

namespace SlotArray

variable {β : Type} {n : Nat}

/-- A freshly allocated array. -/
def fresh (β : Type) (n : Nat) : SlotArray β n :=
  ⟨List.replicate n none, List.length_replicate⟩

/-- Assignment to slot `i`; there is nothing to assign to past the end. -/
def set (a : SlotArray β n) (i : Nat) (b : Option β) : SlotArray β n :=
  ⟨a.cells.set i b, by rw [List.length_set, a.length_cells]⟩

@[simp] theorem fresh_cells (β : Type) (n : Nat) :
    (fresh β n).cells = List.replicate n none := rfl

@[simp] theorem set_cells (a : SlotArray β n) (i : Nat) (b : Option β) :
    (a.set i b).cells = a.cells.set i b := rfl

theorem set_append {a : SlotArray β n} {X R : List (Option β)}
    {d b : Option β} (h : a.cells = X ++ d :: R) :
    (a.set X.length b).cells = X ++ b :: R := by
  rw [set_cells, h, List.set_append_right _ _ (Nat.le_refl _), Nat.sub_self,
    List.set_cons_zero]

end SlotArray

/-! ## Copying loops -/

section Copying

variable {β σ ε : Type} {n : Nat} {copy : Nat → Nat → Prog σ ε Unit}
  {S : SlotArray β n → σ}

/-- `copy i j` assigns the written slot `i` to slot `j` of one array; `S a` is
the state in which that array is `a`. -/
def CopiesWithin (copy : Nat → Nat → Prog σ ε Unit) (S : SlotArray β n → σ) :
    Prop :=
  ∀ (a : SlotArray β n) (i j : Nat) (v : β), a.cells[i]? = some (some v) →
    j < n → copy i j (S a) = .ok ((), S (a.set j (some v)))

/-- `copy i j` assigns the written slot `i` of the array `src` to slot `j` of
the array in `S`. -/
def CopiesFrom (src : List (Option β)) (copy : Nat → Nat → Prog σ ε Unit)
    (S : SlotArray β n → σ) : Prop :=
  ∀ (a : SlotArray β n) (i j : Nat) (v : β), src[i]? = some (some v) →
    j < n → copy i j (S a) = .ok ((), S (a.set j (some v)))

/-- A run of written slots moves one place up, from its last slot to its
first. -/
theorem forDown_shift (hcopy : CopiesWithin copy S) (X : List (Option β)) :
    ∀ (Y : List β) (d : Option β) (R : List (Option β)) (a : SlotArray β n),
      a.cells = X ++ (Y.map some ++ d :: R) →
      ∃ a' w, forDown (X.length + Y.length) X.length (fun j => copy j (j + 1))
          (S a) = .ok ((), S a') ∧
        a'.cells = X ++ w :: (Y.map some ++ R) := by
  intro Y
  induction Y using List.reverseRecOn with
  | nil =>
      intro d R a ha
      refine ⟨a, d, ?_, by simpa using ha⟩
      simp [forDown, downFrom]
  | append_singleton Y y ih =>
      intro d R a ha
      have hlen : a.cells.length = X.length + Y.length + 1 + 1 + R.length := by
        rw [ha]
        simp only [List.length_append, List.length_map, List.length_cons,
          List.length_nil]
        omega
      have hread : a.cells[X.length + Y.length]? = some (some y) := by
        rw [ha]
        simp
      have hwrite : (a.set (X.length + Y.length + 1) (some y)).cells =
          X ++ (Y.map some ++ some y :: some y :: R) := by
        have hend : a.cells = (X ++ (Y ++ [y]).map some) ++ d :: R := by
          rw [ha, List.append_assoc]
        have hset := SlotArray.set_append hend (b := some y)
        rw [show (X ++ (Y ++ [y]).map some).length = X.length + Y.length + 1 by
          simp [Nat.add_assoc]] at hset
        rw [hset]
        simp
      have hbody := hcopy a (X.length + Y.length) (X.length + Y.length + 1) y
        hread (by rw [← a.length_cells, hlen]; omega)
      obtain ⟨a', w, hrun, ha'⟩ := ih (some y) (some y :: R) _ hwrite
      refine ⟨a', w, ?_, by simpa using ha'⟩
      have hcount : ∀ k, X.length + k - X.length = k := fun k =>
        Nat.add_sub_cancel_left _ k
      rw [forDown, hcount] at hrun
      rw [forDown, hcount, List.length_append, List.length_singleton, downFrom,
        bind_run_ok hbody]
      exact hrun

/-- `test i` evaluates `q` on the value in slot `i`. -/
def TestsSlot (test : Nat → Prog σ ε Bool) (q : β → Bool)
    (S : SlotArray β n → σ) : Prop :=
  ∀ (a : SlotArray β n) (i : Nat) (v : β), a.cells[i]? = some (some v) →
    test i (S a) = .ok (q v, S a)

/-- A scan downwards that moves every slot it passes one place up: it passes
the run `Y`, on which the test holds, and stops at the slot before it. -/
theorem scanDown_shift (hcopy : CopiesWithin copy S)
    {test : Nat → Prog σ ε Bool} {q : β → Bool} (htest : TestsSlot test q S)
    (X : List β) (hX : ∀ x ∈ X.getLast?, q x = false) :
    ∀ (Y : List β) (d : Option β) (R : List (Option β)) (a : SlotArray β n),
      (∀ y ∈ Y, q y = true) → a.cells = X.map some ++ (Y.map some ++ d :: R) →
      ∃ a' w, scanDown test (fun j => copy j (j + 1)) (X.length + Y.length)
          (S a) = .ok (X.length, S a') ∧
        a'.cells = X.map some ++ w :: (Y.map some ++ R) := by
  intro Y
  induction Y using List.reverseRecOn with
  | nil =>
      intro d R a _ ha
      refine ⟨a, d, ?_, by simpa using ha⟩
      cases X using List.reverseRecOn with
      | nil => rfl
      | append_singleton X x =>
          have hread : a.cells[X.length]? = some (some x) := by
            rw [ha]
            simp
          have hfalse : test X.length (S a) = .ok (false, S a) := by
            rw [htest a X.length x hread, hX x (by simp)]
          rw [List.length_nil, Nat.add_zero, List.length_append,
            List.length_singleton, scanDown, bind_run_ok hfalse]
          rfl
  | append_singleton Y y ih =>
      intro d R a hY ha
      have hlen : a.cells.length = X.length + Y.length + 1 + 1 + R.length := by
        rw [ha]
        simp only [List.length_append, List.length_map, List.length_cons,
          List.length_nil]
        omega
      have hread : a.cells[X.length + Y.length]? = some (some y) := by
        rw [ha, List.getElem?_append_right (by simp)]
        simp
      have htrue : test (X.length + Y.length) (S a) = .ok (true, S a) := by
        rw [htest a _ y hread, hY y (by simp)]
      have hwrite : (a.set (X.length + Y.length + 1) (some y)).cells =
          X.map some ++ (Y.map some ++ some y :: some y :: R) := by
        have hend : a.cells = (X ++ (Y ++ [y])).map some ++ d :: R := by
          rw [ha]
          simp
        have hset := SlotArray.set_append hend (b := some y)
        rw [show ((X ++ (Y ++ [y])).map some).length =
          X.length + Y.length + 1 by simp [Nat.add_assoc]] at hset
        rw [hset]
        simp
      have hbody := hcopy a (X.length + Y.length) (X.length + Y.length + 1) y
        hread (by rw [← a.length_cells, hlen]; omega)
      obtain ⟨a', w, hrun, ha'⟩ := ih (some y) (some y :: R) _
        (fun z hz => hY z (by simp [hz])) hwrite
      refine ⟨a', w, ?_, by simpa using ha'⟩
      rw [List.length_append, List.length_singleton, ← Nat.add_assoc, scanDown,
        bind_run_ok htrue, if_pos rfl, bind_run_ok hbody]
      exact hrun

/-- A run of written slots moves one place down, from its first slot to its
last. -/
theorem forUp_shift (hcopy : CopiesWithin copy S) :
    ∀ (Y : List β) (X : List (Option β)) (d : Option β) (R : List (Option β))
      (a : SlotArray β n), a.cells = X ++ d :: (Y.map some ++ R) →
      ∃ a' w, forUp (X.length + 1) (X.length + 1 + Y.length)
          (fun j => copy j (j - 1)) (S a) = .ok ((), S a') ∧
        a'.cells = X ++ (Y.map some ++ w :: R) := by
  intro Y
  induction Y with
  | nil =>
      intro X d R a ha
      refine ⟨a, d, ?_, by simpa using ha⟩
      simp [forUp, upFrom]
  | cons y Y ih =>
      intro X d R a ha
      have hlen : a.cells.length = X.length + 1 + (Y.length + 1) + R.length := by
        rw [ha]
        simp only [List.length_append, List.length_map, List.length_cons]
        omega
      have hread : a.cells[X.length + 1]? = some (some y) := by
        rw [ha]
        simp
      have hwrite : (a.set X.length (some y)).cells =
          (X ++ [some y]) ++ some y :: (Y.map some ++ R) := by
        rw [SlotArray.set_append ha]
        simp
      have hbody := hcopy a (X.length + 1) X.length y hread
        (by rw [← a.length_cells, hlen]; omega)
      obtain ⟨a', w, hrun, ha'⟩ := ih (X ++ [some y]) (some y) R _ hwrite
      refine ⟨a', w, ?_, by simpa using ha'⟩
      have hcount : ∀ k : Nat, X.length + 1 + k - (X.length + 1) = k := fun k =>
        Nat.add_sub_cancel_left _ k
      rw [List.length_append, List.length_singleton, forUp,
        Nat.add_sub_cancel_left] at hrun
      rw [forUp, hcount, List.length_cons, upFrom]
      exact (bind_run_ok hbody).trans hrun

private theorem upFrom_copy {src : List (Option β)}
    (hcopy : CopiesFrom src copy S) (os od : Nat) :
    ∀ (Y : List β) (lo : Nat) (X D R : List (Option β)) (a : SlotArray β n),
      a.cells = X ++ (D ++ R) → X.length = lo + od → D.length = Y.length →
      (∀ j (hj : j < Y.length), src[lo + j + os]? = some (some Y[j])) →
      ∃ a', upFrom (fun j => copy (j + os) (j + od)) lo Y.length (S a) =
          .ok ((), S a') ∧ a'.cells = X ++ (Y.map some ++ R) := by
  intro Y
  induction Y with
  | nil =>
      intro lo X D R a ha _ hD _
      have hDnil : D = [] := List.length_eq_zero_iff.mp hD
      exact ⟨a, rfl, by simpa [hDnil] using ha⟩
  | cons y Y ih =>
      intro lo X D R a ha hX hD hsrc
      cases D with
      | nil => simp at hD
      | cons d D =>
          have hread : src[lo + os]? = some (some y) := hsrc 0 (by simp)
          have hwrite : (a.set X.length (some y)).cells =
              (X ++ [some y]) ++ (D ++ R) := by
            rw [SlotArray.set_append (by simpa using ha)]
            simp
          have hbody := hcopy a (lo + os) (lo + od) y hread
            (by rw [← a.length_cells, ha, ← hX]; simp)
          rw [← hX] at hbody
          obtain ⟨a', hrun, ha'⟩ := ih (lo + 1) (X ++ [some y]) D R _ hwrite
            (by simp [hX]; omega) (by simpa using hD)
            (fun j hj => by
              have := hsrc (j + 1) (by simpa using hj)
              rwa [show lo + (j + 1) + os = lo + 1 + j + os by omega] at this)
          refine ⟨a', ?_, by simpa using ha'⟩
          rw [List.length_cons, upFrom, ← hX]
          exact (bind_run_ok hbody).trans hrun

/-- A run of written slots of another array is taken over. -/
theorem forUp_copy {src : List (Option β)} (hcopy : CopiesFrom src copy S)
    (os od : Nat) {Y : List β} {P Q X D R : List (Option β)}
    {a : SlotArray β n} (hsrc : src = P ++ (Y.map some ++ Q))
    (ha : a.cells = X ++ (D ++ R)) (hP : P.length = os) (hX : X.length = od)
    (hD : D.length = Y.length) :
    ∃ a', forUp 0 Y.length (fun j => copy (j + os) (j + od)) (S a) =
        .ok ((), S a') ∧ a'.cells = X ++ (Y.map some ++ R) := by
  refine upFrom_copy hcopy os od Y 0 X D R a ha (by omega) hD fun j hj => ?_
  rw [hsrc, ← hP, Nat.zero_add, Nat.add_comm j, List.getElem?_append_right (by omega),
    Nat.add_sub_cancel_left, List.getElem?_append_left (by simpa using hj)]
  simp [hj]

end Copying

end ParallelBTree.Verified.Slots
