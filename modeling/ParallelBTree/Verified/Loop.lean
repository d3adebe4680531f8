import Mathlib.Tactic.Common

/-!
# Loops with a counter of a machine type

`for (i = lo; test(i); ++i) body`, where `++i` has no result at the greatest
value of the type.  A loop that gets there does not end: `Ends test lo k` says
that the test fails before that, after `k` rounds.

`Total` adds up the rounds of several such loops.  Where the rounds of a loop are
interleaved with something else, `UpTo` and `Before` say how far it has come, and
`left` how far it can go.
-/

namespace ParallelBTree.Verified.Loop

/-- A type to count in: its increment, and what its values stand for. -/
structure Counter (α : Type) where
  next : α → Option α
  val : α → Int
  max : Int
  next_isSome : ∀ i, val i < max → (next i).isSome = true
  val_lt : ∀ i i', next i = some i' → val i < max
  val_next : ∀ i i', next i = some i' → val i' = val i + 1

/-- `++i` on a 32-bit integer; there is no result at the greatest one. -/
def succ32 (i : Int32) : Option Int32 :=
  if i = Int32.maxValue then none else some (i + 1)

theorem succ32_isSome {i : Int32} (hi : i.toInt < Int32.maxValue.toInt) :
    (succ32 i).isSome = true := by
  have hne : i ≠ Int32.maxValue := by
    rintro rfl
    exact Int.lt_irrefl _ hi
  rw [succ32, if_neg hne]
  rfl

theorem succ32_eq_some {i i' : Int32} (h : succ32 i = some i') :
    i.toInt < Int32.maxValue.toInt ∧ i'.toInt = i.toInt + 1 := by
  have hne : i ≠ Int32.maxValue := by
    rintro rfl
    simp [succ32] at h
  have hval : i.toInt ≠ Int32.maxValue.toInt := fun heq =>
    hne (Int32.toInt_inj.mp heq)
  have hlt : i.toInt < Int32.maxValue.toInt := by
    have hle := i.toInt_le
    omega
  refine ⟨hlt, ?_⟩
  rw [succ32, if_neg hne] at h
  rw [← Option.some.inj h, Int32.toInt_add, Int32.toInt_one]
  rw [Int32.toInt_maxValue] at hlt
  have hge : -2 ^ 31 ≤ i.toInt := i.le_toInt
  exact Int.bmod_eq_of_le (by omega) (by omega)

/-! ### `for (i = 0; i != n; ++i)`, from one round to the next -/

/-- At the test: the counter has not passed `n`; a negative `n` is never met. -/
def UpTo (n i : Int32) : Prop :=
  0 ≤ i.toInt ∧ (0 ≤ n.toInt → i.toInt ≤ n.toInt)

/-- In the body: the counter has not met `n` either. -/
def Before (n i : Int32) : Prop :=
  0 ≤ i.toInt ∧ (0 ≤ n.toInt → i.toInt < n.toInt)

theorem upTo_zero (n : Int32) : UpTo n 0 := ⟨Int.le_refl 0, id⟩

theorem UpTo.before {n i : Int32} (h : UpTo n i) (hne : i ≠ n) : Before n i := by
  refine ⟨h.1, fun h0 => ?_⟩
  have hle := h.2 h0
  have hval : i.toInt ≠ n.toInt := fun heq => hne (Int32.toInt_inj.mp heq)
  omega

theorem Before.next {n i i' : Int32} (h : Before n i) (hi : succ32 i = some i') :
    UpTo n i' := by
  have hval := (succ32_eq_some hi).2
  obtain ⟨hpos, hlt⟩ := h
  exact ⟨by omega, fun h0 => by have := hlt h0; omega⟩

/-- `++i` has a result, unless `n` is negative. -/
theorem Before.exists_next {n i : Int32} (h : Before n i) (h0 : 0 ≤ n.toInt) :
    ∃ i', succ32 i = some i' := by
  have hlt := h.2 h0
  have hmax : n.toInt ≤ Int32.maxValue.toInt := n.toInt_le
  exact Option.isSome_iff_exists.mp (succ32_isSome (by omega))

def int32 : Counter Int32 where
  next := succ32
  val := Int32.toInt
  max := Int32.maxValue.toInt
  next_isSome _ hi := succ32_isSome hi
  val_lt _ _ h := (succ32_eq_some h).1
  val_next _ _ h := (succ32_eq_some h).2

namespace Counter

variable {α : Type} (C : Counter α) {test : α → Bool} {lo : α} {k : Nat}

/-- How often the counter can be incremented. -/
def left (i : α) : Nat := (C.max - C.val i).toNat

theorem left_next {i i' : α} (h : C.next i = some i') :
    C.left i' + 1 = C.left i := by
  have hlt := C.val_lt i i' h
  have hval := C.val_next i i' h
  simp only [left]
  omega

/-- The number of rounds of `for (i = lo; test(i); ++i)`, if it can be found with
the given fuel. -/
def rounds (test : α → Bool) : Nat → α → Option Nat
  | 0, _ => none
  | fuel + 1, i =>
      if test i then
        match C.next i with
        | some i' => (rounds test fuel i').map (· + 1)
        | none => none
      else some 0

/-- `for (i = lo; test(i); ++i)` ends, after `k` rounds. -/
def Ends (test : α → Bool) (lo : α) (k : Nat) : Prop :=
  ∃ fuel, C.rounds test fuel lo = some k

theorem ends_zero_iff : C.Ends test lo 0 ↔ test lo = false := by
  constructor
  · rintro ⟨fuel, h⟩
    cases fuel with
    | zero => simp [rounds] at h
    | succ fuel =>
        by_contra htest
        rw [rounds, if_pos (Bool.not_eq_false _ ▸ htest)] at h
        cases hnext : C.next lo with
        | none => simp [hnext] at h
        | some i => simp [hnext] at h
  · intro htest
    exact ⟨1, by rw [rounds, if_neg (by simp [htest])]⟩

theorem ends_succ_iff : C.Ends test lo (k + 1) ↔
    test lo = true ∧ ∃ i, C.next lo = some i ∧ C.Ends test i k := by
  constructor
  · rintro ⟨fuel, h⟩
    cases fuel with
    | zero => simp [rounds] at h
    | succ fuel =>
        have htest : test lo = true := by
          by_contra htest
          rw [rounds, if_neg htest] at h
          exact absurd (Option.some.inj h) (Nat.succ_ne_zero k).symm
        rw [rounds, if_pos htest] at h
        cases hnext : C.next lo with
        | none => simp [hnext] at h
        | some i =>
            rw [hnext] at h
            obtain ⟨k', hk', hsucc⟩ := Option.map_eq_some_iff.mp h
            obtain rfl : k' = k := Nat.succ.inj hsucc
            exact ⟨htest, i, rfl, fuel, hk'⟩
  · rintro ⟨htest, i, hnext, fuel, h⟩
    exact ⟨fuel + 1, by simp [rounds, htest, hnext, h]⟩

theorem ends_unique : ∀ {k k' : Nat} {lo : α}, C.Ends test lo k →
    C.Ends test lo k' → k = k' := by
  intro k
  induction k with
  | zero =>
      intro k' lo h h'
      cases k' with
      | zero => rfl
      | succ k' =>
          have hfalse : test lo = false := C.ends_zero_iff.mp h
          have htrue : test lo = true := (C.ends_succ_iff.mp h').1
          exact Bool.noConfusion (hfalse.symm.trans htrue)
  | succ k ih =>
      intro k' lo h h'
      obtain ⟨htrue, i, hnext, hrest⟩ := C.ends_succ_iff.mp h
      cases k' with
      | zero =>
          have hfalse : test lo = false := C.ends_zero_iff.mp h'
          exact Bool.noConfusion (hfalse.symm.trans htrue)
      | succ k' =>
          obtain ⟨-, i', hnext', hrest'⟩ := C.ends_succ_iff.mp h'
          obtain rfl : i = i' := Option.some.inj (hnext.symm.trans hnext')
          exact congrArg (· + 1) (ih hrest hrest')

/-- The loop makes `k` rounds if the test holds that often, fails the next time,
and the type can count that far. -/
theorem ends_iff {p : Int → Prop} (hp : ∀ i, test i = true ↔ p (C.val i)) :
    ∀ (k : Nat) (lo : α), C.Ends test lo k ↔
      (∀ j : Nat, j < k → p (C.val lo + j) ∧ C.val lo + j < C.max) ∧
        ¬ p (C.val lo + k) := by
  intro k
  induction k with
  | zero =>
      intro lo
      rw [ends_zero_iff, ← Bool.not_eq_true, hp]
      simp
  | succ k ih =>
      intro lo
      have hshift : ∀ j : Nat, C.val lo + 1 + j = C.val lo + (j + 1 : Nat) := by
        intro j
        omega
      rw [ends_succ_iff, hp]
      constructor
      · rintro ⟨hlo, i, hnext, hrest⟩
        obtain ⟨hbefore, hafter⟩ := (ih i).mp hrest
        rw [C.val_next lo i hnext] at hbefore hafter
        refine ⟨?_, by rwa [hshift] at hafter⟩
        intro j hj
        cases j with
        | zero =>
            rw [Int.natCast_zero, Int.add_zero]
            exact ⟨hlo, C.val_lt lo i hnext⟩
        | succ j =>
            rw [← hshift]
            exact hbefore j (Nat.lt_of_succ_lt_succ hj)
      · rintro ⟨hbefore, hafter⟩
        have hlo := hbefore 0 (Nat.succ_pos k)
        rw [Int.natCast_zero, Int.add_zero] at hlo
        obtain ⟨i, hnext⟩ :=
          Option.isSome_iff_exists.mp (C.next_isSome lo hlo.2)
        refine ⟨hlo.1, i, hnext, (ih i).mpr ?_⟩
        rw [C.val_next lo i hnext, hshift]
        refine ⟨?_, hafter⟩
        intro j hj
        rw [hshift]
        exact hbefore (j + 1) (Nat.succ_lt_succ hj)

/-- `for (i = lo; i != hi; ++i)` ends only if `hi` is ahead. -/
theorem ends_ne_iff {hi : Int} (htest : ∀ i, test i = true ↔ C.val i ≠ hi)
    (hmax : hi ≤ C.max) : C.Ends test lo k ↔ C.val lo + k = hi := by
  rw [C.ends_iff (p := (· ≠ hi)) htest]
  constructor
  · rintro ⟨-, hend⟩
    exact not_not.mp hend
  · intro hend
    refine ⟨?_, not_not.mpr hend⟩
    intro j hj
    constructor <;> omega

/-- `for (i = lo; i < hi; ++i)` always ends. -/
theorem ends_lt_iff {hi : Int} (htest : ∀ i, test i = true ↔ C.val i < hi)
    (hmax : hi ≤ C.max) : C.Ends test lo k ↔ k = (hi - C.val lo).toNat := by
  rw [C.ends_iff (p := (· < hi)) htest]
  constructor
  · rintro ⟨hbefore, hend⟩
    have hlast := hbefore (k - 1)
    omega
  · rintro rfl
    refine ⟨?_, by omega⟩
    intro j hj
    constructor <;> omega

/-- The loops that start at `lo`, one for each test, all end, after `total` rounds
in all. -/
def Total (lo : α) : List (α → Bool) → Nat → Prop
  | [], total => total = 0
  | test :: tests, total =>
      ∃ k rest, C.Ends test lo k ∧ Total lo tests rest ∧ k + rest = total

theorem total_singleton {total : Nat} :
    C.Total lo [test] total ↔ C.Ends test lo total := by
  constructor
  · rintro ⟨k, rest, hk, rfl, rfl⟩
    exact hk
  · intro h
    exact ⟨total, 0, h, rfl, rfl⟩

private theorem total_replicate_succ : ∀ n total : Nat,
    C.Total lo (List.replicate (n + 1) test) total ↔
      ∃ k, C.Ends test lo k ∧ (n + 1) * k = total := by
  intro n
  induction n with
  | zero =>
      intro total
      show C.Total lo [test] total ↔ _
      simp [total_singleton]
  | succ n ih =>
      intro total
      constructor
      · rintro ⟨k, rest, hk, hrest, rfl⟩
        obtain ⟨k', hk', rfl⟩ := (ih rest).mp hrest
        obtain rfl := C.ends_unique hk hk'
        exact ⟨k, hk, by rw [Nat.succ_mul (n + 1), Nat.add_comm]⟩
      · rintro ⟨k, hk, rfl⟩
        refine ⟨k, (n + 1) * k, hk, (ih _).mpr ⟨k, hk, rfl⟩, ?_⟩
        rw [Nat.succ_mul (n + 1), Nat.add_comm]

/-- `n` loops with the same test. -/
theorem total_replicate {n total : Nat} (hn : 1 ≤ n) :
    C.Total lo (List.replicate n test) total ↔
      ∃ k, C.Ends test lo k ∧ n * k = total := by
  obtain ⟨n, rfl⟩ := Nat.exists_eq_add_of_le' hn
  exact C.total_replicate_succ n total

end Counter

end ParallelBTree.Verified.Loop
