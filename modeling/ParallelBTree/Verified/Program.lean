import Mathlib.Tactic.Common
import Mathlib.Data.List.Induction
import Mathlib.Data.List.TakeWhile

/-!
# Programs over a state that may fault

A program of type `Prog σ ε α` transforms a state `σ` and either returns an `α`
or stops with a fault `ε`.  `Returns m s Q` is total correctness: started in
`s`, the program returns, and the value and the state it returns satisfy `Q`.
A program that faults returns nothing, so a proof of `Returns` is at once a
proof that no fault is reached.

The loops are the four shapes that array code is written in: a counter going
up or down over a range, and a scan going up or down that a test may stop
early.  Each one recurses on the number of rounds left, so it evaluates, and
each one comes with the rule that the proofs about it use.
-/

namespace ParallelBTree.Verified.Program

/-- Programs that read and write a state `σ` and may stop with a fault `ε`. -/
abbrev Prog (σ ε α : Type) := StateT σ (Except ε) α

variable {σ ε α β : Type}

/-- Total correctness: `m` started in `s` returns, with a result in `Q`. -/
def Returns (m : Prog σ ε α) (s : σ) (Q : α → σ → Prop) : Prop :=
  ∃ a s', m s = .ok (a, s') ∧ Q a s'

theorem bind_run_ok {m : Prog σ ε α} {f : α → Prog σ ε β} {s s' : σ} {a : α}
    (h : m s = .ok (a, s')) : (m >>= f) s = f a s' := by
  show (m s >>= fun p => f p.1 p.2) = _
  rw [h]
  rfl

theorem bind_run_error {m : Prog σ ε α} {f : α → Prog σ ε β} {s : σ} {e : ε}
    (h : m s = .error e) : (m >>= f) s = .error e := by
  show (m s >>= fun p => f p.1 p.2) = _
  rw [h]
  rfl

/-- A sequence that returns went through a state between its two programs. -/
theorem bind_ok {m : Prog σ ε α} {f : α → Prog σ ε β} {s s'' : σ} {b : β}
    (h : (m >>= f) s = .ok (b, s'')) :
    ∃ a s', m s = .ok (a, s') ∧ f a s' = .ok (b, s'') := by
  cases hm : m s with
  | error e =>
      rw [bind_run_error hm] at h
      cases h
  | ok r =>
      rw [bind_run_ok hm] at h
      exact ⟨r.1, r.2, rfl, h⟩

@[simp] theorem pure_run (a : α) (s : σ) :
    (pure a : Prog σ ε α) s = .ok (a, s) := rfl

@[simp] theorem get_run (s : σ) : (get : Prog σ ε σ) s = .ok (s, s) := rfl

@[simp] theorem modify_run (f : σ → σ) (s : σ) :
    (modify f : Prog σ ε PUnit) s = .ok (⟨⟩, f s) := rfl

theorem Returns.of_ok {m : Prog σ ε α} {s s' : σ} {a : α} {Q : α → σ → Prop}
    (h : m s = .ok (a, s')) (hQ : Q a s') : Returns m s Q := ⟨a, s', h, hQ⟩

theorem Returns.pure {a : α} {s : σ} {Q : α → σ → Prop} (h : Q a s) :
    Returns (pure a : Prog σ ε α) s Q := ⟨a, s, rfl, h⟩

/-- Sequencing: what the first program returns is what the second starts from. -/
theorem Returns.bind {m : Prog σ ε α} {f : α → Prog σ ε β} {s : σ}
    {Q : β → σ → Prop} (h : Returns m s fun a s' => Returns (f a) s' Q) :
    Returns (m >>= f) s Q := by
  obtain ⟨a, s', hm, b, s'', hf, hQ⟩ := h
  exact ⟨b, s'', (bind_run_ok hm).trans hf, hQ⟩

/-- Sequencing after a first program whose run is known exactly. -/
theorem Returns.step {m : Prog σ ε α} {f : α → Prog σ ε β} {s s' : σ} {a : α}
    {Q : β → σ → Prop} (hm : m s = .ok (a, s')) (h : Returns (f a) s' Q) :
    Returns (m >>= f) s Q := .bind (.of_ok hm h)

/-- Consequence. -/
theorem Returns.mono {m : Prog σ ε α} {s : σ} {P Q : α → σ → Prop}
    (h : Returns m s P) (hPQ : ∀ a s', P a s' → Q a s') : Returns m s Q := by
  obtain ⟨a, s', hm, hP⟩ := h
  exact ⟨a, s', hm, hPQ a s' hP⟩

/-- Sequencing through an intermediate assertion. -/
theorem Returns.seq {m : Prog σ ε α} {f : α → Prog σ ε β} {s : σ}
    {P : α → σ → Prop} {Q : β → σ → Prop} (hm : Returns m s P)
    (hf : ∀ a s', P a s' → Returns (f a) s' Q) : Returns (m >>= f) s Q :=
  .bind (hm.mono hf)

/-! ## Counting loops -/

/-- `for (j = lo; count > 0; j++, count--) body(j)`. -/
def upFrom (body : Nat → Prog σ ε Unit) : Nat → Nat → Prog σ ε Unit
  | _, 0 => pure ()
  | lo, count + 1 => do
      body lo
      upFrom body (lo + 1) count

/-- `for (j = lo; j < hi; j++) body(j)`. -/
def forUp (lo hi : Nat) (body : Nat → Prog σ ε Unit) : Prog σ ε Unit :=
  upFrom body lo (hi - lo)

/-- `for (j = lo + count - 1; j >= lo; j--) body(j)`. -/
def downFrom (body : Nat → Prog σ ε Unit) (lo : Nat) : Nat → Prog σ ε Unit
  | 0 => pure ()
  | count + 1 => do
      body (lo + count)
      downFrom body lo count

/-- `for (j = hi - 1; j >= lo; j--) body(j)`. -/
def forDown (hi lo : Nat) (body : Nat → Prog σ ε Unit) : Prog σ ε Unit :=
  downFrom body lo (hi - lo)

/-- `for (j = lo; count > 0; j++, count--) acc = body(j, acc)`. -/
def foldFrom (body : Nat → α → Prog σ ε α) : Nat → Nat → α → Prog σ ε α
  | _, 0, acc => pure acc
  | lo, count + 1, acc => do
      let acc ← body lo acc
      foldFrom body (lo + 1) count acc

/-- `for (j = 0; j < hi; j++) acc = body(j, acc)`. -/
def foldUp (hi : Nat) (init : α) (body : Nat → α → Prog σ ε α) : Prog σ ε α :=
  foldFrom body 0 hi init

/-- The values of `body(lo)`, `body(lo + 1)`, … in a list. -/
def listFrom (body : Nat → Prog σ ε α) : Nat → Nat → Prog σ ε (List α)
  | _, 0 => pure []
  | lo, count + 1 => do
      let x ← body lo
      let xs ← listFrom body (lo + 1) count
      pure (x :: xs)

/-- The values of `body(0)`, …, `body(hi - 1)`. -/
def listUp (hi : Nat) (body : Nat → Prog σ ε α) : Prog σ ε (List α) :=
  listFrom body 0 hi

/-- `if (b) m`. -/
def onlyIf (b : Bool) (m : Prog σ ε Unit) : Prog σ ε Unit :=
  if b then m else pure ()

private theorem listFrom_run {body : Nat → Prog σ ε α} {s : σ} :
    ∀ (xs : List α) (lo : Nat),
      (∀ j x, xs[j]? = some x → body (lo + j) s = .ok (x, s)) →
      listFrom body lo xs.length s = .ok (xs, s) := by
  intro xs
  induction xs with
  | nil => intro lo _; rfl
  | cons x xs ih =>
      intro lo h
      have hx : body lo s = .ok (x, s) := h 0 x rfl
      have hxs := ih (lo + 1) fun j y hy => by
        have := h (j + 1) y hy
        rwa [← Nat.add_assoc, Nat.add_right_comm] at this
      rw [List.length_cons, listFrom, bind_run_ok hx, bind_run_ok hxs]
      rfl

/-- A loop that changes nothing lists what it reads. -/
theorem listUp_run {body : Nat → Prog σ ε α} {s : σ} {hi : Nat} (xs : List α)
    (hlen : xs.length = hi)
    (h : ∀ j x, xs[j]? = some x → body j s = .ok (x, s)) :
    listUp hi body s = .ok (xs, s) := by
  subst hlen
  exact listFrom_run xs 0 fun j x hx => by
    rw [Nat.zero_add]
    exact h j x hx

private theorem foldFrom_run {body : Nat → α → Prog σ ε α} {s : σ}
    (f : α → β → α) :
    ∀ (xs : List β) (lo : Nat) (acc : α),
      (∀ j x acc, xs[j]? = some x → body (lo + j) acc s = .ok (f acc x, s)) →
      foldFrom body lo xs.length acc s = .ok (xs.foldl f acc, s) := by
  intro xs
  induction xs with
  | nil => intro lo acc _; rfl
  | cons x xs ih =>
      intro lo acc h
      have hx : body lo acc s = .ok (f acc x, s) := h 0 x acc rfl
      have hxs := ih (lo + 1) (f acc x) fun j y acc hy => by
        have := h (j + 1) y acc hy
        rwa [← Nat.add_assoc, Nat.add_right_comm] at this
      rw [List.length_cons, foldFrom, bind_run_ok hx, hxs]
      rfl

/-- A loop that changes nothing but its accumulator folds what it reads. -/
theorem foldUp_run {body : Nat → α → Prog σ ε α} {s : σ} {hi : Nat}
    (f : α → β → α) (xs : List β) (hlen : xs.length = hi)
    (h : ∀ j x acc, xs[j]? = some x → body j acc s = .ok (f acc x, s))
    (acc : α) : foldUp hi acc body s = .ok (xs.foldl f acc, s) := by
  subst hlen
  exact foldFrom_run f xs 0 acc fun j x acc hx => by
    rw [Nat.zero_add]
    exact h j x acc hx

theorem onlyIf_pos {b : Bool} {m : Prog σ ε Unit} (h : b = true) :
    onlyIf b m = m := by
  rw [onlyIf, if_pos h]

theorem onlyIf_neg {b : Bool} {m : Prog σ ε Unit} (h : b = false) :
    onlyIf b m = pure () := by
  rw [onlyIf, if_neg (by simp [h])]

/-- A counting loop, by an invariant of the rounds made. -/
theorem Returns.forUp {body : Nat → Prog σ ε Unit} {I : Nat → σ → Prop} {s : σ}
    {hi : Nat} (h0 : I 0 s)
    (hstep : ∀ j s, j < hi → I j s → Returns (body j) s fun _ s' => I (j + 1) s') :
    Returns (forUp 0 hi body) s fun _ s' => I hi s' := by
  have hgo : ∀ count lo s, lo + count = hi → I lo s →
      Returns (upFrom body lo count) s fun _ s' => I hi s' := by
    intro count
    induction count with
    | zero =>
        intro lo s hlo hI
        obtain rfl : lo = hi := hlo
        exact .pure hI
    | succ count ih =>
        intro lo s hlo hI
        exact (hstep lo s (by omega) hI).seq fun _ s' hI' =>
          ih (lo + 1) s' (by omega) hI'
  exact hgo hi 0 s (Nat.zero_add hi) h0

/-- `for_each`, by an invariant of the elements gone through. -/
theorem Returns.forEach {f : α → Prog σ ε PUnit} {I : List α → σ → Prop} {s : σ}
    {xs : List α} (h0 : I [] s)
    (hstep : ∀ pre x post s, xs = pre ++ x :: post → I pre s →
      Returns (f x) s fun _ s' => I (pre ++ [x]) s') :
    Returns (forM xs f) s fun _ s' => I xs s' := by
  have hgo : ∀ post pre s, xs = pre ++ post → I pre s →
      Returns (forM post f) s fun _ s' => I xs s' := by
    intro post
    induction post with
    | nil =>
        rintro pre s rfl hI
        rw [List.append_nil]
        exact .pure hI
    | cons x post ih =>
        intro pre s hxs hI
        rw [List.forM_cons]
        exact (hstep pre x post s hxs hI).seq fun _ s' hI' =>
          ih (pre ++ [x]) s' (by rw [hxs, List.append_assoc]; rfl) hI'
  exact hgo xs [] s rfl h0

/-! ## Scanning loops -/

/-- `while (i < lo + count && test(i)) i++;` from `i = lo`; the last `i`. -/
def scanUpFrom (test : Nat → Prog σ ε Bool) : Nat → Nat → Prog σ ε Nat
  | lo, 0 => pure lo
  | lo, count + 1 => do
      if ← test lo then scanUpFrom test (lo + 1) count else pure lo

/-- `i = 0; while (i < hi && test(i)) i++;` and then the value of `i`. -/
def scanUp (hi : Nat) (test : Nat → Prog σ ε Bool) : Prog σ ε Nat :=
  scanUpFrom test 0 hi

/-- `i = n - 1; while (i >= 0 && test(i)) { body(i); i--; }` and then the
value of `i + 1`, which unlike `i` is never negative. -/
def scanDown (test : Nat → Prog σ ε Bool) (body : Nat → Prog σ ε Unit) :
    Nat → Prog σ ε Nat
  | 0 => pure 0
  | i + 1 => do
      if ← test i then
        body i
        scanDown test body i
      else pure (i + 1)

/-- A scan upwards over a list stops behind its longest prefix on which the
test holds. -/
theorem scanUpFrom_run {test : Nat → Prog σ ε Bool} {s : σ} (q : α → Bool) :
    ∀ (xs : List α) (lo : Nat),
      (∀ j (hj : j < xs.length), test (lo + j) s = .ok (q xs[j], s)) →
      scanUpFrom test lo xs.length s = .ok (lo + (xs.takeWhile q).length, s) := by
  intro xs
  induction xs with
  | nil => intro lo _; rfl
  | cons x xs ih =>
      intro lo h
      have h0 : test lo s = .ok (q x, s) := h 0 (by simp)
      have hrest := ih (lo + 1) fun j hj => by
        have := h (j + 1) (by simpa using hj)
        rwa [← Nat.add_assoc, Nat.add_right_comm] at this
      rw [List.length_cons, scanUpFrom, bind_run_ok h0]
      cases hq : q x with
      | true =>
          rw [if_pos rfl, hrest, List.takeWhile_cons_of_pos hq, List.length_cons]
          congr 2
          omega
      | false => simp [hq]

theorem scanUp_run {test : Nat → Prog σ ε Bool} {s : σ} (q : α → Bool)
    (xs : List α)
    (h : ∀ j (hj : j < xs.length), test j s = .ok (q xs[j], s)) :
    scanUp xs.length test s = .ok ((xs.takeWhile q).length, s) := by
  have hscan : scanUpFrom test 0 xs.length s =
      .ok (0 + (xs.takeWhile q).length, s) :=
    scanUpFrom_run q xs 0 (by simpa using h)
  simpa [scanUp] using hscan

/-- A scan downwards that changes nothing passes the values `Y`, on which the
test holds, and stops behind the value before them. -/
theorem scanDown_run {test : Nat → Prog σ ε Bool} {s : σ} (q : α → Bool)
    (X : List α) (hX : ∀ x ∈ X.getLast?, q x = false) :
    ∀ Y : List α, (∀ y ∈ Y, q y = true) →
      (∀ j x, (X ++ Y)[j]? = some x → test j s = .ok (q x, s)) →
      scanDown test (fun _ => pure ()) (X.length + Y.length) s =
        .ok (X.length, s) := by
  intro Y
  induction Y using List.reverseRecOn with
  | nil =>
      intro _ htest
      cases X using List.reverseRecOn with
      | nil => rfl
      | append_singleton X x =>
          have hfalse : test X.length s = .ok (false, s) := by
            rw [htest X.length x (by simp), hX x (by simp)]
          rw [List.length_nil, Nat.add_zero, List.length_append,
            List.length_singleton, scanDown, bind_run_ok hfalse]
          rfl
  | append_singleton Y y ih =>
      intro hY htest
      have htrue : test (X.length + Y.length) s = .ok (true, s) := by
        have hy : (X ++ (Y ++ [y]))[X.length + Y.length]? = some y := by simp
        rw [htest _ y hy, hY y (by simp)]
      have hrest := ih (fun z hz => hY z (by simp [hz])) fun j x hj =>
        htest j x (by
          have hlt : j < (X ++ Y).length := (List.getElem?_eq_some_iff.mp hj).1
          rw [← List.append_assoc, List.getElem?_append_left hlt]
          exact hj)
      rw [List.length_append, List.length_singleton, ← Nat.add_assoc, scanDown,
        bind_run_ok htrue, if_pos rfl, bind_run_ok (pure_run () s)]
      exact hrest

end ParallelBTree.Verified.Program
