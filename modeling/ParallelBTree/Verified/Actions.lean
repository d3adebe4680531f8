import ParallelBTree.Verified.Program

/-!
# Threads, and what the others see of them

A `Thread` is a program cut into actions: other threads run between any two of
them, and see the states in between.  `run` puts the actions together again, so
that what is known of the program as a whole carries over.

`Guarantees G t s g Q` says what the others may rely on: every action that `t`
makes from `s` on, as long as nobody else writes, relates the states before and
after it by `G`, and the last one is in `Q`.  `g` is a ghost value that goes with
the state; it may be chosen anew with each action.  An action that faults
guarantees nothing, and that none does is a matter of `run`.
-/

namespace ParallelBTree.Verified.Actions

open ParallelBTree.Verified.Program

/-- A program cut into actions. -/
inductive Thread (σ ε α : Type) : Type 1 where
  | done (a : α)
  | act {β : Type} (f : Prog σ ε β) (k : β → Thread σ ε α)

namespace Thread

variable {σ ε α β : Type}

/-- Sequencing. -/
def bind : Thread σ ε α → (α → Thread σ ε β) → Thread σ ε β
  | .done a, t => t a
  | .act f k, t => .act f fun b => (k b).bind t

instance : Monad (Thread σ ε) where
  pure := .done
  bind := .bind

private theorem map_id (t : Thread σ ε α) : id <$> t = t := by
  induction t with
  | done a => rfl
  | act f k ih => exact congrArg (Thread.act f) (funext ih)

private theorem assoc {δ : Type} (t : Thread σ ε α) (u : α → Thread σ ε β)
    (v : β → Thread σ ε δ) : t >>= u >>= v = t >>= fun a => u a >>= v := by
  induction t with
  | done a => rfl
  | act f k ih => exact congrArg (Thread.act f) (funext ih)

instance : LawfulMonad (Thread σ ε) :=
  LawfulMonad.mk' _ map_id (fun _ _ => rfl) assoc

/-- All actions, one after the other. -/
def run : Thread σ ε α → Prog σ ε α
  | .done a => pure a
  | .act f k => f >>= fun b => (k b).run

/-- One action. -/
def atom (f : Prog σ ε α) : Thread σ ε α := .act f .done

@[simp] theorem run_pure (a : α) :
    (pure a : Thread σ ε α).run = pure a := rfl

@[simp] theorem run_atom (f : Prog σ ε α) : (atom f).run = f := bind_pure f

@[simp] theorem run_bind (t : Thread σ ε α) (u : α → Thread σ ε β) :
    (t >>= u).run = t.run >>= fun a => (u a).run := by
  induction t with
  | done a => exact (pure_bind a fun a => (u a).run).symm
  | act f k ih =>
      show (f >>= fun b => (k b >>= u).run) = (f >>= fun b => (k b).run) >>= _
      simp only [ih, bind_assoc]

@[simp] theorem run_ite {c : Prop} [Decidable c] (t u : Thread σ ε α) :
    (if c then t else u).run = if c then t.run else u.run := by
  split <;> rfl

/-- The actions made from a state on, up to the end or to a fault. -/
def length : Thread σ ε α → σ → Nat
  | .done _, _ => 0
  | .act f k, s =>
      match f s with
      | .ok (b, s') => (k b).length s' + 1
      | .error _ => 0

/-! ## Loops -/

/-- `upFrom` of a body with several actions. -/
def upFrom (body : Nat → Thread σ ε Unit) : Nat → Nat → Thread σ ε Unit
  | _, 0 => pure ()
  | lo, count + 1 => do
      body lo
      upFrom body (lo + 1) count

/-- `for (j = lo; j < hi; j++) body(j)`. -/
def forUp (lo hi : Nat) (body : Nat → Thread σ ε Unit) : Thread σ ε Unit :=
  upFrom body lo (hi - lo)

/-- `downFrom` of a body with several actions. -/
def downFrom (body : Nat → Thread σ ε Unit) (lo : Nat) : Nat → Thread σ ε Unit
  | 0 => pure ()
  | count + 1 => do
      body (lo + count)
      downFrom body lo count

/-- `for (j = hi - 1; j >= lo; j--) body(j)`. -/
def forDown (hi lo : Nat) (body : Nat → Thread σ ε Unit) : Thread σ ε Unit :=
  downFrom body lo (hi - lo)

/-- `if (b) t`. -/
def onlyIf (b : Bool) (t : Thread σ ε Unit) : Thread σ ε Unit :=
  if b then t else pure ()

/-- `i = n - 1; while (i >= 0 && test(i)) { body(i); i--; }` and then the value of
`i + 1`. -/
def scanDown (test : Nat → Thread σ ε Bool) (body : Nat → Thread σ ε Unit) :
    Nat → Thread σ ε Nat
  | 0 => pure 0
  | i + 1 => do
      if ← test i then
        body i
        scanDown test body i
      else pure (i + 1)

@[simp] theorem run_forUp (lo hi : Nat) (body : Nat → Thread σ ε Unit) :
    (forUp lo hi body).run = Program.forUp lo hi fun j => (body j).run := by
  unfold forUp Program.forUp
  generalize hi - lo = count
  induction count generalizing lo with
  | zero => rfl
  | succ count ih => simp only [upFrom, Program.upFrom, run_bind, ih]

@[simp] theorem run_forDown (hi lo : Nat) (body : Nat → Thread σ ε Unit) :
    (forDown hi lo body).run = Program.forDown hi lo fun j => (body j).run := by
  unfold forDown Program.forDown
  generalize hi - lo = count
  induction count with
  | zero => rfl
  | succ count ih => simp only [downFrom, Program.downFrom, run_bind, ih]

@[simp] theorem run_onlyIf (b : Bool) (t : Thread σ ε Unit) :
    (onlyIf b t).run = Program.onlyIf b t.run := by
  cases b <;> rfl

@[simp] theorem run_scanDown (test : Nat → Thread σ ε Bool)
    (body : Nat → Thread σ ε Unit) (n : Nat) :
    (scanDown test body n).run =
      Program.scanDown (fun i => (test i).run) (fun i => (body i).run) n := by
  induction n with
  | zero => rfl
  | succ n ih => simp only [scanDown, Program.scanDown, run_bind, run_ite, ih,
      run_pure]

end Thread

/-! ## What a thread guarantees -/

section Guarantee

variable {σ ε α β γ : Type} {G : σ → γ → σ → γ → Prop} {s : σ} {g : γ}
  {Q R : α → σ → γ → Prop}

/-- Every action keeps to `G`, and the end is in `Q`. -/
def Guarantees (G : σ → γ → σ → γ → Prop) :
    Thread σ ε α → σ → γ → (α → σ → γ → Prop) → Prop
  | .done a, s, g, Q => Q a s g
  | .act f k, s, g, Q => ∀ b s', f s = .ok (b, s') →
      ∃ g', G s g s' g' ∧ Guarantees G (k b) s' g' Q

theorem Guarantees.mono {t : Thread σ ε α} (h : Guarantees G t s g Q)
    (hQ : ∀ a s' g', Q a s' g' → R a s' g') : Guarantees G t s g R := by
  induction t generalizing s g with
  | done a => exact hQ a s g h
  | act f k ih =>
      intro b s' hrun
      obtain ⟨g', hG, hrest⟩ := h b s' hrun
      exact ⟨g', hG, ih b hrest⟩

theorem Guarantees.bind {t : Thread σ ε α} {u : α → Thread σ ε β}
    {P : β → σ → γ → Prop}
    (h : Guarantees G t s g fun a s' g' => Guarantees G (u a) s' g' P) :
    Guarantees G (t >>= u) s g P := by
  induction t generalizing s g with
  | done a => exact h
  | act f k ih =>
      intro b s' hrun
      obtain ⟨g', hG, hrest⟩ := h b s' hrun
      exact ⟨g', hG, ih b hrest⟩

/-- What every action keeps to, all of them together keep to. -/
theorem Guarantees.overall {t : Thread σ ε α}
    (htrans : ∀ {s g s' g' s'' g''}, G s g s' g' → G s' g' s'' g'' →
      G s g s'' g'') (hrefl : G s g s g) (h : Guarantees G t s g Q) :
    Guarantees G t s g fun a s' g' => G s g s' g' ∧ Q a s' g' := by
  suffices hfrom : ∀ s₀ g₀, G s₀ g₀ s g →
      Guarantees G t s g fun a s' g' => G s₀ g₀ s' g' ∧ Q a s' g' from
    hfrom s g hrefl
  clear hrefl
  induction t generalizing s g with
  | done a => exact fun _ _ hG => ⟨hG, h⟩
  | act f k ih =>
      intro s₀ g₀ hG b s' hrun
      obtain ⟨g', hstep, hrest⟩ := h b s' hrun
      exact ⟨g', hstep, ih b hrest s₀ g₀ (htrans hG hstep)⟩

/-- Whoever promises nothing keeps it. -/
theorem Guarantees.of_all (hG : ∀ s g s' g', G s g s' g') (t : Thread σ ε α) :
    Guarantees G t s g fun _ _ _ => True := by
  induction t generalizing s g with
  | done a => trivial
  | act f k ih => exact fun b s' _ => ⟨g, hG _ _ _ _, ih b⟩

theorem Guarantees.pure {a : α} (h : Q a s g) :
    Guarantees G (pure a : Thread σ ε α) s g Q := h

theorem Guarantees.atom {f : Prog σ ε α}
    (h : ∀ a s', f s = .ok (a, s') → ∃ g', G s g s' g' ∧ Q a s' g') :
    Guarantees G (Thread.atom f) s g Q := h

/-- The ghost value may be chosen anew before an action as well. -/
theorem Guarantees.reghost {f : Prog σ ε α} {g' : γ}
    (htrans : ∀ {s g s' g' s'' g''}, G s g s' g' → G s' g' s'' g'' →
      G s g s'' g'') (hG : G s g s g')
    (h : Guarantees G (Thread.atom f) s g' Q) :
    Guarantees G (Thread.atom f) s g Q := by
  intro a s' hrun
  obtain ⟨g'', hstep, hQ⟩ := h a s' hrun
  exact ⟨g'', htrans hG hstep, hQ⟩

theorem Guarantees.onlyIf {b : Bool} {t : Thread σ ε Unit}
    {P : Unit → σ → γ → Prop} (ht : b = true → Guarantees G t s g P)
    (hskip : b = false → P () s g) : Guarantees G (Thread.onlyIf b t) s g P := by
  cases b with
  | true => exact ht rfl
  | false => exact hskip rfl

private theorem Guarantees.upFrom {body : Nat → Thread σ ε Unit}
    {I : Nat → σ → γ → Prop} : ∀ (count lo : Nat) {s : σ} {g : γ},
    (∀ j s g, lo ≤ j → j < lo + count → I j s g →
      Guarantees G (body j) s g fun _ s' g' => I (j + 1) s' g') →
    I lo s g → Guarantees G (Thread.upFrom body lo count) s g
      fun _ s' g' => I (lo + count) s' g' := by
  intro count
  induction count with
  | zero => exact fun _ _ _ _ h => h
  | succ count ih =>
      intro lo s g hbody h
      refine ((hbody lo s g (Nat.le_refl lo) (by omega) h).mono ?_).bind
      intro _ s' g' hI
      rw [Nat.add_comm count, ← Nat.add_assoc]
      exact ih (lo + 1)
        (fun j s g hlo hhi => hbody j s g (by omega) (by omega)) hI

/-- A loop upwards, with what holds before each round. -/
theorem Guarantees.forUp {lo hi : Nat} {body : Nat → Thread σ ε Unit}
    {I : Nat → σ → γ → Prop} (hle : lo ≤ hi)
    (hbody : ∀ j s g, lo ≤ j → j < hi → I j s g →
      Guarantees G (body j) s g fun _ s' g' => I (j + 1) s' g')
    (h : I lo s g) :
    Guarantees G (Thread.forUp lo hi body) s g fun _ s' g' => I hi s' g' := by
  obtain ⟨count, rfl⟩ := Nat.exists_eq_add_of_le hle
  unfold Thread.forUp
  rw [Nat.add_sub_cancel_left]
  exact Guarantees.upFrom count lo hbody h

/-- A loop downwards, with what holds before each round. -/
theorem Guarantees.forDown {lo hi : Nat} {body : Nat → Thread σ ε Unit}
    {I : Nat → σ → γ → Prop} (hle : lo ≤ hi)
    (hbody : ∀ j s g, lo ≤ j → j < hi → I (j + 1) s g →
      Guarantees G (body j) s g fun _ s' g' => I j s' g')
    (h : I hi s g) :
    Guarantees G (Thread.forDown hi lo body) s g fun _ s' g' => I lo s' g' := by
  obtain ⟨count, rfl⟩ := Nat.exists_eq_add_of_le hle
  unfold Thread.forDown
  rw [Nat.add_sub_cancel_left]
  clear hle
  induction count generalizing s g with
  | zero => exact h
  | succ count ih =>
      refine ((hbody (lo + count) s g (by omega) (by omega) h).mono ?_).bind
      intro _ s' g' hI
      exact ih (fun j s g hlo hhi => hbody j s g hlo (by omega)) hI

/-- A scan downwards; where it stops is not said. -/
theorem Guarantees.scanDown {test : Nat → Thread σ ε Bool}
    {body : Nat → Thread σ ε Unit} {I : σ → γ → Prop} {n : Nat}
    (htest : ∀ i s g, i < n → I s g →
      Guarantees G (test i) s g fun _ s' g' => I s' g')
    (hbody : ∀ i s g, i < n → I s g →
      Guarantees G (body i) s g fun _ s' g' => I s' g')
    (h : I s g) :
    Guarantees G (Thread.scanDown test body n) s g
      fun pos s' g' => pos ≤ n ∧ I s' g' := by
  induction n generalizing s g with
  | zero => exact ⟨Nat.le_refl 0, h⟩
  | succ n ih =>
      refine ((htest n s g (Nat.lt_succ_self n) h).mono ?_).bind
      intro b s' g' hI
      cases b with
      | false => exact ⟨Nat.le_refl _, hI⟩
      | true =>
          refine ((hbody n s' g' (Nat.lt_succ_self n) hI).mono ?_).bind
          intro _ s'' g'' hI'
          refine (ih (fun i s g hi => htest i s g (by omega))
            (fun i s g hi => hbody i s g (by omega)) hI').mono ?_
          exact fun pos s₃ g₃ hpos => ⟨Nat.le_succ_of_le hpos.1, hpos.2⟩

end Guarantee

end ParallelBTree.Verified.Actions
