import ParallelBTree.Ports.Arguments
import ParallelBTree.Ports.KeySources
import ParallelBTree.Ports.Messages
import ParallelBTree.Ports.Shuffles
import ParallelBTree.Ports.Workload

/-!
# `naive.cpp`

The driver that runs in one thread, from its arguments to its exit status, with
every line that it writes.  One generator gives the keys to search for and the
times to sleep, so that the key of a request depends on how many numbers were
drawn before.

`exit(0)` does not destroy `tree4`; by then it holds no node.

## Main results

* `naive_run` — when the driver exits, and what it has written then.
* `random_test` — the random test of `tests.cpp` makes the same calls and passes.
-/

namespace ParallelBTree.Ports.Naive

open ParallelBTree.Verified.Program
open ParallelBTree.Verified.Loop
open ParallelBTree.Ports.NodeMemory
open ParallelBTree.Ports.BTree

/-- What a run of the driver depends on besides its arguments: the two shuffles of
`keys`, the numbers that `distribution(generator)` returns one after the other,
and what memory holds where no key was ever written. -/
structure Setup extends Shuffles where
  draws : Nat → Int
  garbage : Addr → Nat → Int

/-- What `main` works on. -/
structure World where
  tree4 : BTree
  /-- how many numbers were drawn -/
  generator : Nat
  cout : List String

def World.start : World := ⟨.new 4, 0, []⟩

abbrev Main := Prog World Fault

/-- `std::cout << line << std::endl` -/
def write (line : String) : Main Unit :=
  modify fun w => { w with cout := w.cout ++ [line ++ "\n"] }

/-- `distribution(generator)` -/
def draw (d : Setup) : Main Int := do
  let w ← get
  set { w with generator := w.generator + 1 }
  pure (d.draws w.generator)

/-- `sleep_for`: the time is drawn. -/
def sleep (d : Setup) : Main Unit := do
  let _ ← draw d

/-- A call that changes `tree4`.  What the tree writes goes to the same stream. -/
def call (op : Op) : Main Bool := fun w => do
  let (r, tree) ← w.tree4.exec op
  pure (r, { w with
    tree4 := tree
    cout := w.cout ++
      printed (tree.mem.trace.drop w.tree4.mem.trace.length) })

/-- `tree4.exist(key)` -/
def exist (d : Setup) (key : Int) : Main Bool := fun w => do
  let (found, mem) ← BTree.exist (BTreeNode.readWith d.garbage) w.tree4.root key
    w.tree4.mem
  pure (found, { w with tree4 := { w.tree4 with mem := mem } })

/-- The body of the `for_each` that inserts. -/
def add (d : Setup) (key : Int) : Main Unit := do
  write "add"
  let _ ← call (.insert key)
  sleep d

/-- The body of the loop over `task_size`. -/
def request (d : Setup) : Main Unit := do
  let key ← draw d
  write ("Searching for key " ++ toString key ++ "...")
  if ← exist d key then
    write ("Key " ++ toString key ++ " is found!")
  sleep d

/-- The body of the `for_each` that removes. -/
def remove (d : Setup) (key : Int) : Main Unit := do
  let _ ← call (.remove key)
  sleep d

/-- `main` behind the check of its arguments, with the rounds of its loop. -/
def work (d : Setup) (rounds : Nat) : Main Unit := do
  forM d.keys (add d)
  forUp 0 rounds fun _ => request d
  forM d.removals (remove d)

/-- The process ends, with this exit status, and leaves this behind. -/
inductive Exits (d : Setup) (argv : List String) : Nat → World → Prop where
  | refused {line : String} (h : Arguments.task_size argv = .error line) :
      Exits d argv 1 { World.start with cout := [line ++ "\n"] }
  | done {n : Int32} {k : Nat} {w : World} (h : Arguments.task_size argv = .ok n)
      (hloop : int32.Ends (fun i => i != n) 0 k)
      (hrun : work d k .start = .ok ((), w)) : Exits d argv 0 w

/-- The lines of a request. -/
def answer (found : Int → Bool) (key : Int) : List String :=
  ("Searching for key " ++ toString key ++ "..." ++ "\n") ::
    if found key then ["Key " ++ toString key ++ " is found!" ++ "\n"] else []

/-! ## One statement after the other -/

/-- After the calls `ops` and `k` numbers drawn. -/
structure At (ops : List Op) (k : Nat) (out : List String) (w : World) : Prop where
  run : (BTree.new 4).run ops = .ok w.tree4
  generator : w.generator = k
  cout : w.cout = out

section Statements

variable {d : Setup} {ops : List Op} {k : Nat} {out : List String} {w : World}

theorem At.write (h : At ops k out w) (line : String) :
    Returns (write line) w fun _ => At ops k (out ++ [line ++ "\n"]) :=
  ⟨(), _, rfl, h.run, h.generator, congrArg (· ++ [line ++ "\n"]) h.cout⟩

theorem At.draw (h : At ops k out w) :
    Returns (draw d) w fun key w' => key = d.draws k ∧ At ops (k + 1) out w' :=
  ⟨_, _, rfl, by rw [h.generator], h.run, by rw [h.generator], h.cout⟩

theorem At.sleep (h : At ops k out w) :
    Returns (sleep d) w fun _ => At ops (k + 1) out :=
  h.draw.seq fun _ _ hdraw => .pure hdraw.2

theorem At.stores (h : At ops k out w) :
    w.tree4.t = 4 ∧ w.tree4.Stores (ops.foldl sortedStep []) := by
  obtain ⟨b, hrun, ht, hb⟩ := run_stores (by decide : 2 ≤ 4) ops
  obtain rfl := Except.ok.inj (hrun.symm.trans h.run)
  exact ⟨ht, hb⟩

/-- A call adds to the history, and what the tree says to the output. -/
theorem At.call (h : At ops k out w) (op : Op) :
    Returns (call op) w fun _ =>
      At (ops ++ [op]) k (out ++ said (ops.foldl sortedStep []) op) := by
  obtain ⟨ht, hstores⟩ := h.stores
  obtain ⟨r, b, tr, hexec, htrace, hsaid⟩ := hstores.said (by rw [ht]; decide) op
  have hline : printed (b.mem.trace.drop w.tree4.mem.trace.length) =
      said (ops.foldl sortedStep []) op := by
    rw [htrace, List.drop_left, hsaid]
  refine ⟨r, ⟨b, w.generator, out ++ said (ops.foldl sortedStep []) op⟩, ?_,
    run_concat h.run hexec, h.generator, rfl⟩
  rw [← hline, ← h.cout]
  show (w.tree4.exec op >>= _) = _
  rw [hexec]
  rfl

end Statements

/-! ## The three loops -/

/-- What the tree `b` of all keys answers: every key is found, and another one only
if the search ends at a slot that was never written and holds it. -/
structure Answers (d : Setup) (b : BTree) (found : Int → Bool) : Prop where
  exist : ∀ key, BTree.exist (BTreeNode.readWith d.garbage) b.root key b.mem =
    .ok (found key, b.mem)
  keys : ∀ key ∈ d.keys, found key = true
  others : ∀ key, found key = true →
    key ∈ d.keys ∨ b.FindsGarbage d.garbage key

theorem exists_answers (d : Setup) :
    ∃ b found, (BTree.new 4).run d.inserts = .ok b ∧ Answers d b found := by
  obtain ⟨b, L, hrun, -, hb, hperm⟩ := d.inserts_stores (by decide : 2 ≤ 4)
  choose found hexist hfound using fun key =>
    hb.exist (BTreeNode.reads_with d.garbage b.mem) key
  refine ⟨b, found, hrun, hexist, fun key hkey => ?_, fun key hkey => ?_⟩
  · exact (hfound key).mpr (Or.inl (hperm.symm.subset hkey))
  · refine (exist_inserted (by decide) hrun (hkey ▸ hexist key)).imp_left ?_
    intro hmem
    obtain ⟨key', hkey', heq⟩ := List.mem_map.mp hmem
    exact Op.insert.inj heq ▸ hkey'

section Loops

variable {d : Setup} {w : World} {out : List String} {k : Nat} {b : BTree}
  {found : Int → Bool}

theorem At.insertion {pre : List Int} (h : At (pre.map .insert) k out w)
    (key : Int) :
    Returns (Naive.call (.insert key)) w fun _ =>
      At ((pre ++ [key]).map .insert) k out :=
  (h.call (.insert key)).mono fun _ _ h' => by simpa [said] using h'

/-- The answer is that of the tree of all keys. -/
theorem At.exist (h : At d.inserts k out w)
    (hrun : (BTree.new 4).run d.inserts = .ok b) (hA : Answers d b found)
    (key : Int) : exist d key w = .ok (found key, w) := by
  obtain rfl := Except.ok.inj (hrun.symm.trans h.run)
  show (BTree.exist _ _ _ _ >>= _) = _
  rw [hA.exist]
  rfl

/-- Every key that is removed is there, so the tree says nothing. -/
theorem At.removal {pre post : List Int} {key : Int}
    (h : At (d.inserts ++ pre.map Op.remove) k out w)
    (hremovals : d.removals = pre ++ key :: post) :
    Returns (Naive.call (.remove key)) w fun _ =>
      At (d.inserts ++ (pre ++ [key]).map Op.remove) k out := by
  have hleft : ((d.inserts ++ pre.map Op.remove).foldl sortedStep []).Perm
      (key :: post) := by
    rw [List.foldl_append]
    refine Shuffles.remaining pre (key :: post) _ ?_
    rw [← hremovals]
    exact d.inserts_perm.trans d.shuffled.symm
  have hquiet : said ((d.inserts ++ pre.map Op.remove).foldl sortedStep [])
      (.remove key) = [] :=
    if_pos (Or.inr (hleft.symm.subset List.mem_cons_self))
  refine (h.call (.remove key)).mono fun _ w' h' => ?_
  rw [hquiet, List.append_nil] at h'
  simpa using h'

theorem adds : Returns (forM d.keys (add d)) .start fun _ =>
    At d.inserts d.keys.length (List.replicate d.keys.length "add\n") := by
  refine Returns.forEach
    (I := fun pre => At (pre.map .insert) pre.length
      (List.replicate pre.length "add\n")) ⟨rfl, rfl, rfl⟩ ?_
  intro pre key post w hkeys h
  refine (h.write "add").seq fun _ w₁ h₁ => ?_
  refine (h₁.insertion key).seq fun _ w₂ h₂ => ?_
  refine h₂.sleep.mono fun _ w₃ h₃ => ?_
  simpa [List.replicate_succ'] using h₃

/-- One request. -/
theorem At.request (h : At d.inserts k out w)
    (hrun : (BTree.new 4).run d.inserts = .ok b) (hA : Answers d b found) :
    Returns (request d) w fun _ =>
      At d.inserts (k + 2) (out ++ answer found (d.draws k)) := by
  refine h.draw.seq ?_
  rintro _ w₁ ⟨rfl, h₁⟩
  refine (h₁.write _).seq fun _ w₂ h₂ => ?_
  refine Returns.step (h₂.exist hrun hA (d.draws k)) ?_
  unfold answer
  cases found (d.draws k) with
  | false => exact h₂.sleep
  | true =>
      refine (h₂.write _).seq fun _ w₃ h₃ => ?_
      simpa [List.append_assoc] using h₃.sleep

theorem requests (h : At d.inserts k out w)
    (hrun : (BTree.new 4).run d.inserts = .ok b) (hA : Answers d b found)
    (rounds : Nat) :
    Returns (forUp 0 rounds fun _ => request d) w fun _ =>
      At d.inserts (k + 2 * rounds) (out ++ (List.range rounds).flatMap fun i =>
        answer found (d.draws (k + 2 * i))) := by
  refine Returns.forUp
    (I := fun j => At d.inserts (k + 2 * j) (out ++ (List.range j).flatMap fun i =>
      answer found (d.draws (k + 2 * i)))) (by simpa using h) ?_
  intro j w' _ h'
  refine (h'.request hrun hA).mono fun _ w₁ h₁ => ?_
  simpa [List.range_succ, Nat.mul_succ, Nat.add_assoc] using h₁

theorem removes (h : At d.inserts k out w) :
    Returns (forM d.removals (remove d)) w fun _ =>
      At d.history (k + d.removals.length) out := by
  refine Returns.forEach
    (I := fun pre => At (d.inserts ++ pre.map Op.remove) (k + pre.length) out)
    (by simpa using h) ?_
  intro pre key post w' hremovals h'
  refine (h'.removal hremovals).seq fun _ w₁ h₁ => ?_
  refine h₁.sleep.mono fun _ w₂ h₂ => ?_
  simpa [Nat.add_assoc] using h₂

end Loops

/-- What the driver writes when it makes `rounds` requests. -/
def output (d : Setup) (found : Int → Bool) (rounds : Nat) : List String :=
  List.replicate d.keys.length "add\n" ++ (List.range rounds).flatMap fun i =>
    answer found (d.draws (d.keys.length + 2 * i))

theorem work_returns (d : Setup) {b : BTree} {found : Int → Bool}
    (hrun : (BTree.new 4).run d.inserts = .ok b) (hA : Answers d b found)
    (rounds : Nat) :
    Returns (work d rounds) .start fun _ w =>
      (BTree.new 4).run d.history = .ok w.tree4 ∧ w.cout = output d found rounds :=
  adds.seq fun _ _ h₁ => (requests h₁ hrun hA rounds).seq fun _ _ h₂ =>
    (removes h₂).mono fun _ _ h₃ => ⟨h₃.run, h₃.cout⟩

/-- The driver exits unless it is asked for a negative number of requests.  If its
arguments are refused it writes one line.  Otherwise it has written a line for
each key, and one for each request, with a second one if the key was found; every
key that was inserted is found, and another one only where the search for it ends
at a slot that was never written and holds it; and every node that was created is
deleted. -/
theorem naive_run (d : Setup) (argv : List String) :
    ((∃ status w, Exits d argv status w) ↔
      ∀ n, Arguments.task_size argv = .ok n → 0 ≤ n.toInt) ∧
    (∀ line, Arguments.task_size argv = .error line → ∀ status w,
      Exits d argv status w → status = 1 ∧ w.cout = [line ++ "\n"]) ∧
    ∃ b found, (BTree.new 4).run d.inserts = .ok b ∧
      (∀ key ∈ d.keys, found key = true) ∧
      (∀ key, found key = true → key ∈ d.keys ∨ b.FindsGarbage d.garbage key) ∧
      ∀ n, Arguments.task_size argv = .ok n → ∀ status w,
        Exits d argv status w → status = 0 ∧
          w.cout = output d found n.toInt.toNat ∧ w.tree4.root = none ∧
          w.tree4.mem.deleted.Perm (List.range w.tree4.mem.nodes.length) := by
  obtain ⟨b, found, hrun, hA⟩ := exists_answers d
  have hends : ∀ {n : Int32} {k : Nat}, int32.Ends (fun i => i != n) 0 k ↔
      (k : Int) = n.toInt := Workload.Setup.ends_ne_iff
  refine ⟨⟨?_, ?_⟩, ?_, b, found, hrun, hA.keys, hA.others, ?_⟩
  · rintro ⟨_, _, hline | ⟨h, hloop, -⟩⟩ n hn
    · cases hline.symm.trans hn
    · obtain rfl := Except.ok.inj (h.symm.trans hn)
      rw [← hends.mp hloop]
      exact Int.natCast_nonneg _
  · intro hn
    cases harg : Arguments.task_size argv with
    | error line => exact ⟨_, _, .refused harg⟩
    | ok n =>
        obtain ⟨_, w, hwork, -⟩ := work_returns d hrun hA n.toInt.toNat
        exact ⟨0, w, .done harg (hends.mpr (Int.toNat_of_nonneg (hn n harg))) hwork⟩
  · rintro line hline _ _ (h | ⟨h, -, -⟩)
    · obtain rfl := Except.error.inj (h.symm.trans hline)
      exact ⟨rfl, rfl⟩
    · cases h.symm.trans hline
  · intro n hn _ w hexits
    cases hexits with
    | refused h => cases h.symm.trans hn
    | @done n' k _ h hloop hwork =>
        obtain rfl : n' = n := Except.ok.inj (h.symm.trans hn)
        obtain rfl : k = n'.toInt.toNat := by
          have hk := hends.mp hloop
          omega
        obtain ⟨_, w', hwork', hhistory, hout⟩ :=
          work_returns d hrun hA n'.toInt.toNat
        obtain ⟨-, rfl⟩ := Prod.mk.inj (Except.ok.inj (hwork.symm.trans hwork'))
        obtain ⟨b', hrun', hvacant⟩ := d.history_vacant (by decide : 2 ≤ 4)
        obtain rfl := Except.ok.inj (hhistory.symm.trans hrun')
        exact ⟨rfl, hout, hvacant.root, hvacant.accounts⟩

/-! ## The random test -/

/-- `std::iota`, from 0. -/
def iota (n : Nat) : List Int := (List.range n).map Int.ofNat

/-- `TEST(BTree4Test, RandomTest)`; the result is whether all assertions hold. -/
def randomTest (d : Setup) : Main Bool := do
  forM d.keys fun key => do
    let _ ← call (.insert key)
  if !(← exist d 7) then return false
  if !(← exist d 17) then return false
  if !(← exist d 77) then return false
  forM d.removals fun key => do
    let _ ← call (.remove key)
  return !(← call (.remove 7))

/-- The test passes, however the keys are shuffled. -/
theorem random_test (d : Setup) (h : d.keys.Perm (iota 1000)) :
    ∃ w, randomTest d .start = .ok (true, w) := by
  obtain ⟨b, found, hrun, hA⟩ := exists_answers d
  have hfound : ∀ k : Nat, k < 1000 → found k = true := fun k hk =>
    hA.keys k (h.symm.subset (List.mem_map_of_mem (List.mem_range.mpr hk)))
  have hinserted : Returns (forM d.keys fun key => do
      let _ ← call (.insert key)) .start fun _ => At d.inserts 0 [] := by
    refine Returns.forEach (I := fun pre => At (pre.map .insert) 0 [])
      ⟨rfl, rfl, rfl⟩ ?_
    intro pre key post w hkeys h
    exact (h.insertion key).seq fun _ _ h₁ => .pure h₁
  have hremoved : ∀ w, At d.inserts 0 [] w → Returns (forM d.removals fun key => do
      let _ ← call (.remove key)) w fun _ => At d.history 0 [] := by
    intro w h
    refine Returns.forEach
      (I := fun pre => At (d.inserts ++ pre.map Op.remove) 0 []) (by simpa using h) ?_
    intro pre key post w' hremovals h'
    exact (h'.removal hremovals).seq fun _ _ h₁ => .pure h₁
  have hpassed : Returns (randomTest d) .start fun passed _ => passed = true := by
    refine hinserted.seq fun _ w₁ h₁ => ?_
    refine Returns.step (h₁.exist hrun hA 7) ?_
    rw [if_neg (by rw [show found 7 = true from hfound 7 (by decide)]; decide)]
    refine Returns.step (h₁.exist hrun hA 17) ?_
    rw [if_neg (by rw [show found 17 = true from hfound 17 (by decide)]; decide)]
    refine Returns.step (h₁.exist hrun hA 77) ?_
    rw [if_neg (by rw [show found 77 = true from hfound 77 (by decide)]; decide)]
    refine (hremoved w₁ h₁).seq fun _ w₂ h₂ => ?_
    obtain ⟨b', hrun', hvacant⟩ := d.history_vacant (by decide : 2 ≤ 4)
    obtain rfl := Except.ok.inj (h₂.run.symm.trans hrun')
    have hlast : Returns (call (.remove 7)) w₂ fun r _ => r = false := by
      obtain ⟨⟨t, root, m⟩, generator, cout⟩ := w₂
      obtain rfl : root = none := hvacant.root
      exact ⟨false, _, rfl, rfl⟩
    exact hlast.seq fun r _ hr => .pure (by rw [hr]; rfl)
  obtain ⟨_, w, hrun, rfl⟩ := hpassed
  exact ⟨w, hrun⟩

theorem random_test_backwards :
    let d : Setup := ⟨⟨iota 1000, (iota 1000).reverse, List.reverse_perm _⟩,
      fun _ => 0, fun _ _ => 0⟩
    ∃ w, randomTest d .start = .ok (true, w) := by
  intro d
  have hkeys : d.keys.Perm (iota 1000) := by
    dsimp only [d]
    exact List.Perm.refl _
  exact random_test d hkeys

end ParallelBTree.Ports.Naive
