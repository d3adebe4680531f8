import ParallelBTree.Ports.SearchAccess
import ParallelBTree.Ports.Shuffles
import ParallelBTree.Verified.Interleaving
import ParallelBTree.Verified.Progress

/-!
# `openmp.cpp`

The parallel region as a step relation on the states of the threads of its team.
The master inserts while the other threads search, and nothing keeps them apart:
a step of an insertion is one write, and a step of a search is one read, in the
order of the source.  How the machine may reorder them is left out.

Each thread but the master stores the shared variable `nthreads`, reads it, and
makes the rounds of a loop whose own team has `nested` threads.  Which of them
makes a round is not determined; as many rounds are in progress at a time as
there are threads.  Nor is it determined which key a round draws: it is any number,
so that a schedule is a choice of the keys as well.  Both regions end with a
barrier, and `main` removes the keys behind the outer one, with nobody else
running: a removal is one step.

## Main results

* `team_protocol` — no removal overlaps a search, no search reads what is not
  there, and the race for `nthreads` does no harm.
* `region_ends` — `main` returns under every schedule, with all searches made.
-/

namespace ParallelBTree.Ports.Openmp

open Relation
open ParallelBTree.Verified.Actions
open ParallelBTree.Verified.Interleaving
open ParallelBTree.Verified.Program
open ParallelBTree.Verified.Progress
open ParallelBTree.Ports.NodeMemory
open ParallelBTree.Ports.BTree
open ParallelBTree.Ports.InsertActions

/-- What a run of the driver depends on besides the schedule: the two shuffles of
`keys`, the sizes of the outer and of the inner teams, the argument, and what
memory holds where no key was ever written. -/
structure Setup extends Shuffles where
  /-- `std::iota` -/
  distinct : keys.Nodup
  omp_get_num_threads : Nat
  team : 1 ≤ omp_get_num_threads
  nested : Nat
  inner : 1 ≤ nested
  task_size : Int
  garbage : Addr → Nat → Int

/-- Where the master is. -/
inductive Main where
  /-- in the `for_each` that inserts -/
  | insert (i : Nat)
  /-- in the call for `keys[i]`, with the rest of it -/
  | inserting (i : Nat) (rest : Thread BTree Fault Bool)
  /-- at the end of the region -/
  | barrier
  /-- in the `for_each` that removes -/
  | remove (i : Nat)
  | returned

/-- A round of the loop; `seen` is a ghost, the keys whose insertions had returned
when `exist` was called. -/
inductive Round where
  /-- before the call -/
  | waiting
  | searching (key : Int) (pl : Search.Place) (seen : List Int)
  | answered (key : Int) (found : Bool) (seen : List Int)

def Round.isSearching : Round → Bool
  | .searching _ _ _ => true
  | _ => false

def Round.isAnswered : Round → Bool
  | .answered _ _ _ => true
  | _ => false

/-- Where another thread of the team is. -/
inductive Worker where
  /-- before `nthreads = omp_get_num_threads() - 1` -/
  | begun
  /-- before `nthreads < 1` -/
  | counted
  /-- before `nthreads = 1` -/
  | raising
  /-- before the loop -/
  | ready
  /-- in the loop, with the rounds it has -/
  | looping (rounds : List Round)
  /-- at the end of the region -/
  | finished (rounds : List Round)

/-- The rounds of the thread's loop, as soon as they are known. -/
def Worker.rounds : Worker → List Round
  | .looping rounds | .finished rounds => rounds
  | _ => []

structure State where
  tree4 : BTree
  /-- `none` as long as nobody has stored it -/
  nthreads : Option Int
  main : Main
  /-- the threads of the team other than the master -/
  workers : List Worker

def Setup.init (d : Setup) : State where
  tree4 := .new 4
  nthreads := none
  main := .insert 0
  workers := List.replicate (d.omp_get_num_threads - 1) .begun

/-- The insertions that have returned. -/
def Main.calls (d : Setup) : Main → Nat
  | .insert i | .inserting i _ => i
  | _ => d.keys.length

/-- Their keys. -/
def Main.seen (d : Setup) (m : Main) : List Int := d.keys.take (m.calls d)

inductive RoundStep (d : Setup) (tree : BTree) (seen : List Int) :
    Round → Round → Prop where
  /-- `distribution(generator)` -/
  | call (key : Int) :
      RoundStep d tree seen .waiting (.searching key .entering seen)
  | move {key : Int} {pl pl' : Search.Place} {seen₀ : List Int}
      (h : Search.access d.garbage tree key pl = some (.inr pl')) :
      RoundStep d tree seen (.searching key pl seen₀) (.searching key pl' seen₀)
  | answer {key : Int} {pl : Search.Place} {found : Bool} {seen₀ : List Int}
      (h : Search.access d.garbage tree key pl = some (.inl found)) :
      RoundStep d tree seen (.searching key pl seen₀) (.answered key found seen₀)

/-- One step of a thread that is not the master. -/
inductive WorkerStep (d : Setup) (tree : BTree) (seen : List Int) :
    Option Int × Worker → Option Int × Worker → Prop where
  | count {n} : WorkerStep d tree seen (n, .begun)
      (some ((d.omp_get_num_threads : Int) - 1), .counted)
  | few {n} (hn : n < 1) :
      WorkerStep d tree seen (some n, .counted) (some n, .raising)
  | enough {n} (hn : ¬ n < 1) :
      WorkerStep d tree seen (some n, .counted) (some n, .ready)
  | raise {n} : WorkerStep d tree seen (n, .raising) (some 1, .ready)
  | enter {n} : WorkerStep d tree seen (some n, .ready)
      (some n, .looping (List.replicate (d.task_size.tdiv n).toNat .waiting))
  /-- A round is begun when one of the threads has none. -/
  | search {n A B c c'}
      (hfree : c.isSearching = true ∨
        (A ++ c :: B).countP Round.isSearching < d.nested)
      (hstep : RoundStep d tree seen c c') :
      WorkerStep d tree seen (n, .looping (A ++ c :: B))
        (n, .looping (A ++ c' :: B))
  | finish {n rounds} (hall : ∀ c ∈ rounds, Round.isAnswered c = true) :
      WorkerStep d tree seen (n, .looping rounds) (n, .finished rounds)

inductive Step (d : Setup) : State → State → Prop where
  | call {s : State} {i : Nat} {key : Int} (hm : s.main = .insert i)
      (hkey : d.keys[i]? = some key) :
      Step d s { s with main := .inserting i (insert s.tree4.t key) }
  | act {s : State} {i : Nat} {β : Type} {f : Prog BTree Fault β}
      {k : β → Thread BTree Fault Bool} {b : β} {tree : BTree}
      (hm : s.main = .inserting i (.act f k)) (hrun : f s.tree4 = .ok (b, tree)) :
      Step d s { s with tree4 := tree, main := .inserting i (k b) }
  | ended {s : State} {i : Nat} {r : Bool} (hm : s.main = .inserting i (.done r)) :
      Step d s { s with main := .insert (i + 1) }
  | inserted {s : State} (hm : s.main = .insert d.keys.length) :
      Step d s { s with main := .barrier }
  | joined {s : State} (hm : s.main = .barrier)
      (hall : ∀ w ∈ s.workers, ∃ rounds, w = .finished rounds) :
      Step d s { s with main := .remove 0 }
  | remove {s : State} {i : Nat} {key : Int} {r : Bool} {tree : BTree}
      (hm : s.main = .remove i) (hkey : d.removals[i]? = some key)
      (hexec : s.tree4.exec (.remove key) = .ok (r, tree)) :
      Step d s { s with tree4 := tree, main := .remove (i + 1) }
  | removed {s : State} (hm : s.main = .remove d.removals.length) :
      Step d s { s with main := .returned }
  | work {s : State} {A B : List Worker} {w w' : Worker} {n : Option Int}
      (hw : s.workers = A ++ w :: B)
      (hstep : WorkerStep d s.tree4 (s.main.seen d) (s.nthreads, w) (n, w')) :
      Step d s { s with nthreads := n, workers := A ++ w' :: B }

/-- The states that some interleaving leads to. -/
def Setup.Reachable (d : Setup) (s : State) : Prop :=
  ReflTransGen (Step d) d.init s

/-- The round `j` of the thread `a`, as soon as the thread is in its loop. -/
def State.round (s : State) (a j : Nat) : Option Round :=
  (s.workers[a]?).bind fun w => w.rounds[j]?

/-- The round had its answer from a slot that was not written when it was read. -/
def State.Misled (d : Setup) (s : State) (a j : Nat) (key : Int)
    (seen : List Int) : Prop :=
  ∃ s₀ s₁ pl, d.Reachable s₀ ∧ Step d s₀ s₁ ∧ ReflTransGen (Step d) s₁ s ∧
    s₀.round a j = some (.searching key pl seen) ∧
    s₁.round a j = some (.answered key true seen) ∧
    Search.Place.Misled d.garbage s₀.tree4 key pl

/-! ## What holds in every reachable state -/

/-- The rounds that each thread but the master has. -/
def Setup.share (d : Setup) : Nat :=
  (d.task_size.tdiv ((d.omp_get_num_threads : Int) - 1)).toNat

/-- The region has not ended. -/
def Main.isOpen : Main → Bool
  | .insert _ | .inserting _ _ | .barrier => true
  | _ => false

/-- The tree can be searched after `h` insertions, of some of the keys. -/
abbrev Setup.Searchable (d : Setup) (h : Nat) (g : Levels) (tree : BTree) : Prop :=
  InsertActions.Searchable (· ∈ d.keys) h g tree

/-- The tree is the one that the ended calls make, or what is left of the call in
progress will make it the one of that call too. -/
def Main.Sound (d : Setup) (g : Levels) (tree : BTree) : Main → Prop
  | .insert i => i ≤ d.keys.length ∧ d.Searchable i g tree ∧
      (BTree.new 4).run (d.history.take i) = .ok tree
  | .inserting i rest => i < d.keys.length ∧ d.Searchable (i + 1) g tree ∧
      Guarantees (Keeps (· ∈ d.keys) (i + 1)) rest tree g (fun _ _ _ => True) ∧
      ∃ r tree', rest.run tree = .ok (r, tree') ∧
        (BTree.new 4).run (d.history.take (i + 1)) = .ok tree'
  | .barrier => d.Searchable d.keys.length g tree ∧
      (BTree.new 4).run (d.history.take d.keys.length) = .ok tree
  | .remove i => i ≤ d.removals.length ∧
      (BTree.new 4).run (d.history.take (d.keys.length + i)) = .ok tree
  | .returned => (BTree.new 4).run d.history = .ok tree

/-- A search can go on. -/
def Round.Sound (g : Levels) (tree : BTree) : Round → Prop
  | .searching _ pl _ => pl.Ready g tree
  | _ => True

/-- Who has stored `nthreads` finds it stored, and it never has to be raised. -/
def Worker.Sound (d : Setup) (nthreads : Option Int) (g : Levels) (tree : BTree) :
    Worker → Prop
  | .begun => True
  | .counted | .ready => nthreads = some ((d.omp_get_num_threads : Int) - 1)
  | .raising => False
  | .looping rounds => rounds.length = d.share ∧ ∀ c ∈ rounds, c.Sound g tree
  | .finished rounds => rounds.length = d.share ∧
      ∀ c ∈ rounds, c.Sound g tree ∧ c.isAnswered = true

/-- Behind the barrier all threads are through. -/
structure Inv (d : Setup) (g : Levels) (s : State) : Prop where
  main : s.main.Sound d g s.tree4
  workers : s.workers.length = d.omp_get_num_threads - 1
  nthreads : ∀ n, s.nthreads = some n → n = (d.omp_get_num_threads : Int) - 1
  sound : ∀ w ∈ s.workers, w.Sound d s.nthreads g s.tree4
  closed : s.main.isOpen = false →
    ∀ w ∈ s.workers, ∃ rounds, w = .finished rounds

section WorkerSteps

variable {d : Setup} {g g' : Levels} {tree tree' : BTree} {n n' : Option Int}
  {w w' : Worker} {c c' : Round} {seen : List Int} {h : Nat}

theorem Round.Sound.grows (hc : c.Sound g tree) (hg : Grows tree g tree' g') :
    c.Sound g' tree' := by
  cases c with
  | searching => exact Search.Place.Ready.grows hc hg
  | _ => exact hc

theorem Worker.Sound.grows (hw : w.Sound d n g tree)
    (hg : Grows tree g tree' g') : w.Sound d n g' tree' := by
  cases w with
  | looping rounds => exact ⟨hw.1, fun c hc => (hw.2 c hc).grows hg⟩
  | finished rounds =>
      exact ⟨hw.1, fun c hc => ⟨(hw.2 c hc).1.grows hg, (hw.2 c hc).2⟩⟩
  | _ => exact hw

/-- Behind the barrier the tree may change as it likes. -/
theorem Worker.Sound.finished {rounds : List Round}
    (hw : (Worker.finished rounds).Sound d n g tree) :
    (Worker.finished rounds).Sound d n' g' tree' := by
  refine ⟨hw.1, fun c hc => ⟨?_, (hw.2 c hc).2⟩⟩
  have hdone := (hw.2 c hc).2
  cases c with
  | answered => trivial
  | _ => exact Bool.noConfusion hdone

theorem RoundStep.sound (hstep : RoundStep d tree seen c c')
    (hc : c.Sound g tree) (ht : d.Searchable h g tree) : c'.Sound g tree := by
  cases hstep with
  | call => trivial
  | move hacc =>
      obtain ⟨o, ho, -, hnext⟩ := Search.Place.Ready.access hc ht (Nat.le_refl h) _ _
      exact (hnext _ (Option.some.inj (ho.symm.trans hacc))).1
  | answer => trivial

/-- Whatever a thread stores in `nthreads`, it is the same number. -/
theorem WorkerStep.sound (hstep : WorkerStep d tree seen (n, w) (n', w'))
    (hw : w.Sound d n g tree) (hteam : 2 ≤ d.omp_get_num_threads)
    (ht : d.Searchable h g tree) :
    w'.Sound d n' g tree ∧
      (n' = n ∨ n' = some ((d.omp_get_num_threads : Int) - 1)) := by
  cases hstep with
  | count => exact ⟨rfl, Or.inr rfl⟩
  | @few n hn =>
      obtain rfl : n = _ := Option.some.inj hw
      omega
  | enough => exact ⟨hw, Or.inl rfl⟩
  | raise => exact absurd hw id
  | @enter n =>
      obtain rfl : n = _ := Option.some.inj hw
      refine ⟨⟨List.length_replicate, ?_⟩, Or.inl rfl⟩
      intro c hc
      rw [(List.mem_replicate.mp hc).2]
      trivial
  | @search _ A B c c' hfree hround =>
      refine ⟨⟨?_, ?_⟩, Or.inl rfl⟩
      · rw [← hw.1]
        simp
      · exact forall_middle hw.2 fun hc => hround.sound hc ht
  | finish hall =>
      exact ⟨⟨hw.1, fun c hc => ⟨hw.2 c hc, hall c hc⟩⟩, Or.inl rfl⟩

/-- What another thread stores in `nthreads` makes no difference. -/
theorem Worker.Sound.stored (hw : w.Sound d n g tree)
    (hn : n' = n ∨ n' = some ((d.omp_get_num_threads : Int) - 1)) :
    w.Sound d n' g tree := by
  rcases hn with rfl | rfl
  · exact hw
  · cases w with
    | counted => rfl
    | ready => rfl
    | _ => exact hw

theorem WorkerStep.unfinished (hstep : WorkerStep d tree seen (n, w) (n', w'))
    (rounds : List Round) : w ≠ .finished rounds := by
  cases hstep <;> nofun

end WorkerSteps

section Invariant

variable {d : Setup} {g : Levels} {s s' : State}

theorem inv_init (d : Setup) : Inv d (fun _ => none) d.init where
  main := by
    refine ⟨Nat.zero_le _, ⟨⟨?_, ?_⟩, nofun, nofun⟩, rfl⟩
    · exact fun p nd hget => nomatch hget
    · exact fun p hp => absurd hp List.not_mem_nil
  workers := List.length_replicate
  nthreads _ h := nomatch h
  sound w hw := by
    rw [(List.mem_replicate.mp hw).2]
    trivial
  closed h := Bool.noConfusion h

theorem Setup.tree_eq (d : Setup) {k : Nat} {tree : BTree}
    (hrun : (BTree.new 4).run (d.history.take k) = .ok tree) :
    tree.t = 4 ∧ ∃ L, tree.Stores L := by
  obtain ⟨b, L, hrun', ht, hb⟩ := d.take_stores (by decide : 2 ≤ 4) k
  obtain rfl := Except.ok.inj (hrun'.symm.trans hrun)
  exact ⟨ht, L, hb⟩

/-- As long as the region is open, the tree can be searched. -/
theorem Inv.searchable (h : Inv d g s) (ho : s.main.isOpen = true) :
    ∃ k ≤ d.keys.length, d.Searchable k g s.tree4 := by
  have hmain := h.main
  cases hm : s.main with
  | insert i =>
      rw [hm] at hmain
      exact ⟨i, hmain.1, hmain.2.1⟩
  | inserting i rest =>
      rw [hm] at hmain
      exact ⟨i + 1, hmain.1, hmain.2.1⟩
  | barrier =>
      rw [hm] at hmain
      exact ⟨_, Nat.le_refl _, hmain.1⟩
  | _ =>
      rw [hm] at ho
      exact Bool.noConfusion ho

/-- A thread that is not through keeps the region open. -/
theorem Inv.isOpen (h : Inv d g s) {w : Worker} (hw : w ∈ s.workers)
    (hlive : ∀ rounds, w ≠ .finished rounds) : s.main.isOpen = true := by
  by_contra hcl
  rw [Bool.not_eq_true] at hcl
  obtain ⟨rounds, heq⟩ := h.closed hcl w hw
  exact hlive rounds heq

/-- A call begins. -/
theorem Main.Sound.call {tree : BTree} {i : Nat} {key : Int}
    (h : (Main.insert i).Sound d g tree) (hkey : d.keys[i]? = some key) :
    (Main.inserting i (InsertActions.insert tree.t key)).Sound d g tree := by
  obtain ⟨-, hs, hrun⟩ := h
  obtain ⟨ht, L, hL⟩ := d.tree_eq hrun
  have htwo : 2 ≤ tree.t := by
    rw [ht]
    decide
  obtain ⟨tree', hexec, -, -⟩ := hL.insert htwo key
  refine ⟨(List.getElem?_eq_some_iff.mp hkey).1, hs.higher (Nat.le_succ i),
    insert_guarantees (List.mem_of_getElem? hkey) htwo hs, true, tree', ?_, ?_⟩
  · rw [run_insert, hexec]
  · exact run_take_succ (Shuffles.history_insert hkey) hexec hrun

/-- An action of a call. -/
theorem Main.Sound.act {tree tree' : BTree} {i : Nat} {β : Type}
    {f : Prog BTree Fault β} {k : β → Thread BTree Fault Bool} {b : β}
    (h : (Main.inserting i (.act f k)).Sound d g tree)
    (hrun : f tree = .ok (b, tree')) :
    ∃ g', Grows tree g tree' g' ∧ (Main.inserting i (k b)).Sound d g' tree' := by
  obtain ⟨hi, -, hguar, r, last, hrest, hlast⟩ := h
  obtain ⟨g', ⟨hs, hgrows⟩, hguar'⟩ := hguar b tree' hrun
  have hrest' : (f >>= fun b => (k b).run) tree = .ok (r, last) := hrest
  rw [bind_run_ok hrun] at hrest'
  exact ⟨g', hgrows, hi, hs, hguar', r, last, hrest', hlast⟩

theorem Inv.act (h : Inv d g s) {i : Nat} {β : Type} {f : Prog BTree Fault β}
    {k : β → Thread BTree Fault Bool} {b : β} {tree : BTree}
    (hm : s.main = .inserting i (.act f k)) (hrun : f s.tree4 = .ok (b, tree)) :
    ∃ g', Grows s.tree4 g tree g' ∧
      Inv d g' { s with tree4 := tree, main := .inserting i (k b) } := by
  have hmain := h.main
  rw [hm] at hmain
  obtain ⟨g', hgrows, hmain'⟩ := hmain.act hrun
  exact ⟨g', hgrows, hmain', h.workers, h.nthreads,
    fun w hw => (h.sound w hw).grows hgrows, nofun⟩

theorem Inv.work (h : Inv d g s) {A B : List Worker} {w w' : Worker}
    {n : Option Int} (hw : s.workers = A ++ w :: B)
    (hstep : WorkerStep d s.tree4 (s.main.seen d) (s.nthreads, w) (n, w')) :
    Inv d g { s with nthreads := n, workers := A ++ w' :: B } := by
  have hmem : w ∈ s.workers := hw ▸ by simp
  obtain ⟨k, -, hs⟩ := h.searchable (h.isOpen hmem hstep.unfinished)
  have hteam : 2 ≤ d.omp_get_num_threads := by
    have hlen := h.workers
    rw [hw, List.length_append, List.length_cons] at hlen
    omega
  obtain ⟨hsound, hn⟩ := hstep.sound (h.sound w hmem) hteam hs
  refine ⟨h.main, ?_, ?_, ?_, ?_⟩
  · rw [← h.workers, hw]
    simp
  · intro k hk
    rcases hn with rfl | rfl
    · exact h.nthreads k hk
    · exact (Option.some.inj hk).symm
  · refine forall_middle (c := w) (fun x hx => ?_) fun _ => hsound
    exact (h.sound x (hw ▸ hx)).stored hn
  · intro hcl
    obtain ⟨rounds, heq⟩ := h.closed hcl w hmem
    exact absurd heq (hstep.unfinished rounds)

theorem inv_step (h : Inv d g s) (hstep : Step d s s') :
    ∃ g', Inv d g' s' := by
  have hmain := h.main
  have hclosed := h.closed
  cases hstep with
  | @call i key hm hkey =>
      rw [hm] at hmain
      exact ⟨g, hmain.call hkey, h.workers, h.nthreads, h.sound, nofun⟩
  | act hm hrun =>
      obtain ⟨g', -, h'⟩ := h.act hm hrun
      exact ⟨g', h'⟩
  | @ended i r hm =>
      rw [hm] at hmain
      obtain ⟨hi, hs, -, r', tree', hrest, hrun⟩ := hmain
      obtain ⟨rfl, rfl⟩ := Prod.mk.inj (Except.ok.inj hrest)
      exact ⟨g, ⟨hi, hs, hrun⟩, h.workers, h.nthreads, h.sound, nofun⟩
  | inserted hm =>
      rw [hm] at hmain
      exact ⟨g, hmain.2, h.workers, h.nthreads, h.sound, nofun⟩
  | joined hm hall =>
      rw [hm] at hmain
      exact ⟨g, ⟨Nat.zero_le _, hmain.2⟩, h.workers, h.nthreads, h.sound,
        fun _ => hall⟩
  | @remove i key r tree hm hkey hexec =>
      rw [hm] at hmain hclosed
      refine ⟨g, ⟨(List.getElem?_eq_some_iff.mp hkey).1,
        run_take_succ (Shuffles.history_remove hkey) hexec hmain.2⟩, h.workers,
        h.nthreads, fun w hw => ?_, fun _ => hclosed rfl⟩
      obtain ⟨rounds, rfl⟩ := hclosed rfl w hw
      exact (h.sound _ hw).finished
  | removed hm =>
      rw [hm] at hmain hclosed
      refine ⟨g, ?_, h.workers, h.nthreads, h.sound, fun _ => hclosed rfl⟩
      have hrun := hmain.2
      rwa [← d.length_history, List.take_length] at hrun
  | work hw hstep => exact ⟨g, h.work hw hstep⟩

theorem inv_reachable (h : d.Reachable s) : ∃ g, Inv d g s := by
  have hrun : ReflTransGen (Step d) d.init s := h
  refine invariant_run (I := fun s => ∃ g, Inv d g s) ?_ hrun ⟨_, inv_init d⟩
  rintro s s' ⟨g, hg⟩ hstep
  exact inv_step hg hstep

/-- A round that has no answer yet can go on. -/
theorem Inv.round (h : Inv d g s) {w : Worker} (hw : w ∈ s.workers) {c : Round}
    (hc : c ∈ w.rounds) (hleft : c.isAnswered = false) :
    s.main.isOpen = true ∧ c.Sound g s.tree4 := by
  have hsound := h.sound w hw
  cases w with
  | looping rounds => exact ⟨h.isOpen hw nofun, hsound.2 c hc⟩
  | finished rounds =>
      exact Bool.noConfusion ((hsound.2 c hc).2.symm.trans hleft)
  | _ => exact absurd hc List.not_mem_nil

end Invariant

/-! ## The steps that are left -/

/-- How far the master still has to go, and the actions of the call it is in. -/
def Main.left (d : Setup) : Main → Nat
  | .insert i => 2 * (d.keys.length - i) + d.removals.length + 3
  | .inserting i _ => 2 * (d.keys.length - i) + d.removals.length + 2
  | .barrier => d.removals.length + 2
  | .remove i => d.removals.length - i + 1
  | .returned => 0

def Main.actions (tree : BTree) : Main → Nat
  | .inserting _ rest => rest.length tree
  | _ => 0

def Round.rank (d : Setup) (g : Levels) (tree : BTree) : Round → Nat
  | .waiting => Search.Place.entering.rank g tree.t d.keys.length + 2
  | .searching _ pl _ => pl.rank g tree.t d.keys.length + 1
  | .answered _ _ _ => 0

def Worker.rank (d : Setup) (g : Levels) (tree : BTree) : Worker → Nat
  | .begun => d.share * Round.waiting.rank d g tree + 5
  | .counted => d.share * Round.waiting.rank d g tree + 4
  | .raising => d.share * Round.waiting.rank d g tree + 3
  | .ready => d.share * Round.waiting.rank d g tree + 2
  | .looping rounds => (rounds.map (Round.rank d g tree)).sum + 1
  | .finished _ => 0

/-- The steps of this call and of the searches that are left, at most. -/
def State.rank (d : Setup) (g : Levels) (s : State) : Nat :=
  s.main.actions s.tree4 + (s.workers.map (Worker.rank d g s.tree4)).sum

/-- The searches may go on longer when the next call begins, but calls are made a
bounded number of times. -/
def Ranked (d : Setup) (n : Nat × Nat) (s : State) : Prop :=
  ∃ g, Inv d g s ∧ n = (s.main.left d, s.rank d g)

section Rank

variable {d : Setup} {g g' : Levels} {s s' : State} {tree tree' : BTree}
  {n n' : Option Int} {w w' : Worker} {c c' : Round} {seen : List Int} {h : Nat}

theorem Round.Sound.rank_grows (hc : c.Sound g tree)
    (hg : Grows tree g tree' g') : c.rank d g' tree' = c.rank d g tree := by
  cases c with
  | searching => exact congrArg (· + 1) (Search.Place.Ready.rank_grows hc hg)
  | _ => simp only [Round.rank, Search.Place.rank, hg.t]

theorem Worker.Sound.rank_grows (hw : w.Sound d n g tree)
    (hg : Grows tree g tree' g') : w.rank d g' tree' = w.rank d g tree := by
  have hwait : Round.waiting.rank d g' tree' = Round.waiting.rank d g tree :=
    Round.Sound.rank_grows trivial hg
  cases w with
  | looping rounds =>
      have hmap : rounds.map (Round.rank d g' tree') =
          rounds.map (Round.rank d g tree) :=
        List.map_congr_left fun c hc => (hw.2 c hc).rank_grows hg
      simp only [Worker.rank, hmap]
  | _ => simp only [Worker.rank, hwait]

theorem RoundStep.rank_lt (hstep : RoundStep d tree seen c c')
    (hc : c.Sound g tree) (ht : d.Searchable h g tree)
    (hbound : h ≤ d.keys.length) : c'.rank d g tree < c.rank d g tree := by
  cases hstep with
  | call => exact Nat.lt_succ_self _
  | move hacc =>
      obtain ⟨o, ho, -, hnext⟩ := Search.Place.Ready.access hc ht hbound _ _
      have hlt := (hnext _ (Option.some.inj (ho.symm.trans hacc))).2
      exact Nat.succ_lt_succ hlt
  | answer => exact Nat.succ_pos _

theorem WorkerStep.rank_lt (hstep : WorkerStep d tree seen (n, w) (n', w'))
    (hw : w.Sound d n g tree) (ht : d.Searchable h g tree)
    (hbound : h ≤ d.keys.length) : w'.rank d g tree < w.rank d g tree := by
  cases hstep with
  | @enter n =>
      obtain rfl : n = _ := Option.some.inj hw
      have hsum : ((List.replicate d.share Round.waiting).map
          (Round.rank d g tree)).sum = d.share * Round.waiting.rank d g tree := by
        rw [List.map_replicate, List.sum_replicate_nat]
      show ((List.replicate d.share Round.waiting).map (Round.rank d g tree)).sum +
        1 < d.share * Round.waiting.rank d g tree + 2
      omega
  | @search _ A B c c' hfree hround =>
      have hlt := hround.rank_lt (hw.2 c (by simp)) ht hbound
      show ((A ++ c' :: B).map (Round.rank d g tree)).sum + 1 <
        ((A ++ c :: B).map (Round.rank d g tree)).sum + 1
      rw [sum_middle, sum_middle]
      omega
  | finish => exact Nat.succ_pos _
  | _ =>
      simp only [Worker.rank]
      omega

/-- The next step that is not a search begins or ends a call, or makes it
shorter. -/
theorem Ranked.lower {m : Nat × Nat} (hs : Ranked d m s) (hstep : Step d s s') :
    ∃ m', Prod.Lex (· < ·) (· < ·) m' m ∧ Ranked d m' s' := by
  obtain ⟨g, h, rfl⟩ := hs
  have hmain := h.main
  obtain ⟨g', h'⟩ := inv_step h hstep
  cases hstep with
  | @call i key hm hkey =>
      have hlt : i < d.keys.length := (List.getElem?_eq_some_iff.mp hkey).1
      refine ⟨_, .left _ _ ?_, g', h', rfl⟩
      rw [hm]
      simp only [Main.left]
      omega
  | @act i β f k b tree hm hrun =>
      obtain ⟨g', hgrows, h'⟩ := h.act hm hrun
      have hsame : s.workers.map (Worker.rank d g' tree) =
          s.workers.map (Worker.rank d g s.tree4) :=
        List.map_congr_left fun w hw => (h.sound w hw).rank_grows hgrows
      have hlen : (Thread.act f k).length s.tree4 = (k b).length tree + 1 := by
        rw [Thread.length, hrun]
      refine ⟨(s.main.left d, _), .right _ ?_, g', h', Prod.ext ?_ rfl⟩
      · simp only [State.rank, hm, Main.actions, hlen, hsame]
        omega
      · rw [hm]
        rfl
  | @ended i r hm =>
      rw [hm] at hmain
      have hlt : i < d.keys.length := hmain.1
      refine ⟨_, .left _ _ ?_, g', h', rfl⟩
      rw [hm]
      simp only [Main.left]
      omega
  | @remove i key r tree hm hkey =>
      have hlt : i < d.removals.length := (List.getElem?_eq_some_iff.mp hkey).1
      refine ⟨_, .left _ _ ?_, g', h', rfl⟩
      rw [hm]
      simp only [Main.left]
      omega
  | @work A B w w' n hw hstep =>
      have hmem : w ∈ s.workers := hw ▸ by simp
      obtain ⟨k, hk, ht⟩ := h.searchable (h.isOpen hmem hstep.unfinished)
      have hlt := hstep.rank_lt (h.sound w hmem) ht hk
      refine ⟨_, .right _ ?_, g, h.work hw hstep, rfl⟩
      simp only [State.rank, hw, sum_middle]
      omega
  | _ hm =>
      refine ⟨_, .left _ _ ?_, g', h', rfl⟩
      rw [hm]
      simp only [Main.left]
      omega

/-- A thread that is not at the end of the region can go on. -/
theorem Worker.Sound.steps (hw : w.Sound d n g tree) (hinner : 1 ≤ d.nested)
    (ht : d.Searchable h g tree) (seen : List Int) :
    (∃ rounds, w = .finished rounds) ∨ ∃ o, WorkerStep d tree seen (n, w) o := by
  have hround : ∀ c : Round, c.Sound g tree → c.isAnswered = false →
      ∃ c', RoundStep d tree seen c c' := by
    intro c hc hleft
    cases c with
    | waiting => exact ⟨_, .call 0⟩
    | searching key pl seen₀ =>
        obtain ⟨o, ho, -⟩ :=
          Search.Place.Ready.access hc ht (Nat.le_refl h) d.garbage key
        cases o with
        | inl found => exact ⟨_, .answer ho⟩
        | inr pl' => exact ⟨_, .move ho⟩
    | answered => exact Bool.noConfusion hleft
  cases w with
  | begun => exact Or.inr ⟨_, .count⟩
  | counted =>
      obtain rfl : n = some _ := hw
      by_cases hn : (d.omp_get_num_threads : Int) - 1 < 1
      · exact Or.inr ⟨_, .few hn⟩
      · exact Or.inr ⟨_, .enough hn⟩
  | raising => exact absurd hw id
  | ready =>
      obtain rfl : n = some _ := hw
      exact Or.inr ⟨_, .enter⟩
  | finished rounds => exact Or.inl ⟨rounds, rfl⟩
  | looping rounds =>
      right
      by_cases hall : ∀ c ∈ rounds, Round.isAnswered c = true
      · exact ⟨_, .finish hall⟩
      · push Not at hall
        obtain ⟨c, hc, hleft⟩ := hall
        rw [ne_eq, Bool.not_eq_true] at hleft
        by_cases hbusy : ∃ c ∈ rounds, Round.isSearching c = true
        · obtain ⟨b, hb, hsearch⟩ := hbusy
          have hopen : b.isAnswered = false := by
            cases b with
            | searching => rfl
            | _ => exact Bool.noConfusion hsearch
          obtain ⟨b', hstep⟩ := hround b (hw.2 b hb) hopen
          obtain ⟨A, B, rfl⟩ := List.append_of_mem hb
          exact ⟨_, .search (Or.inl hsearch) hstep⟩
        · -- nobody is searching, so a thread is free to begin the round
          push Not at hbusy
          obtain ⟨c', hstep⟩ := hround c (hw.2 c hc) hleft
          obtain ⟨A, B, rfl⟩ := List.append_of_mem hc
          have hnone : (A ++ c :: B).countP Round.isSearching = 0 :=
            List.countP_eq_zero.mpr hbusy
          exact ⟨_, .search (Or.inr (by omega)) hstep⟩

/-- Unless `main` has returned, some thread can make a step. -/
theorem Inv.steps (h : Inv d g s) (hlive : s.main ≠ .returned) :
    ∃ s', Step d s s' := by
  have hmain := h.main
  cases hm : s.main with
  | insert i =>
      rw [hm] at hmain
      rcases Nat.lt_or_eq_of_le hmain.1 with hlt | rfl
      · exact ⟨_, .call hm (List.getElem?_eq_getElem hlt)⟩
      · exact ⟨_, .inserted hm⟩
  | inserting i rest =>
      rw [hm] at hmain
      obtain ⟨-, -, -, r, tree', hrest, -⟩ := hmain
      cases rest with
      | done r => exact ⟨_, .ended hm⟩
      | act f k =>
          obtain ⟨b, tree, hrun, -⟩ := bind_ok hrest
          exact ⟨_, .act hm hrun⟩
  | barrier =>
      rw [hm] at hmain
      by_cases hall : ∀ w ∈ s.workers, ∃ rounds, w = Worker.finished rounds
      · exact ⟨_, .joined hm hall⟩
      · push Not at hall
        obtain ⟨w, hw, hlive⟩ := hall
        rcases (h.sound w hw).steps d.inner hmain.1 (s.main.seen d) with
          ⟨rounds, heq⟩ | ⟨o, hstep⟩
        · exact absurd heq (hlive rounds)
        · obtain ⟨A, B, hAB⟩ := List.append_of_mem hw
          exact ⟨_, .work hAB hstep⟩
  | remove i =>
      rw [hm] at hmain
      rcases Nat.lt_or_eq_of_le hmain.1 with hlt | rfl
      · obtain ⟨ht, L, hL⟩ := d.tree_eq hmain.2
        obtain ⟨r, tree, hexec, -⟩ :=
          hL.exec (by rw [ht]; decide) (.remove d.removals[i])
        exact ⟨_, .remove hm (List.getElem?_eq_getElem hlt) hexec⟩
      · exact ⟨_, .removed hm⟩
  | returned => exact absurd hm hlive

end Rank

theorem inevitable_of (d : Setup) {Done : State → Prop}
    (hdone : ∀ g s, Inv d g s → s.main = .returned → Done s) :
    Inevitable (Step d) Done d.init := by
  refine Inevitable.of_ranked (I := Ranked d)
    (WellFounded.prod_lex Nat.lt_wfRel.wf Nat.lt_wfRel.wf) ?_ ?_
    ⟨_, inv_init d, rfl⟩
  · rintro n s ⟨g, hs, -⟩ hlive
    exact hs.steps fun hm => hlive (hdone g s hs hm)
  · exact fun n s s' hs hstep => hs.lower hstep

/-! ## What a search finds -/

section Answers

variable {d : Setup} {tree : BTree} {n n' : Option Int} {w w' : Worker}
  {c c' : Round} {seen seen₀ : List Int} {s s' : State} {key : Int} {found : Bool}
  {a j : Nat}

theorem RoundStep.answered
    (hstep : RoundStep d tree seen c (.answered key found seen₀)) :
    ∃ pl, c = .searching key pl seen₀ ∧
      Search.access d.garbage tree key pl = some (.inl found) := by
  cases hstep with
  | answer h => exact ⟨_, rfl, h⟩

theorem WorkerStep.answered (hstep : WorkerStep d tree seen (n, w) (n', w'))
    (hj : w'.rounds[j]? = some (.answered key found seen₀)) :
    w.rounds[j]? = some (.answered key found seen₀) ∨
      ∃ pl, w.rounds[j]? = some (.searching key pl seen₀) ∧
        Search.access d.garbage tree key pl = some (.inl found) := by
  cases hstep with
  | enter => cases (List.mem_replicate.mp (List.mem_of_getElem? hj)).2
  | search hfree hround =>
      rcases getElem?_middle hj with hj | ⟨hj, rfl⟩
      · exact Or.inl hj
      · obtain ⟨pl, rfl, hacc⟩ := hround.answered
        exact Or.inr ⟨pl, hj, hacc⟩
  | finish => exact Or.inl hj
  | _ => cases hj

/-- A round gets its answer by the last read of its search. -/
theorem Step.answered (hstep : Step d s s')
    (hj : s'.round a j = some (.answered key found seen)) :
    s.round a j = some (.answered key found seen) ∨
      ∃ pl, s.round a j = some (.searching key pl seen) ∧
        Search.access d.garbage s.tree4 key pl = some (.inl found) := by
  cases hstep with
  | @work A B w w' n hw hstep =>
      obtain ⟨x, hx, hround⟩ := Option.bind_eq_some_iff.mp hj
      simp only [State.round, hw]
      rcases getElem?_middle (c := w) hx with hold | ⟨hold, hnew⟩
      · exact Or.inl (Option.bind_eq_some_iff.mpr ⟨x, hold, hround⟩)
      · rw [hold]
        exact hstep.answered (hnew ▸ hround)
  | _ => exact Or.inl hj

/-- The next read of a search can be made, and finds one of the keys or misleads
the search, if it finds anything. -/
theorem Inv.access {g : Levels} {pl : Search.Place} (h : Inv d g s)
    (hw : w ∈ s.workers) (hc : .searching key pl seen ∈ w.rounds) :
    s.main.isOpen = true ∧ pl.Ready g s.tree4 ∧
      ∃ o, Search.access d.garbage s.tree4 key pl = some o ∧
        (o = .inl true → key ∈ d.keys ∨ pl.Misled d.garbage s.tree4 key) := by
  obtain ⟨ho, hready⟩ := h.round hw hc rfl
  obtain ⟨k, -, ht⟩ := h.searchable ho
  obtain ⟨o, hacc, hfound, -⟩ :=
    Search.Place.Ready.access hready ht (Nat.le_refl k) d.garbage key
  exact ⟨ho, hready, o, hacc, hfound⟩

/-- A search that finds something has found one of the keys, or was misled. -/
theorem found_reachable (h : d.Reachable s)
    (hj : s.round a j = some (.answered key true seen)) :
    key ∈ d.keys ∨ s.Misled d a j key seen := by
  have hrun : ReflTransGen (Step d) d.init s := h
  have hinit : d.init.round a j ≠ some (.answered key true seen) := by
    intro h₀
    obtain ⟨w, hw, hc⟩ := Option.bind_eq_some_iff.mp h₀
    obtain rfl := (List.mem_replicate.mp (List.mem_of_getElem? hw)).2
    cases hc
  obtain ⟨s₀, s₁, hreach, hstep, hafter, hnot, hnow⟩ :=
    appears_run (P := fun s => s.round a j = some (.answered key true seen))
      hrun hinit hj
  obtain ⟨pl, hsearch, hacc⟩ := (hstep.answered hnow).resolve_left hnot
  obtain ⟨g, hinv⟩ := inv_reachable hreach
  obtain ⟨w, hw, hc⟩ := Option.bind_eq_some_iff.mp hsearch
  obtain ⟨-, -, o, ho, hfound⟩ :=
    hinv.access (List.mem_of_getElem? hw) (List.mem_of_getElem? hc)
  obtain rfl : o = .inl true := Option.some.inj (ho.symm.trans hacc)
  exact (hfound rfl).imp_right fun hmis =>
    ⟨s₀, s₁, pl, hreach, hstep, hafter, hsearch, hnow, hmis⟩

end Answers

/-! ## The two barriers -/

/-- In every reachable state: while a thread is searching, no removal has begun,
and although an insertion may be half done, the next read of the search is of a
node that is there, through a pointer that was written, and in its loop of a key
inside the array.  What a search finds is one of the keys, unless the slot behind
its loop was not written when it read it, and memory held the key there.  The
threads agree on `nthreads` without a lock, and none of them ever has to raise
it. -/
theorem team_protocol (d : Setup) (s : State) (h : d.Reachable s) :
    (∀ w ∈ s.workers, ∀ key pl seen, .searching key pl seen ∈ w.rounds →
      s.main.isOpen = true ∧
      (∃ o, Search.access d.garbage s.tree4 key pl = some o) ∧
      ∀ p i, pl = .comparing p i → i < 2 * s.tree4.t - 1) ∧
    (∀ a j key seen, s.round a j = some (.answered key true seen) →
      key ∈ d.keys ∨ s.Misled d a j key seen) ∧
    (∀ n, s.nthreads = some n → n = (d.omp_get_num_threads : Int) - 1) ∧
    (∀ w ∈ s.workers, w ≠ .raising) := by
  obtain ⟨g, hinv⟩ := inv_reachable h
  refine ⟨?_, ?_, hinv.nthreads, ?_⟩
  · intro w hw key pl seen hc
    obtain ⟨ho, hready, o, hacc, -⟩ := hinv.access hw hc
    refine ⟨ho, ⟨o, hacc⟩, ?_⟩
    rintro p i rfl
    obtain ⟨k, -, hnext⟩ := hready
    exact hnext.bound
  · exact fun a j key seen hj => found_reachable h hj
  · rintro _ hw rfl
    exact hinv.sound _ hw

/-- The witness run of `team_protocol`: three threads, and `main` returns. -/
theorem team_protocol_three :
    let d : Setup := ⟨⟨[1, 0], [0, 1], .swap 1 0 []⟩, by decide, 3, by decide,
      1, by decide, 5, fun _ _ => 0⟩
    ∃ s, d.Reachable s ∧ s.main = .returned ∧
      (∀ w ∈ s.workers, ∀ key pl seen, .searching key pl seen ∈ w.rounds →
        s.main.isOpen = true ∧
        (∃ o, Search.access d.garbage s.tree4 key pl = some o) ∧
        ∀ p i, pl = .comparing p i → i < 2 * s.tree4.t - 1) ∧
      (∀ a j key seen, s.round a j = some (.answered key true seen) →
        key ∈ d.keys ∨ s.Misled d a j key seen) ∧
      (∀ n, s.nthreads = some n → n = (d.omp_get_num_threads : Int) - 1) ∧
      (∀ w ∈ s.workers, w ≠ .raising) := by
  intro d
  have hreturns : Inevitable (Step d) (fun s => s.main = .returned) d.init :=
    inevitable_of d fun _ _ _ hm => hm
  obtain ⟨s, hreach, hm⟩ := hreturns.exists_run
  exact ⟨s, hreach, hm, team_protocol d s hreach⟩

theorem Setup.share_eq (d : Setup) :
    d.share = d.task_size.toNat / (d.omp_get_num_threads - 1) := by
  have hteam := d.team
  have hpred : (d.omp_get_num_threads : Int) - 1 =
      ((d.omp_get_num_threads - 1 : Nat) : Int) := by omega
  rw [Setup.share, hpred]
  generalize d.task_size = k
  rcases Int.le_total 0 k with hk | hk
  · obtain ⟨k, rfl⟩ := Int.eq_ofNat_of_zero_le hk
    rfl
  · obtain ⟨k, rfl⟩ := Int.exists_eq_neg_ofNat hk
    have hpos : 0 ≤ (k : Int).tdiv ((d.omp_get_num_threads - 1 : Nat) : Int) :=
      Int.tdiv_nonneg (Int.natCast_nonneg _) (Int.natCast_nonneg _)
    rw [Int.neg_tdiv, Int.toNat_of_nonpos (by omega),
      Int.toNat_of_nonpos (by omega), Nat.zero_div]

/-- Under every schedule the barriers open and `main` returns.  Then every search
has its answer; the threads but the master have made as many as were asked for,
less the remainder; and every node that was created is deleted. -/
theorem region_ends (d : Setup) :
    Inevitable (Step d) (fun s => s.main = .returned ∧
      (s.workers.flatMap Worker.rounds).length +
        d.task_size.toNat % (d.omp_get_num_threads - 1) = d.task_size.toNat ∧
      (∀ c ∈ s.workers.flatMap Worker.rounds, c.isAnswered = true) ∧
      s.tree4.root = none ∧
      s.tree4.mem.deleted.Perm (List.range s.tree4.mem.nodes.length)) d.init := by
  refine inevitable_of d fun g s hs hm => ⟨hm, ?_, ?_, ?_⟩
  · have hclosed := hs.closed
    rw [hm] at hclosed
    have heach : s.workers.map (fun w => w.rounds.length) =
        s.workers.map (fun _ => d.share) := by
      refine List.map_congr_left fun w hw => ?_
      obtain ⟨rounds, rfl⟩ := hclosed rfl w hw
      exact (hs.sound _ hw).1
    rw [List.length_flatMap, heach, List.map_const', List.sum_replicate_nat,
      hs.workers]
    rw [d.share_eq]
    exact Nat.div_add_mod _ _
  · intro c hc
    obtain ⟨w, hw, hc⟩ := List.mem_flatMap.mp hc
    by_contra hleft
    rw [Bool.not_eq_true] at hleft
    have ho := (hs.round hw hc hleft).1
    rw [hm] at ho
    exact Bool.noConfusion ho
  · have hmain := hs.main
    rw [hm] at hmain
    obtain ⟨b, hrun, hb⟩ := d.history_vacant (by decide : 2 ≤ 4)
    obtain rfl := Except.ok.inj (hrun.symm.trans hmain)
    exact ⟨hb.root, hb.accounts⟩

end ParallelBTree.Ports.Openmp
