import ParallelBTree.Ports.OpenmpMissed

/-!
# Searches of `openmp.cpp` that begin when all keys are in

Once the last insertion has returned nobody writes to the tree until all searches
have ended, though no barrier stands between the two.  A search that begins by
then reads the tree of all keys and nothing else, however its reads mix with
those of the others.

## Main results

* `late_searches` — its answer is that of `exist` on the tree of all keys.
-/

namespace ParallelBTree.Ports.Openmp

open Relation
open ParallelBTree.Verified.Interleaving
open ParallelBTree.Verified.Progress
open ParallelBTree.Ports.NodeMemory
open ParallelBTree.Ports.BTree
open ParallelBTree.Ports.InsertActions

/-! ## A search on a tree that stays -/

section Answers

variable {garbage : Addr → Nat → Int} {b : BTree} {key : Int}
  {pl pl' : Search.Place} {found r : Bool}

/-- A read does not change what a search will find. -/
theorem answers_next (h : Search.Answers garbage b key pl found)
    (hmove : Search.access garbage b key pl = some (.inr pl')) :
    Search.Answers garbage b key pl' found := by
  obtain ⟨last, hmoves, hlast⟩ := h
  cases hmoves.cases_head with
  | inl heq =>
      rw [heq, hlast] at hmove
      cases hmove
  | inr hfirst =>
      obtain ⟨pl'', hfirst, hrest⟩ := hfirst
      obtain rfl : pl'' = pl' :=
        Sum.inr.inj (Option.some.inj (hfirst.symm.trans hmove))
      exact ⟨last, hrest, hlast⟩

/-- The answer is what it was going to be. -/
theorem answers_last (h : Search.Answers garbage b key pl found)
    (hanswer : Search.access garbage b key pl = some (.inl r)) : r = found := by
  obtain ⟨last, hmoves, hlast⟩ := h
  cases hmoves.cases_head with
  | inl heq =>
      rw [heq, hlast] at hanswer
      exact (Sum.inl.inj (Option.some.inj hanswer)).symm
  | inr hfirst =>
      obtain ⟨pl', hfirst, -⟩ := hfirst
      cases (hfirst.symm.trans hanswer : some (Sum.inr pl') = _)

end Answers

/-! ## What late searches find -/

/-- If the search began when all keys were in, they still are, and it is on its way
to the answer of the tree `b`. -/
def Round.Late (d : Setup) (b : BTree) (calls : Nat) : Round → Prop
  | .waiting => True
  | .searching key pl seen => seen = d.keys → calls = d.keys.length ∧
      ∃ found, BTree.exist (BTreeNode.readWith d.garbage) b.root key b.mem =
        .ok (found, b.mem) ∧ Search.Answers d.garbage b key pl found
  | .answered key found seen => seen = d.keys →
      BTree.exist (BTreeNode.readWith d.garbage) b.root key b.mem =
        .ok (found, b.mem)

section Late

variable {d : Setup} {g : Levels} {s s' : State} {b tree : BTree} {c c' : Round}
  {w w' : Worker} {n n' : Option Int} {seen : List Int} {k : Nat}

theorem RoundStep.late (hstep : RoundStep d tree seen c c')
    (hexist : ∀ key, ∃ found, BTree.exist (BTreeNode.readWith d.garbage) b.root key
      b.mem = .ok (found, b.mem))
    (hseen : seen = d.keys → k = d.keys.length)
    (htree : k = d.keys.length → tree = b) (hc : c.Late d b k) :
    c'.Late d b k := by
  cases hstep with
  | call key =>
      obtain ⟨found, hfound⟩ := hexist key
      exact fun heq => ⟨hseen heq, found, hfound, Search.answers_of_exist hfound⟩
  | move hacc =>
      intro heq
      obtain ⟨hk, found, hfound, hanswers⟩ := hc heq
      obtain rfl := htree hk
      exact ⟨hk, found, hfound, answers_next hanswers hacc⟩
  | answer hacc =>
      intro heq
      obtain ⟨hk, found, hfound, hanswers⟩ := hc heq
      obtain rfl := htree hk
      rw [answers_last hanswers hacc]
      exact hfound

theorem WorkerStep.late (hstep : WorkerStep d tree seen (n, w) (n', w'))
    (hround : ∀ c c', RoundStep d tree seen c c' → c.Late d b k → c'.Late d b k)
    (hw : ∀ c ∈ w.rounds, c.Late d b k) : ∀ c ∈ w'.rounds, c.Late d b k := by
  cases hstep with
  | enter =>
      intro c hc
      rw [(List.mem_replicate.mp hc).2]
      trivial
  | search hfree hstep => exact forall_middle hw (hround _ _ hstep)
  | finish => exact hw
  | _ => exact fun c hc => absurd hc List.not_mem_nil

/-- No insertion is begun when all have returned. -/
theorem Inv.calls_step (h : Inv d g s) (hstep : Step d s s')
    (hcalls : s.main.calls d = d.keys.length) :
    s'.main.calls d = d.keys.length := by
  have hmain := h.main
  cases hstep with
  | call hm => rwa [hm] at hcalls
  | act hm => rwa [hm] at hcalls
  | @ended i r hm =>
      rw [hm] at hmain hcalls
      exact absurd hcalls (Nat.ne_of_lt hmain.1)
  | work => exact hcalls
  | _ => rfl

theorem Inv.calls_le (h : Inv d g s) : s.main.calls d ≤ d.keys.length := by
  have hmain := h.main
  cases hm : s.main with
  | insert i =>
      rw [hm] at hmain
      exact hmain.1
  | inserting i rest =>
      rw [hm] at hmain
      exact Nat.le_of_lt hmain.1
  | _ => exact Nat.le_refl _

/-- As long as the region is open, the tree then has all keys and no others. -/
theorem Inv.tree_of_calls (h : Inv d g s) (ho : s.main.isOpen = true)
    (hcalls : s.main.calls d = d.keys.length)
    (hrun : (BTree.new 4).run d.inserts = .ok b) : s.tree4 = b := by
  have hmain := h.main
  have hall : (BTree.new 4).run (d.history.take d.keys.length) = .ok s.tree4 := by
    cases hm : s.main with
    | insert i =>
        rw [hm] at hmain hcalls
        exact hcalls ▸ hmain.2.2
    | inserting i rest =>
        rw [hm] at hmain hcalls
        exact absurd hcalls (Nat.ne_of_lt hmain.1)
    | barrier =>
        rw [hm] at hmain
        exact hmain.2
    | _ =>
        rw [hm] at ho
        exact Bool.noConfusion ho
  rw [Shuffles.take_history] at hall
  exact Except.ok.inj (hall.symm.trans hrun)

/-- In the state `s` no late search is astray. -/
def AllLate (d : Setup) (b : BTree) (s : State) : Prop :=
  ∀ w ∈ s.workers, ∀ c ∈ w.rounds, c.Late d b (s.main.calls d)

theorem Round.Late.calls {k' : Nat} (hc : c.Late d b k)
    (hk : k = d.keys.length → k' = d.keys.length) : c.Late d b k' := by
  cases c with
  | searching key pl seen =>
      intro heq
      obtain ⟨hk', hanswers⟩ := hc heq
      exact ⟨hk hk', hanswers⟩
  | _ => exact hc

theorem allLate_step (hrun : (BTree.new 4).run d.inserts = .ok b) (h : Inv d g s)
    (hlate : AllLate d b s) (hstep : Step d s s') : AllLate d b s' := by
  have hcalls := h.calls_step hstep
  cases hstep with
  | @work A B w w' n hw hstep =>
      have hmem : w ∈ s.workers := hw ▸ by simp
      have ho := h.isOpen hmem hstep.unfinished
      have hexist : ∀ key, ∃ found, BTree.exist (BTreeNode.readWith d.garbage)
          b.root key b.mem = .ok (found, b.mem) := by
        obtain ⟨b', L, hrun', -, hb, -⟩ := d.inserts_stores (by decide : 2 ≤ 4)
        obtain rfl := Except.ok.inj (hrun.symm.trans hrun')
        intro key
        obtain ⟨found, hfound, -⟩ :=
          hb.exist (BTreeNode.reads_with d.garbage b.mem) key
        exact ⟨found, hfound⟩
      have hseen : s.main.seen d = d.keys → s.main.calls d = d.keys.length := by
        intro heq
        have hle := h.calls_le
        have hlen := congrArg List.length heq
        rw [Main.seen, List.length_take] at hlen
        omega
      have hbefore : ∀ x ∈ A ++ w :: B, ∀ c ∈ x.rounds,
          c.Late d b (s.main.calls d) := hw ▸ hlate
      refine forall_middle hbefore (hstep.late fun c c' hround => ?_)
      exact hround.late hexist hseen fun hk => h.tree_of_calls ho hk hrun
  | _ =>
      intro w hw c hc
      exact (hlate w hw c hc).calls hcalls

end Late

/-- A search that begins when all insertions have returned gives the answer of
`exist` on the tree of all keys.  So a key is missed only by a search that began
before. -/
theorem late_searches (d : Setup) (s : State) (h : d.Reachable s) :
    ∃ b, (BTree.new 4).run d.inserts = .ok b ∧
      ∀ w ∈ s.workers, ∀ key found, .answered key found d.keys ∈ w.rounds →
        BTree.exist (BTreeNode.readWith d.garbage) b.root key b.mem =
          .ok (found, b.mem) ∧ (key ∈ d.keys → found = true) := by
  obtain ⟨b, L, hrun, -, hb, hperm⟩ := d.inserts_stores (by decide : 2 ≤ 4)
  have hreach : ReflTransGen (Step d) d.init s := h
  have hinit : AllLate d b d.init := by
    intro w hw c hc
    rw [(List.mem_replicate.mp hw).2] at hc
    exact absurd hc List.not_mem_nil
  have hall : (∃ g, Inv d g s) ∧ AllLate d b s := by
    refine invariant_run (I := fun s => (∃ g, Inv d g s) ∧ AllLate d b s) ?_ hreach
      ⟨⟨_, inv_init d⟩, hinit⟩
    rintro s s' ⟨⟨g, hg⟩, hlate⟩ hstep
    exact ⟨inv_step hg hstep, allLate_step hrun hg hlate hstep⟩
  refine ⟨b, hrun, fun w hw key found hc => ?_⟩
  have hfound := hall.2 w hw _ hc rfl
  refine ⟨hfound, fun hkey => ?_⟩
  obtain ⟨r, hr, hiff⟩ := hb.exist (BTreeNode.reads_with d.garbage b.mem) key
  obtain rfl : r = found :=
    congrArg Prod.fst (Except.ok.inj (hr.symm.trans hfound))
  exact hiff.mpr (Or.inl (hperm.symm.subset hkey))

/-- The witness run of `late_searches`: both keys are inserted, then the one other
thread searches for one of them. -/
theorem late_searches_two :
    let d : Setup := ⟨⟨[1, 0], [0, 1], .swap 1 0 []⟩, by decide, 2, by decide,
      1, by decide, 1, fun _ _ => 0⟩
    ∃ s, d.Reachable s ∧
      (∃ w ∈ s.workers, .answered 0 true d.keys ∈ w.rounds) ∧
      ∃ b, (BTree.new 4).run d.inserts = .ok b ∧
        ∀ w ∈ s.workers, ∀ key found, .answered key found d.keys ∈ w.rounds →
          BTree.exist (BTreeNode.readWith d.garbage) b.root key b.mem =
            .ok (found, b.mem) ∧ (key ∈ d.keys → found = true) := by
  intro d
  obtain ⟨b, L, hrun, -, hb, hperm⟩ := d.inserts_stores (by decide : 2 ≤ 4)
  obtain ⟨found, hfound, hiff⟩ := hb.exist (BTreeNode.reads_with d.garbage b.mem) 0
  obtain rfl : found = true :=
    hiff.mpr (Or.inl (hperm.symm.subset (by decide : (0 : Int) ∈ d.keys)))
  obtain ⟨tree, hrun', hreach⟩ := inserting d d.keys.length (Nat.le_refl _)
  rw [Shuffles.take_history] at hrun'
  obtain rfl := Except.ok.inj (hrun.symm.trans hrun')
  obtain ⟨nthreads, B, D, hcall⟩ :=
    begin_run (by decide : 2 ≤ d.omp_get_num_threads) (by decide) hreach 0
  have hend := hcall.trans (answer_run (Search.answers_of_exist hfound) rfl)
  refine ⟨_, hend, ⟨_, List.mem_append_right _ List.mem_cons_self, ?_⟩,
    late_searches d _ hend⟩
  exact List.mem_append_right _ List.mem_cons_self

end ParallelBTree.Ports.Openmp
