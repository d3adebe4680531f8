import ParallelBTree.Ports.Search
import ParallelBTree.Ports.Shuffles
import ParallelBTree.Verified.Interleaving
import ParallelBTree.Verified.Loop
import ParallelBTree.Verified.Progress

/-!
# `cpp11.cpp`

The driver as a step relation on the states of `main` and of the functions that
it has started with `std::async`.  Each of these draws a key and calls `exist`,
one node a step, and any of them or `main` may make the next step.  There is no
lock: `main` makes its own calls before it starts the first function and after
it has waited for the last one.

With a negative `task_size` the loop that starts the functions does not end: its
counter comes to `INT_MAX`, and there is no step from there.

## Main results

* `searches_isolated` — no search overlaps a change, and every answer is that of
  `exist` on the tree of all keys.
* `tasks_finish_iff` — when `main` returns.
-/

namespace ParallelBTree.Ports.Cpp11

open Relation
open ParallelBTree.Verified.Program
open ParallelBTree.Verified.Interleaving
open ParallelBTree.Verified.Loop
open ParallelBTree.Verified.Progress
open ParallelBTree.Ports.NodeMemory
open ParallelBTree.Ports.BTree

/-- What a run of the driver depends on besides the schedule: the two shuffles of
`keys`, the argument, and what memory holds where no key was ever written. -/
structure Setup extends Shuffles where
  task_size : Int32
  garbage : Addr → Nat → Int

/-- Where `main` is. -/
inductive Main where
  /-- in the `for_each` that inserts -/
  | insert (i : Nat)
  /-- at `i != task_size` -/
  | launch (i : Int32)
  /-- before `++i` -/
  | pushed (i : Int32)
  /-- in the `for_each` over `futures` -/
  | wait (j : Nat)
  /-- in the `for_each` that removes -/
  | remove (i : Nat)
  | returned
  deriving DecidableEq, Repr

structure State where
  tree4 : BTree
  main : Main
  /-- what `futures` refers to -/
  futures : List Search.Call

def Setup.init (_ : Setup) : State where
  tree4 := .new 4
  main := .insert 0
  futures := []

inductive Step (d : Setup) : State → State → Prop where
  | insert {s : State} {i : Nat} {key : Int} {r : Bool} {tree : BTree}
      (hm : s.main = .insert i) (hkey : d.keys[i]? = some key)
      (hexec : s.tree4.exec (.insert key) = .ok (r, tree)) :
      Step d s { s with tree4 := tree, main := .insert (i + 1) }
  | inserted {s : State} (hm : s.main = .insert d.keys.length) :
      Step d s { s with main := .launch 0 }
  | launch {s : State} {i : Int32} (hm : s.main = .launch i)
      (hi : i ≠ d.task_size) :
      Step d s { s with main := .pushed i, futures := s.futures ++ [.waiting] }
  | count {s : State} {i i' : Int32} (hm : s.main = .pushed i)
      (hi : succ32 i = some i') :
      Step d s { s with main := .launch i' }
  | launched {s : State} (hm : s.main = .launch d.task_size) :
      Step d s { s with main := .wait 0 }
  | wait {s : State} {j : Nat} {c : Search.Call} (hm : s.main = .wait j)
      (hc : s.futures[j]? = some c) (hdone : c.isAnswered = true) :
      Step d s { s with main := .wait (j + 1) }
  | waited {s : State} (hm : s.main = .wait s.futures.length) :
      Step d s { s with main := .remove 0 }
  | remove {s : State} {i : Nat} {key : Int} {r : Bool} {tree : BTree}
      (hm : s.main = .remove i) (hkey : d.removals[i]? = some key)
      (hexec : s.tree4.exec (.remove key) = .ok (r, tree)) :
      Step d s { s with tree4 := tree, main := .remove (i + 1) }
  | removed {s : State} (hm : s.main = .remove d.removals.length) :
      Step d s { s with main := .returned }
  | search {s : State} {A B : List Search.Call} {c c' : Search.Call}
      (hc : s.futures = A ++ c :: B)
      (hstep : Search.Step d.garbage s.tree4 c c') :
      Step d s { s with futures := A ++ c' :: B }

/-- The states that some interleaving leads to. -/
def Setup.Reachable (d : Setup) (s : State) : Prop :=
  ReflTransGen (Step d) d.init s

/-! ## What holds in every reachable state -/

/-- The calls that change the tree and have ended. -/
def Main.calls (d : Setup) : Main → Nat
  | .insert i => i
  | .launch _ | .pushed _ | .wait _ => d.keys.length
  | .remove i => d.keys.length + i
  | .returned => d.keys.length + d.removals.length

/-- Some function may still be searching. -/
def Main.isOpen : Main → Bool
  | .launch _ | .pushed _ | .wait _ => true
  | _ => false

/-- The functions that have been started. -/
def Main.launched (d : Setup) : Main → Int
  | .insert _ => 0
  | .launch i => i.toInt
  | .pushed i => i.toInt + 1
  | _ => d.task_size.toInt

/-- No loop of `main` runs past its end. -/
def Main.InRange (d : Setup) : Main → Prop
  | .insert i => i ≤ d.keys.length
  | .launch i => UpTo d.task_size i
  | .pushed i => Before d.task_size i
  | .wait j => 0 ≤ d.task_size.toInt ∧ (j : Int) ≤ d.task_size.toInt
  | .remove i => 0 ≤ d.task_size.toInt ∧ i ≤ d.removals.length
  | .returned => 0 ≤ d.task_size.toInt

/-- How far `main` has waited. -/
def Main.waited : Main → Nat
  | .wait j => j
  | _ => 0

/-- The tree is the one the ended calls make; while functions search it is the
tree of all keys, and afterwards all of them have their answers. -/
structure Inv (d : Setup) (s : State) : Prop where
  range : s.main.InRange d
  tree : (BTree.new 4).run (d.history.take (s.main.calls d)) = .ok s.tree4
  launched : (s.futures.length : Int) = s.main.launched d
  inTree : s.main.isOpen = true → ∀ c ∈ s.futures, c.InTree s.tree4
  closed : s.main.isOpen = false → ∀ c ∈ s.futures, c.isAnswered = true
  waited : ∀ c ∈ s.futures.take s.main.waited, c.isAnswered = true
  exact : ∀ b, (BTree.new 4).run d.inserts = .ok b →
    ∀ c ∈ s.futures, c.Exact d.garbage b

section Invariant

variable {d : Setup} {s s' : State}

theorem inv_init (d : Setup) : Inv d d.init where
  range := Nat.zero_le _
  tree := rfl
  launched := rfl
  inTree h := Bool.noConfusion h
  closed _ _ hc := nomatch hc
  waited _ hc := nomatch hc
  exact _ _ _ hc := nomatch hc

/-- `main` goes on from `m` to `m'`, and starts no function. -/
theorem Inv.advances (h : Inv d s) {m : Main} (hm : s.main = m) (m' : Main)
    {tree : BTree} (hrange : m'.InRange d)
    (htree : (BTree.new 4).run (d.history.take (m.calls d)) = .ok s.tree4 →
      (BTree.new 4).run (d.history.take (m'.calls d)) = .ok tree)
    (hlaunched : m'.launched d = m.launched d)
    (hopen : m'.isOpen = true →
      (m.isOpen = true ∧ tree = s.tree4) ∨ s.futures = [])
    (hclosed : m'.isOpen = false →
      m.isOpen = false ∨ ∀ c ∈ s.futures, c.isAnswered = true)
    (hwaited : ∀ c ∈ s.futures.take m'.waited, c.isAnswered = true) :
    Inv d { s with main := m', tree4 := tree } := by
  subst hm
  refine ⟨hrange, htree h.tree, h.launched.trans hlaunched.symm, ?_, ?_, hwaited,
    h.exact⟩
  · intro ho c hc
    have hfutures : c ∈ s.futures := hc
    rcases hopen ho with ⟨ho', rfl⟩ | hnone
    · exact h.inTree ho' c hc
    · rw [hnone] at hfutures
      exact absurd hfutures List.not_mem_nil
  · intro hcl c hc
    rcases hclosed hcl with hcl' | hall
    · exact h.closed hcl' c hc
    · exact hall c hc

/-- As long as functions search, the tree is that of all keys. -/
theorem Inv.run_inserts (h : Inv d s) (ho : s.main.isOpen = true) :
    (BTree.new 4).run d.inserts = .ok s.tree4 := by
  have htree := h.tree
  have hcalls : s.main.calls d = d.keys.length := by
    cases hm : s.main with
    | launch => rfl
    | pushed => rfl
    | wait => rfl
    | _ =>
        rw [hm] at ho
        exact Bool.noConfusion ho
  rwa [hcalls, d.take_history] at htree

theorem Inv.stores (h : Inv d s) : ∃ L, s.tree4.t = 4 ∧ s.tree4.Stores L := by
  obtain ⟨b, L, hrun, ht, hb⟩ :=
    d.take_stores (by decide : 2 ≤ 4) (s.main.calls d)
  obtain rfl := Except.ok.inj (hrun.symm.trans h.tree)
  exact ⟨L, ht, hb⟩

/-- A function that is searching has been started, and not all were waited
for. -/
theorem Inv.isOpen (h : Inv d s) {c : Search.Call} (hc : c ∈ s.futures)
    (hleft : c.isAnswered = false) : s.main.isOpen = true := by
  by_contra hcl
  rw [Bool.not_eq_true] at hcl
  exact Bool.noConfusion ((h.closed hcl c hc).symm.trans hleft)

/-- A function is started. -/
theorem Inv.starts (h : Inv d s) {i : Int32} (hm : s.main = .launch i)
    (hi : i ≠ d.task_size) :
    Inv d { s with main := .pushed i, futures := s.futures ++ [.waiting] } := by
  have hrange := h.range
  have htree := h.tree
  have hlaunched := h.launched
  have hin := h.inTree
  rw [hm] at hrange htree hlaunched hin
  refine ⟨hrange.before hi, htree, ?_, ?_, nofun, nofun, ?_⟩
  · have hlen : (s.futures.length : Int) = i.toInt := hlaunched
    show ((s.futures ++ [Search.Call.waiting]).length : Int) = i.toInt + 1
    rw [List.length_append, List.length_singleton]
    omega
  · intro _ c hc
    rcases List.mem_append.mp hc with hc | hc
    · exact hin rfl c hc
    · rw [List.mem_singleton.mp hc]
      trivial
  · intro b hb c hc
    rcases List.mem_append.mp hc with hc | hc
    · exact h.exact b hb c hc
    · rw [List.mem_singleton.mp hc]
      trivial

/-- A function makes a step. -/
theorem Inv.searches (h : Inv d s) {A B : List Search.Call}
    {c c' : Search.Call} (hc : s.futures = A ++ c :: B)
    (hstep : Search.Step d.garbage s.tree4 c c') :
    Inv d { s with futures := A ++ c' :: B } := by
  have hmem : c ∈ s.futures := hc ▸ by simp
  have ho := h.isOpen hmem hstep.not_answered
  obtain ⟨L, ht, hL⟩ := h.stores
  have hin := h.inTree ho c hmem
  refine ⟨h.range, h.tree, ?_, ?_, ?_, ?_, ?_⟩
  · rw [← h.launched, hc]
    simp
  · intro _
    refine forall_middle (hc ▸ h.inTree ho) fun hin => ?_
    exact (hstep.inTree hL (Nat.le_refl _) (by rw [ht]; decide) hin).1
  · exact fun hcl => Bool.noConfusion (ho.symm.trans hcl)
  · -- the functions that were waited for have their answers
    have hwaited := h.waited
    rw [hc] at hwaited
    have hle : s.main.waited ≤ A.length := by
      by_contra hlt
      have hget : ((A ++ c :: B).take s.main.waited)[A.length]? = some c := by
        rw [List.getElem?_take_of_lt (Nat.lt_of_not_le hlt)]
        simp
      exact Bool.noConfusion
        ((hwaited c (List.mem_of_getElem? hget)).symm.trans hstep.not_answered)
    rw [List.take_append_of_le_length hle] at hwaited
    show ∀ x ∈ (A ++ c' :: B).take s.main.waited, x.isAnswered = true
    rwa [List.take_append_of_le_length hle]
  · intro b hb
    obtain rfl := Except.ok.inj ((h.run_inserts ho).symm.trans hb)
    exact forall_middle (hc ▸ h.exact _ hb) (hstep.exact hL hin)

theorem inv_step (h : Inv d s) (hstep : Step d s s') : Inv d s' := by
  have hrange := h.range
  have hlaunched := h.launched
  have hwaited := h.waited
  cases hstep with
  | @insert i key r tree hm hkey hexec =>
      have hlt : i < d.keys.length := (List.getElem?_eq_some_iff.mp hkey).1
      exact h.advances hm _ hlt
        (run_take_succ (Shuffles.history_insert hkey) hexec) rfl nofun
        (fun _ => Or.inl rfl) nofun
  | inserted hm =>
      rw [hm] at hlaunched
      have hnone : s.futures = [] :=
        List.length_eq_zero_iff.mp (Int.natCast_eq_zero.mp hlaunched)
      exact h.advances hm _ (upTo_zero _) id rfl (fun _ => Or.inr hnone) nofun
        nofun
  | launch hm hi => exact h.starts hm hi
  | count hm hi =>
      rw [hm] at hrange
      exact h.advances hm _ (hrange.next hi) id (succ32_eq_some hi).2
        (fun _ => Or.inl ⟨rfl, rfl⟩) nofun nofun
  | launched hm =>
      rw [hm] at hrange
      exact h.advances hm _ ⟨hrange.1, hrange.1⟩ id rfl
        (fun _ => Or.inl ⟨rfl, rfl⟩) nofun nofun
  | @wait j c hm hc hdone =>
      rw [hm] at hrange hlaunched hwaited
      have hlt : j < s.futures.length := (List.getElem?_eq_some_iff.mp hc).1
      have hlen : (s.futures.length : Int) = d.task_size.toInt := hlaunched
      refine h.advances hm _ ⟨hrange.1, by omega⟩ id rfl
        (fun _ => Or.inl ⟨rfl, rfl⟩) nofun ?_
      intro x hx
      rw [Main.waited, List.take_add_one, hc] at hx
      rcases List.mem_append.mp hx with hx | hx
      · exact hwaited x hx
      · rwa [List.mem_singleton.mp hx]
  | waited hm =>
      rw [hm] at hrange hwaited
      rw [Main.waited, List.take_length] at hwaited
      exact h.advances hm _ ⟨hrange.1, Nat.zero_le _⟩ id rfl nofun
        (fun _ => Or.inr hwaited) nofun
  | @remove i key r tree hm hkey hexec =>
      have hlt : i < d.removals.length := (List.getElem?_eq_some_iff.mp hkey).1
      rw [hm] at hrange
      exact h.advances hm _ ⟨hrange.1, hlt⟩
        (run_take_succ (Shuffles.history_remove hkey) hexec) rfl nofun
        (fun _ => Or.inl rfl) nofun
  | removed hm =>
      rw [hm] at hrange
      exact h.advances hm _ hrange.1 id rfl nofun (fun _ => Or.inl rfl) nofun
  | search hc hstep => exact h.searches hc hstep

theorem inv_reachable (h : d.Reachable s) : Inv d s := by
  have hrun : ReflTransGen (Step d) d.init s := h
  exact invariant_run (I := Inv d) (fun _ _ hinv hstep => inv_step hinv hstep)
    hrun (inv_init d)

end Invariant

/-! ## Searches and changes -/

/-- A call that changes the tree may be in progress. -/
def Main.Changes : Main → Prop
  | .insert _ | .remove _ => True
  | _ => False

/-- In every reachable state: while a function is searching, `main` makes no call
that changes the tree; every answer is that of `exist` on the tree of all keys,
and true exactly if the key is one of them or a dead slot on the search path
holds it; and when `main` returns, all functions that were asked for have been
started and have their answers, and every node that was created is deleted. -/
theorem searches_isolated (d : Setup) (s : State) (h : d.Reachable s) :
    (∀ c ∈ s.futures, c.isVisiting = true → ¬ s.main.Changes) ∧
    (∃ b L, (BTree.new 4).run d.inserts = .ok b ∧ b.contents = .ok L ∧
      L.Perm d.keys ∧ ∀ key found tree,
        .answered key found tree ∈ s.futures → tree = b ∧
          BTree.exist (BTreeNode.readWith d.garbage) b.root key b.mem =
            .ok (found, b.mem) ∧
          (found = true ↔ key ∈ d.keys ∨
            b.Misleads (BTreeNode.pastValue d.garbage b.mem) key)) ∧
    (s.main = .returned → (s.futures.length : Int) = d.task_size.toInt ∧
      (∀ c ∈ s.futures, c.isAnswered = true) ∧ s.tree4.root = none ∧
      s.tree4.mem.deleted.Perm (List.range s.tree4.mem.nodes.length)) := by
  have hinv := inv_reachable h
  refine ⟨?_, ?_, ?_⟩
  · intro c hc hvisit hchanges
    have hleft : c.isAnswered = false := by
      cases c with
      | answered => exact Bool.noConfusion hvisit
      | _ => rfl
    have ho := hinv.isOpen hc hleft
    cases hm : s.main with
    | launch => exact (hm ▸ hchanges : (Main.launch _).Changes)
    | pushed => exact (hm ▸ hchanges : (Main.pushed _).Changes)
    | wait => exact (hm ▸ hchanges : (Main.wait _).Changes)
    | _ =>
        rw [hm] at ho
        exact Bool.noConfusion ho
  · obtain ⟨b, L, hrun, -, hb, hperm⟩ := d.inserts_stores (by decide : 2 ≤ 4)
    refine ⟨b, L, hrun, hb.contents, hperm, ?_⟩
    intro key found tree hmem
    obtain ⟨rfl, hexist⟩ := hinv.exact b hrun _ hmem
    obtain ⟨found', hexist', hfound⟩ :=
      hb.exist (BTreeNode.reads_with d.garbage tree.mem) key
    obtain rfl : found = found' :=
      congrArg Prod.fst (Except.ok.inj (hexist.symm.trans hexist'))
    exact ⟨rfl, hexist, by rw [hfound, hperm.mem_iff]⟩
  · intro hm
    have htree := hinv.tree
    have hlaunched := hinv.launched
    have hclosed := hinv.closed
    rw [hm] at htree hlaunched hclosed
    obtain ⟨b, hrun, hb⟩ := d.history_vacant (by decide : 2 ≤ 4)
    have hall : d.history.take (Main.returned.calls d) = d.history := by
      rw [Main.calls, ← d.length_history]
      exact List.take_length
    rw [hall] at htree
    obtain rfl := Except.ok.inj (hrun.symm.trans htree)
    exact ⟨hlaunched, hclosed rfl, hb.root, hb.accounts⟩

/-! ## The steps that are left -/

/-- The steps `main` has left, and those of the functions it has not started. -/
def Main.rank (d : Setup) : Main → Nat
  | .insert i => d.keys.length - i +
      d.task_size.toInt.toNat * (d.keys.length + 5) +
      d.task_size.toInt.toNat + d.removals.length + 4
  | .launch i => (d.task_size.toInt - i.toInt).toNat * (d.keys.length + 5) +
      d.task_size.toInt.toNat + d.removals.length + 3
  | .pushed i => (d.task_size.toInt - (i.toInt + 1)).toNat *
      (d.keys.length + 5) + d.task_size.toInt.toNat + d.removals.length + 4
  | .wait j => d.task_size.toInt.toNat - j + d.removals.length + 2
  | .remove i => d.removals.length - i + 1
  | .returned => 0

/-- The steps that are left, at most. -/
def State.rank (d : Setup) (s : State) : Nat :=
  s.main.rank d + (s.futures.map (Search.Call.rank d.keys.length s.tree4)).sum

section Rank

variable {d : Setup} {s s' : State}

/-- The functions that have their answers have nothing left to do. -/
theorem rank_answered (bound : Nat) (tree : BTree) {L : List Search.Call}
    (h : ∀ c ∈ L, c.isAnswered = true) :
    (L.map (Search.Call.rank bound tree)).sum = 0 := by
  apply List.sum_eq_zero
  intro x hx
  obtain ⟨c, hc, rfl⟩ := List.mem_map.mp hx
  have hdone := h c hc
  cases c with
  | answered => rfl
  | _ => exact Bool.noConfusion hdone

theorem Inv.rank_lt (h : Inv d s) (htasks : 0 ≤ d.task_size.toInt)
    (hstep : Step d s s') : s'.rank d < s.rank d := by
  have hrange := h.range
  have hlaunched := h.launched
  have hclosed := h.closed
  unfold State.rank
  cases hstep with
  | @insert i key r tree hm hkey =>
      have hlt : i < d.keys.length := (List.getElem?_eq_some_iff.mp hkey).1
      rw [hm] at hclosed
      rw [rank_answered _ tree (hclosed rfl), hm]
      simp only [Main.rank]
      omega
  | inserted hm =>
      rw [hm]
      simp only [Main.rank, Int32.toInt_zero, Int.sub_zero]
      omega
  | @launch i hm hi =>
      rw [hm] at hrange
      have hlt := (hrange.before hi).2 htasks
      have hleft : (d.task_size.toInt - i.toInt).toNat =
          (d.task_size.toInt - (i.toInt + 1)).toNat + 1 := by omega
      rw [hm, List.map_append, List.sum_append]
      simp only [Main.rank, Search.Call.rank, hleft, Nat.succ_mul,
        List.map_cons, List.map_nil, List.sum_cons, List.sum_nil]
      omega
  | count hm hi =>
      rw [hm]
      simp only [Main.rank, (succ32_eq_some hi).2]
      omega
  | launched hm =>
      rw [hm]
      simp only [Main.rank]
      omega
  | @wait j c hm hc =>
      rw [hm] at hlaunched
      have hlen : (s.futures.length : Int) = d.task_size.toInt := hlaunched
      have hlt : j < s.futures.length := (List.getElem?_eq_some_iff.mp hc).1
      rw [hm]
      simp only [Main.rank]
      omega
  | waited hm =>
      rw [hm]
      simp only [Main.rank]
      omega
  | @remove i key r tree hm hkey =>
      have hlt : i < d.removals.length := (List.getElem?_eq_some_iff.mp hkey).1
      rw [hm] at hclosed
      rw [rank_answered _ tree (hclosed rfl), hm]
      simp only [Main.rank]
      omega
  | removed hm =>
      rw [hm]
      simp only [Main.rank]
      omega
  | @search A B c c' hc hstep =>
      have hmem : c ∈ s.futures := hc ▸ by simp
      have ho := h.isOpen hmem hstep.not_answered
      obtain ⟨b, L, hrun, ht, hL, hperm⟩ := d.inserts_stores (by decide : 2 ≤ 4)
      obtain rfl := Except.ok.inj (hrun.symm.trans (h.run_inserts ho))
      have hlt : c'.rank d.keys.length s.tree4 < c.rank d.keys.length s.tree4 :=
        (hstep.inTree hL (Nat.le_of_eq hperm.length_eq) (by rw [ht]; decide)
          (h.inTree ho c hmem)).2
      show s.main.rank d + ((A ++ c' :: B).map
        (Search.Call.rank d.keys.length s.tree4)).sum < _
      rw [hc, sum_middle, sum_middle]
      omega

/-- Unless `main` has returned, it or a function it waits for can make a step. -/
theorem Inv.steps (h : Inv d s) (htasks : 0 ≤ d.task_size.toInt)
    (hlive : s.main ≠ .returned) : ∃ s', Step d s s' := by
  have hrange := h.range
  have hlaunched := h.launched
  have hin := h.inTree
  obtain ⟨L, ht, hL⟩ := h.stores
  cases hm : s.main with
  | insert i =>
      rw [hm] at hrange
      rcases Nat.lt_or_eq_of_le hrange with hlt | rfl
      · obtain ⟨r, tree, hexec, -⟩ :=
          hL.exec (by rw [ht]; decide) (.insert d.keys[i])
        exact ⟨_, .insert hm (List.getElem?_eq_getElem hlt) hexec⟩
      · exact ⟨_, .inserted hm⟩
  | launch i =>
      by_cases hi : i = d.task_size
      · subst hi
        exact ⟨_, .launched hm⟩
      · exact ⟨_, .launch hm hi⟩
  | pushed i =>
      rw [hm] at hrange
      obtain ⟨i', hi⟩ := hrange.exists_next htasks
      exact ⟨_, .count hm hi⟩
  | wait j =>
      rw [hm] at hrange hlaunched hin
      have hlen : (s.futures.length : Int) = d.task_size.toInt := hlaunched
      have hle : j ≤ s.futures.length := by
        have hj : (j : Int) ≤ d.task_size.toInt := hrange.2
        omega
      rcases Nat.lt_or_eq_of_le hle with hlt | rfl
      · have hget := List.getElem?_eq_getElem hlt
        cases hdone : s.futures[j].isAnswered with
        | true => exact ⟨_, .wait hm hget hdone⟩
        | false =>
            have hmem := List.getElem_mem hlt
            obtain ⟨A, B, hAB⟩ := List.append_of_mem hmem
            obtain ⟨c', hstep⟩ := (hin rfl _ hmem).steps 0 hdone
            exact ⟨_, .search hAB hstep⟩
      · exact ⟨_, .waited hm⟩
  | remove i =>
      rw [hm] at hrange
      rcases Nat.lt_or_eq_of_le hrange.2 with hlt | rfl
      · obtain ⟨r, tree, hexec, -⟩ :=
          hL.exec (by rw [ht]; decide) (.remove d.removals[i])
        exact ⟨_, .remove hm (List.getElem?_eq_getElem hlt) hexec⟩
      · exact ⟨_, .removed hm⟩
  | returned => exact absurd hm hlive

end Rank

theorem inevitable_returned (d : Setup) (htasks : 0 ≤ d.task_size.toInt) :
    Inevitable (Step d) (fun s => s.main = .returned) d.init := by
  refine Inevitable.of_rank (I := Inv d) (State.rank d) ?_ ?_ (inv_init d)
  · exact fun s hs => hs.steps htasks
  · exact fun s s' hs hstep => ⟨inv_step hs hstep, hs.rank_lt htasks hstep⟩

/-- Under every schedule `main` returns, if the number of requests is not
negative; otherwise no schedule makes it return before the counter overflows. -/
theorem tasks_finish_iff (d : Setup) :
    (Inevitable (Step d) (fun s => s.main = .returned) d.init ↔
      0 ≤ d.task_size.toInt) ∧
    ((∃ s, d.Reachable s ∧ s.main = .returned) ↔ 0 ≤ d.task_size.toInt) := by
  have hreach : (∃ s, d.Reachable s ∧ s.main = .returned) → 0 ≤ d.task_size.toInt := by
    rintro ⟨s, hs, hm⟩
    have hrange := (inv_reachable hs).range
    rwa [hm] at hrange
  exact ⟨⟨fun h => hreach h.exists_run, inevitable_returned d⟩,
    ⟨hreach, fun h => (inevitable_returned d h).exists_run⟩⟩

/-- The witness run of `searches_isolated`: two functions are started, and `main`
returns. -/
theorem searches_isolated_two :
    let d : Setup := ⟨⟨[1, 0], [0, 1], .swap 1 0 []⟩, 2, fun _ _ => 0⟩
    ∃ s, d.Reachable s ∧ s.main = .returned ∧
      (∀ c ∈ s.futures, c.isVisiting = true → ¬ s.main.Changes) ∧
      (∃ b L, (BTree.new 4).run d.inserts = .ok b ∧ b.contents = .ok L ∧
        L.Perm d.keys ∧ ∀ key found tree,
          .answered key found tree ∈ s.futures → tree = b ∧
            BTree.exist (BTreeNode.readWith d.garbage) b.root key b.mem =
              .ok (found, b.mem) ∧
            (found = true ↔ key ∈ d.keys ∨
              b.Misleads (BTreeNode.pastValue d.garbage b.mem) key)) ∧
      (s.main = .returned → (s.futures.length : Int) = d.task_size.toInt ∧
        (∀ c ∈ s.futures, c.isAnswered = true) ∧ s.tree4.root = none ∧
        s.tree4.mem.deleted.Perm (List.range s.tree4.mem.nodes.length)) := by
  intro d
  obtain ⟨s, hreach, hm⟩ := (inevitable_returned d (by decide)).exists_run
  exact ⟨s, hreach, hm, searches_isolated d s hreach⟩

end ParallelBTree.Ports.Cpp11
