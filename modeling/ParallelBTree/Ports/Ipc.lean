import ParallelBTree.Ports.Exist
import ParallelBTree.Verified.Interleaving
import ParallelBTree.Verified.Loop

/-!
# `ipc.cpp`

The driver as a step relation on the states of its processes: the parent and the
children it forks.  The two calls on the semaphore and what stands between them
are separate steps, and any process may make the next one.  A child works on a
copy of the tree, taken when it was forked; only the semaphore is shared.

`fork` always succeeds.  `wait` returns when some child has exited that was not
waited for yet, and fails when there is no child left.

With a negative `task_num` the loop of a child does not end.  When its counter
gets to `INT_MAX`, `j++` has no result any more; the child is not blocked there,
but nothing that it does changes the state.

## Main results

* `semaphore_protocol` — the semaphore counts the processes between `sem_wait`
  and `sem_post`, no interleaving gets stuck, and what every one ends with.
-/

namespace ParallelBTree.Ports.Ipc

open Relation
open ParallelBTree.Verified.Program
open ParallelBTree.Verified.Interleaving
open ParallelBTree.Verified.Loop
open ParallelBTree.Ports.NodeMemory
open ParallelBTree.Ports.BTree

/-- What a run of the driver depends on besides the schedule: `keys` after the
first and after the second shuffle, the constants, the value of `task_num`, and
what memory holds where no key was ever written. -/
structure Setup where
  keys : List Int
  removals : List Int
  shuffled : removals.Perm keys
  thread_num : Nat
  task_num : Int32
  sem_num : Nat
  /-- `hardware_concurrency` knows the machine -/
  processors : 1 ≤ sem_num
  garbage : Addr → Nat → Int

/-- The calls of the first loop over `keys`. -/
def Setup.inserts (d : Setup) : List Op := d.keys.map .insert

/-- The calls of the `for_each`. -/
def Setup.removes (d : Setup) : List Op := d.removals.map .remove

/-- All calls that change the parent's tree, one after the other. -/
def Setup.history (d : Setup) : List Op := d.inserts ++ d.removes

/-! ## Processes -/

/-- Where the parent is. -/
inductive Parent where
  /-- in the loop that inserts -/
  | insert (i : Nat)
  /-- in the loop that forks -/
  | fork (i : Nat)
  /-- in the `for_each`, before `sem_wait` -/
  | outside (i : Nat)
  /-- before the call of `remove` -/
  | inside (i : Nat)
  /-- before `sem_post` -/
  | removed (i : Nat)
  /-- before a call of `wait` -/
  | wait
  | returned
  deriving DecidableEq, Repr

/-- Where a child is. -/
inductive Place where
  /-- at `j != task_num` -/
  | loop (j : Int32)
  /-- before `sem_wait` -/
  | outside (j : Int32)
  /-- before the call of `exist` -/
  | inside (j : Int32)
  /-- before `sem_post` -/
  | searched (j : Int32)
  /-- before `j++` -/
  | posted (j : Int32)
  | exited
  /-- exited, and the parent has waited for it -/
  | reaped
  deriving DecidableEq, Repr

/-- A child, its own `tree4`, and the trees it has made its searches on; the list
of these is a ghost. -/
structure Child where
  tree4 : BTree
  searches : List BTree
  place : Place

structure State where
  mutex : Semaphore
  tree4 : BTree
  parent : Parent
  /-- in the order in which they were forked -/
  children : List Child

def Setup.init (d : Setup) : State where
  mutex := ⟨d.sem_num⟩
  tree4 := .new 4
  parent := .insert 0
  children := []

/-- Between `sem_wait` and `sem_post`. -/
def Parent.isInside : Parent → Bool
  | .inside _ | .removed _ => true
  | _ => false

def Child.isInside (c : Child) : Bool :=
  match c.place with
  | .inside _ | .searched _ => true
  | _ => false

/-- How many processes are between `sem_wait` and `sem_post`. -/
def State.inside (s : State) : Nat :=
  s.children.countP Child.isInside + s.parent.isInside.toNat

def Child.Exited (c : Child) : Prop := c.place = .exited ∨ c.place = .reaped

/-- Every process has finished. -/
def State.Finished (s : State) : Prop :=
  s.parent = .returned ∧ ∀ c ∈ s.children, c.Exited

/-! ## Steps -/

/-- One step of a child. -/
inductive ChildStep (d : Setup) : Semaphore × Child → Semaphore × Child → Prop where
  | next {v tree ts j} (hj : j ≠ d.task_num) :
      ChildStep d (v, ⟨tree, ts, .loop j⟩) (v, ⟨tree, ts, .outside j⟩)
  | exit {v tree ts} :
      ChildStep d (v, ⟨tree, ts, .loop d.task_num⟩) (v, ⟨tree, ts, .exited⟩)
  | sem_wait {v tree ts j} (hv : v.CanWait) :
      ChildStep d (v, ⟨tree, ts, .outside j⟩) (v.wait, ⟨tree, ts, .inside j⟩)
  | search {v tree ts j found m} (key : Int)
      (hexist : BTree.exist (BTreeNode.readWith d.garbage) tree.root key
        tree.mem = .ok (found, m)) :
      ChildStep d (v, ⟨tree, ts, .inside j⟩)
        (v, ⟨{ tree with mem := m }, ts ++ [tree], .searched j⟩)
  | sem_post {v tree ts j} :
      ChildStep d (v, ⟨tree, ts, .searched j⟩) (v.post, ⟨tree, ts, .posted j⟩)
  | count {v tree ts j j'} (hj : succ32 j = some j') :
      ChildStep d (v, ⟨tree, ts, .posted j⟩) (v, ⟨tree, ts, .loop j'⟩)
  /-- at `INT_MAX` -/
  | overflow {v tree ts j} (hj : succ32 j = none) :
      ChildStep d (v, ⟨tree, ts, .posted j⟩) (v, ⟨tree, ts, .posted j⟩)

inductive Step (d : Setup) : State → State → Prop where
  | insert {s : State} {i : Nat} {key : Int} {r : Bool} {tree : BTree}
      (hp : s.parent = .insert i) (hkey : d.keys[i]? = some key)
      (hexec : s.tree4.exec (.insert key) = .ok (r, tree)) :
      Step d s { s with tree4 := tree, parent := .insert (i + 1) }
  | inserted {s : State} (hp : s.parent = .insert d.keys.length) :
      Step d s { s with parent := .fork 0 }
  | fork {s : State} {i : Nat} (hp : s.parent = .fork i)
      (hi : i ≠ d.thread_num) :
      Step d s { s with
        parent := .fork (i + 1)
        children := s.children ++ [⟨s.tree4, [], .loop 0⟩] }
  | forked {s : State} (hp : s.parent = .fork d.thread_num) :
      Step d s { s with parent := .outside 0 }
  | sem_wait {s : State} {i : Nat} (hp : s.parent = .outside i)
      (hi : i < d.removals.length) (hv : s.mutex.CanWait) :
      Step d s { s with mutex := s.mutex.wait, parent := .inside i }
  | remove {s : State} {i : Nat} {key : Int} {r : Bool} {tree : BTree}
      (hp : s.parent = .inside i) (hkey : d.removals[i]? = some key)
      (hexec : s.tree4.exec (.remove key) = .ok (r, tree)) :
      Step d s { s with tree4 := tree, parent := .removed i }
  | sem_post {s : State} {i : Nat} (hp : s.parent = .removed i) :
      Step d s { s with mutex := s.mutex.post, parent := .outside (i + 1) }
  | removed {s : State} (hp : s.parent = .outside d.removals.length) :
      Step d s { s with parent := .wait }
  | reap {s : State} {A B : List Child} {c : Child} (hp : s.parent = .wait)
      (hc : s.children = A ++ c :: B) (hexit : c.place = .exited) :
      Step d s { s with children := A ++ { c with place := .reaped } :: B }
  | waited {s : State} (hp : s.parent = .wait)
      (hall : ∀ c ∈ s.children, c.place = .reaped) :
      Step d s { s with parent := .returned }
  | child {s : State} {A B : List Child} {c c' : Child} {v : Semaphore}
      (hc : s.children = A ++ c :: B)
      (hstep : ChildStep d (s.mutex, c) (v, c')) :
      Step d s { s with mutex := v, children := A ++ c' :: B }

/-- The states that some interleaving leads to. -/
def Setup.Reachable (d : Setup) (s : State) : Prop :=
  ReflTransGen (Step d) d.init s

/-! ## What the calls make of the tree -/

private theorem inserts_perm (d : Setup) :
    (d.inserts.foldl sortedStep []).Perm d.keys := by
  have hperm := foldl_insert_perm d.keys []
  rwa [List.append_nil] at hperm

/-- The tree of all keys. -/
theorem inserts_stores (d : Setup) :
    ∃ b L, (BTree.new 4).run d.inserts = .ok b ∧ b.Stores L ∧
      L.Perm d.keys := by
  obtain ⟨b, hrun, -, h⟩ := run_stores (by decide : 2 ≤ 4) d.inserts
  exact ⟨b, _, hrun, h, inserts_perm d⟩

/-- Removing the keys, in whatever order, leaves nothing. -/
theorem history_stores (d : Setup) :
    ∃ b, (BTree.new 4).run d.history = .ok b ∧ b.Stores [] := by
  obtain ⟨b, hrun, -, h⟩ := run_stores (by decide : 2 ≤ 4) d.history
  refine ⟨b, hrun, ?_⟩
  rw [Setup.history, List.foldl_append, Setup.removes,
    foldl_remove_perm _ _ ((inserts_perm d).trans d.shuffled.symm)] at h
  exact h

/-! ## What holds in every reachable state -/

/-- The calls that change the parent's tree and have ended. -/
def Parent.calls (d : Setup) : Parent → Nat
  | .insert i => i
  | .fork _ => d.inserts.length
  | .outside i | .inside i => d.inserts.length + i
  | .removed i => d.inserts.length + (i + 1)
  | .wait | .returned => d.history.length

/-- The children that have been forked. -/
def Parent.forks (d : Setup) : Parent → Nat
  | .insert _ => 0
  | .fork i => i
  | _ => d.thread_num

/-- No loop of the parent runs past its end. -/
def Parent.InRange (d : Setup) : Parent → Prop
  | .insert i => i ≤ d.keys.length
  | .fork i => i ≤ d.thread_num
  | .outside i => i ≤ d.removals.length
  | .inside i | .removed i => i < d.removals.length
  | .wait | .returned => True

/-- The searches that have ended. -/
def Place.searches (d : Setup) : Place → Int
  | .loop j | .outside j | .inside j => j.toInt
  | .searched j | .posted j => j.toInt + 1
  | .exited | .reaped => d.task_num.toInt

/-- A child has the tree of all keys, and made its searches on it. -/
structure Child.Sound (d : Setup) (c : Child) : Prop where
  tree : (BTree.new 4).run d.inserts = .ok c.tree4
  own : ∀ tree ∈ c.searches, tree = c.tree4
  count : (c.searches.length : Int) = c.place.searches d

/-- The processes in their critical sections hold a permit each, the parent's
tree is the one the ended calls make, and the children are sound. -/
structure Inv (d : Setup) (s : State) : Prop where
  grants : s.mutex.Grants d.sem_num s.inside
  range : s.parent.InRange d
  tree : (BTree.new 4).run (d.history.take (s.parent.calls d)) = .ok s.tree4
  forks : s.children.length = s.parent.forks d
  sound : ∀ c ∈ s.children, c.Sound d

section ChildSteps

variable {d : Setup} {v v' : Semaphore} {c c' : Child}

theorem ChildStep.grants (h : ChildStep d (v, c) (v', c')) {n k : Nat}
    (hv : v.Grants n (k + c.isInside.toNat)) :
    v'.Grants n (k + c'.isInside.toNat) := by
  cases h with
  | next => exact hv
  | exit => exact hv
  | sem_wait hfree => exact hv.wait hfree
  | search => exact hv
  | sem_post => exact hv.post
  | count => exact hv
  | overflow => exact hv

theorem Child.Sound.search (h : c.Sound d) (key : Int) :
    ∃ found, BTree.exist (BTreeNode.readWith d.garbage) c.tree4.root key
      c.tree4.mem = .ok (found, c.tree4.mem) := by
  obtain ⟨b, L, hrun, hb, -⟩ := inserts_stores d
  obtain rfl := Except.ok.inj (hrun.symm.trans h.tree)
  obtain ⟨found, hexist, -⟩ :=
    hb.exist (BTreeNode.reads_with d.garbage c.tree4.mem) key
  exact ⟨found, hexist⟩

theorem Child.Sound.step (h : c.Sound d) (hstep : ChildStep d (v, c) (v', c')) :
    c'.Sound d := by
  cases hstep with
  | next => exact ⟨h.tree, h.own, h.count⟩
  | exit => exact ⟨h.tree, h.own, h.count⟩
  | sem_wait => exact ⟨h.tree, h.own, h.count⟩
  | @search _ tree ts j found m key hexist =>
      -- a search leaves the memory as it is
      obtain ⟨_, hsame⟩ := h.search key
      obtain rfl : m = tree.mem :=
        congrArg Prod.snd (Except.ok.inj (hexist.symm.trans hsame))
      refine ⟨h.tree, ?_, ?_⟩
      · intro tree' hmem
        rcases List.mem_append.mp hmem with hmem | hmem
        · exact h.own tree' hmem
        · exact List.mem_singleton.mp hmem
      · have hcount : (ts.length : Int) = j.toInt := h.count
        show ((ts ++ [tree]).length : Int) = j.toInt + 1
        rw [List.length_append, List.length_singleton]
        omega
  | sem_post => exact ⟨h.tree, h.own, h.count⟩
  | count hj => exact ⟨h.tree, h.own, h.count.trans (succ32_eq_some hj).2.symm⟩
  | overflow => exact h

/-- A child that has not exited can go on if it holds a permit or can get
one. -/
theorem Child.Sound.steps (h : c.Sound d) (hexit : ¬ c.Exited)
    (hv : v.CanWait ∨ c.isInside = true) :
    ∃ v' c', ChildStep d (v, c) (v', c') := by
  obtain ⟨tree, ts, place⟩ := c
  cases place with
  | loop j =>
      by_cases hj : j = d.task_num
      · subst hj
        exact ⟨_, _, .exit⟩
      · exact ⟨_, _, .next hj⟩
  | outside j =>
      have hfree : v.CanWait := hv.resolve_right Bool.false_ne_true
      exact ⟨_, _, .sem_wait hfree⟩
  | inside j =>
      obtain ⟨found, hexist⟩ := h.search 0
      exact ⟨_, _, .search 0 hexist⟩
  | searched j => exact ⟨_, _, .sem_post⟩
  | posted j =>
      cases hj : succ32 j with
      | some j' => exact ⟨_, _, .count hj⟩
      | none => exact ⟨_, _, .overflow hj⟩
  | exited => exact absurd (Or.inl rfl) hexit
  | reaped => exact absurd (Or.inr rfl) hexit

theorem Child.Sound.count_of_exited (h : c.Sound d) (hexit : c.Exited) :
    (c.searches.length : Int) = d.task_num.toInt := by
  rw [h.count]
  rcases hexit with hplace | hplace
  · rw [hplace]
    rfl
  · rw [hplace]
    rfl

end ChildSteps

section Invariant

variable {d : Setup} {s s' : State}

theorem length_inserts (d : Setup) : d.inserts.length = d.keys.length :=
  List.length_map _

theorem length_history (d : Setup) :
    d.history.length = d.inserts.length + d.removals.length := by
  rw [Setup.history, List.length_append, Setup.removes, List.length_map]

theorem inv_init (d : Setup) : Inv d d.init where
  grants := .full d.sem_num
  range := Nat.zero_le _
  tree := rfl
  forks := rfl
  sound _ hc := absurd hc List.not_mem_nil

/-- The parent goes on from `p` to `p'`. -/
theorem Inv.advances (h : Inv d s) {p : Parent} (hp : s.parent = p) (p' : Parent)
    {v : Semaphore} {tree : BTree}
    (hgrants : ∀ k, s.mutex.Grants d.sem_num (k + p.isInside.toNat) →
      v.Grants d.sem_num (k + p'.isInside.toNat))
    (hrange : p'.InRange d)
    (htree : (BTree.new 4).run (d.history.take (p.calls d)) = .ok s.tree4 →
      (BTree.new 4).run (d.history.take (p'.calls d)) = .ok tree)
    (hforks : p'.forks d = p.forks d) :
    Inv d { s with mutex := v, tree4 := tree, parent := p' } := by
  subst hp
  exact
    { grants := hgrants _ h.grants
      range := hrange
      tree := htree h.tree
      forks := h.forks.trans hforks.symm
      sound := h.sound }

/-- One child changes, and perhaps the semaphore with it. -/
theorem Inv.replace (h : Inv d s) {A B : List Child} {c : Child}
    (hc : s.children = A ++ c :: B) {c' : Child} {v : Semaphore}
    (hgrants : ∀ k, s.mutex.Grants d.sem_num (k + c.isInside.toNat) →
      v.Grants d.sem_num (k + c'.isInside.toNat))
    (hsound : c.Sound d → c'.Sound d) :
    Inv d { s with mutex := v, children := A ++ c' :: B } where
  grants := by
    have hbefore := h.grants
    rw [State.inside, hc, countP_middle, Nat.add_right_comm] at hbefore
    rw [State.inside, countP_middle, Nat.add_right_comm]
    exact hgrants _ hbefore
  range := h.range
  tree := h.tree
  forks := by
    rw [← h.forks, hc]
    simp
  sound := by
    intro x hx
    rcases List.mem_append.mp hx with hx | hx
    · exact h.sound x (hc ▸ List.mem_append_left _ hx)
    · rcases List.mem_cons.mp hx with rfl | hx
      · exact hsound (h.sound c (hc ▸ by simp))
      · exact h.sound x
          (hc ▸ List.mem_append_right A (List.mem_cons_of_mem c hx))

/-- A child starts with the tree that the insertions have made. -/
theorem Inv.spawns (h : Inv d s) {i : Nat} (hp : s.parent = .fork i)
    (hi : i ≠ d.thread_num) :
    Inv d { s with
      parent := .fork (i + 1)
      children := s.children ++ [⟨s.tree4, [], .loop 0⟩] } := by
  have htree := h.tree
  have hforks := h.forks
  have hrange := h.range
  have hgrants := h.grants
  rw [State.inside] at hgrants
  rw [hp] at htree hforks hrange hgrants
  constructor
  · have hcount : (s.children ++ [Child.mk s.tree4 [] (.loop 0)]).countP
        Child.isInside = s.children.countP Child.isInside := by
      rw [List.countP_append]
      rfl
    rw [State.inside, hcount]
    exact hgrants
  · exact Nat.lt_of_le_of_ne hrange hi
  · exact htree
  · rw [List.length_append, hforks]
    rfl
  · intro c hc
    rcases List.mem_append.mp hc with hc | hc
    · exact h.sound c hc
    · obtain rfl := List.mem_singleton.mp hc
      have hinserts : d.history.take d.inserts.length = d.inserts :=
        List.take_left
      refine ⟨?_, fun _ hmem => absurd hmem List.not_mem_nil, rfl⟩
      rw [← hinserts]
      exact htree

theorem inv_step (h : Inv d s) (hstep : Step d s s') : Inv d s' := by
  cases hstep with
  | @insert i key r tree hp hkey hexec =>
      have hlt : i < d.keys.length := (List.getElem?_eq_some_iff.mp hkey).1
      have hop : d.history[i]? = some (.insert key) := by
        rw [Setup.history, List.getElem?_append_left
          (by rwa [length_inserts]), Setup.inserts, List.getElem?_map, hkey]
        rfl
      exact h.advances hp _ (fun _ hk => hk) hlt (run_take_succ hop hexec) rfl
  | inserted hp =>
      have hcalls : (Parent.insert d.keys.length).calls d =
          (Parent.fork 0).calls d := (length_inserts d).symm
      exact h.advances hp _ (fun _ hk => hk) (Nat.zero_le _) (hcalls ▸ id) rfl
  | fork hp hi => exact h.spawns hp hi
  | forked hp =>
      exact h.advances hp _ (fun _ hk => hk) (Nat.zero_le _) id rfl
  | sem_wait hp hi hv =>
      exact h.advances hp _ (fun _ hk => hk.wait hv) hi id rfl
  | @remove i key r tree hp hkey hexec =>
      have hlt : i < d.removals.length := (List.getElem?_eq_some_iff.mp hkey).1
      have hop : d.history[d.inserts.length + i]? = some (.remove key) := by
        rw [Setup.history, List.getElem?_append_right (Nat.le_add_right _ _),
          Nat.add_sub_cancel_left, Setup.removes, List.getElem?_map, hkey]
        rfl
      exact h.advances hp _ (fun _ hk => hk) hlt (run_take_succ hop hexec) rfl
  | @sem_post i hp =>
      have hlt : i < d.removals.length := by
        have hrange := h.range
        rwa [hp] at hrange
      exact h.advances hp _ (fun _ hk => hk.post) hlt id rfl
  | removed hp =>
      have hcalls : (Parent.outside d.removals.length).calls d =
          Parent.wait.calls d := (length_history d).symm
      exact h.advances hp _ (fun _ hk => hk) trivial (hcalls ▸ id) rfl
  | @reap A B c hp hc hexit =>
      obtain ⟨tree, ts, place⟩ := c
      subst hexit
      exact h.replace hc (fun _ hk => hk) fun hc => ⟨hc.tree, hc.own, hc.count⟩
  | waited hp hall => exact h.advances hp _ (fun _ hk => hk) trivial id rfl
  | child hc hstep =>
      exact h.replace hc (fun _ => hstep.grants) fun hsound => hsound.step hstep

theorem inv_reachable (h : d.Reachable s) : Inv d s := by
  have hrun : ReflTransGen (Step d) d.init s := h
  exact invariant_run (I := Inv d) (fun _ _ hinv hstep => inv_step hinv hstep)
    hrun (inv_init d)

end Invariant

/-! ## The semaphore protocol -/

section Protocol

variable {d : Setup} {s : State}

/-- A call on the parent's tree returns. -/
theorem Inv.exec (h : Inv d s) (op : Op) :
    ∃ r tree, s.tree4.exec op = .ok (r, tree) := by
  obtain ⟨b, hrun, ht, hb⟩ :=
    run_stores (by decide : 2 ≤ 4) (d.history.take (s.parent.calls d))
  obtain rfl := Except.ok.inj (hrun.symm.trans h.tree)
  obtain ⟨r, tree, hexec, -⟩ := hb.exec (by rw [ht]; decide) op
  exact ⟨r, tree, hexec⟩

/-- The parent can go on, unless it waits for its children, if it holds a permit
or can get one. -/
theorem Inv.parent_steps (h : Inv d s)
    (hv : s.mutex.CanWait ∨ s.parent.isInside = true)
    (hwait : s.parent ≠ .wait) (hreturned : s.parent ≠ .returned) :
    ∃ s', Step d s s' := by
  have hrange := h.range
  cases hp : s.parent with
  | insert i =>
      rw [hp] at hrange
      rcases Nat.lt_or_eq_of_le hrange with hlt | rfl
      · obtain ⟨r, tree, hexec⟩ := h.exec (.insert d.keys[i])
        exact ⟨_, .insert hp (List.getElem?_eq_getElem hlt) hexec⟩
      · exact ⟨_, .inserted hp⟩
  | fork i =>
      by_cases hi : i = d.thread_num
      · subst hi
        exact ⟨_, .forked hp⟩
      · exact ⟨_, .fork hp hi⟩
  | outside i =>
      rw [hp] at hrange hv
      rcases Nat.lt_or_eq_of_le hrange with hlt | rfl
      · exact ⟨_, .sem_wait hp hlt (hv.resolve_right Bool.false_ne_true)⟩
      · exact ⟨_, .removed hp⟩
  | inside i =>
      rw [hp] at hrange
      have hlt : i < d.removals.length := hrange
      obtain ⟨r, tree, hexec⟩ := h.exec (.remove d.removals[i])
      exact ⟨_, .remove hp (List.getElem?_eq_getElem hlt) hexec⟩
  | removed i => exact ⟨_, .sem_post hp⟩
  | wait => exact absurd hp hwait
  | returned => exact absurd hp hreturned

theorem Inv.child_steps (h : Inv d s) {c : Child} (hc : c ∈ s.children)
    (hexit : ¬ c.Exited) (hv : s.mutex.CanWait ∨ c.isInside = true) :
    ∃ s', Step d s s' := by
  obtain ⟨A, B, hAB⟩ := List.append_of_mem hc
  obtain ⟨v, c', hstep⟩ := (h.sound c hc).steps hexit hv
  exact ⟨_, .child hAB hstep⟩

/-- As long as there is a permit, some process can go on. -/
theorem Inv.steps_of_canWait (h : Inv d s) (hv : s.mutex.CanWait)
    (hlive : ¬ s.Finished) : ∃ s', Step d s s' := by
  by_cases hall : ∀ c ∈ s.children, c.Exited
  · have hreturned : s.parent ≠ .returned := fun hp => hlive ⟨hp, hall⟩
    by_cases hp : s.parent = .wait
    · by_cases hreaped : ∀ c ∈ s.children, c.place = .reaped
      · exact ⟨_, .waited hp hreaped⟩
      · obtain ⟨c, hc, hplace⟩ := by simpa using hreaped
        obtain ⟨A, B, hAB⟩ := List.append_of_mem hc
        exact ⟨_, .reap hp hAB ((hall c hc).resolve_right hplace)⟩
    · exact h.parent_steps (Or.inl hv) hp hreturned
  · obtain ⟨c, hc, hexit⟩ := by simpa using hall
    exact h.child_steps hc hexit (Or.inl hv)

/-- If no permit is left, a process that holds one can go on. -/
theorem Inv.steps_of_held (h : Inv d s) (hheld : 1 ≤ s.inside) :
    ∃ s', Step d s s' := by
  cases hp : s.parent.isInside with
  | true =>
      apply h.parent_steps (Or.inr hp)
      · intro hwait
        rw [hwait] at hp
        exact Bool.noConfusion hp
      · intro hreturned
        rw [hreturned] at hp
        exact Bool.noConfusion hp
  | false =>
      rw [State.inside, hp] at hheld
      obtain ⟨c, hc, hin⟩ := List.countP_pos_iff.mp hheld
      refine h.child_steps hc ?_ (Or.inr hin)
      rintro (hexit | hexit)
      · simp [Child.isInside, hexit] at hin
      · simp [Child.isInside, hexit] at hin

theorem Inv.steps (h : Inv d s) (hlive : ¬ s.Finished) : ∃ s', Step d s s' := by
  by_cases hv : s.mutex.CanWait
  · exact h.steps_of_canWait hv hlive
  · exact h.steps_of_held (h.grants.held_of_not_canWait d.processors hv)

theorem State.Finished.inside_eq (hdone : s.Finished) : s.inside = 0 := by
  have hnone : s.children.countP Child.isInside = 0 := by
    apply List.countP_eq_zero.mpr
    intro c hc
    rcases hdone.2 c hc with hexit | hexit
    · simp [Child.isInside, hexit]
    · simp [Child.isInside, hexit]
  rw [State.inside, hnone, hdone.1]
  rfl

/-- In every reachable state: the semaphore counts the processes in their
critical sections, so that there are never more of them than permits; unless all
have finished, one of them can make a step; and when all have finished, the
semaphore is as it was, each child has made its searches, on the tree of all
keys, and the parent's tree is empty. -/
theorem semaphore_protocol (d : Setup) (s : State) (h : d.Reachable s) :
    s.mutex.value + s.inside = d.sem_num ∧
    s.inside ≤ d.sem_num ∧
    (¬ s.Finished → ∃ s', Step d s s') ∧
    (s.Finished → s.mutex.value = d.sem_num ∧
      s.children.length = d.thread_num ∧
      (∃ b L, (BTree.new 4).run d.inserts = .ok b ∧ b.contents = .ok L ∧
        L.Perm d.keys ∧ ∀ c ∈ s.children,
          (c.searches.length : Int) = d.task_num.toInt ∧
            ∀ tree ∈ c.searches, tree = b) ∧
      s.tree4.root = none ∧ s.tree4.contents = .ok []) := by
  have hinv := inv_reachable h
  refine ⟨hinv.grants, hinv.grants.le, hinv.steps, ?_⟩
  intro hdone
  have hforks := hinv.forks
  have htree := hinv.tree
  rw [hdone.1] at hforks htree
  refine ⟨?_, hforks, ?_, ?_⟩
  · have hvalue : s.mutex.value + s.inside = d.sem_num := hinv.grants
    rwa [hdone.inside_eq] at hvalue
  · obtain ⟨b, L, hrun, hb, hperm⟩ := inserts_stores d
    refine ⟨b, L, hrun, hb.contents, hperm, ?_⟩
    intro c hc
    have hsound := hinv.sound c hc
    obtain rfl := Except.ok.inj (hrun.symm.trans hsound.tree)
    exact ⟨hsound.count_of_exited (hdone.2 c hc), hsound.own⟩
  · obtain ⟨b, hrun, hb⟩ := history_stores d
    have hall : d.history.take (Parent.returned.calls d) = d.history :=
      List.take_length
    rw [hall] at htree
    obtain rfl := Except.ok.inj (hrun.symm.trans htree)
    exact ⟨hb.root_eq_none.mpr rfl, hb.contents⟩

/-- One child, which searches once while the parent waits for the only
permit. -/
theorem semaphore_protocol_one :
    let d : Setup := ⟨[5], [5], List.Perm.refl _, 1, 1, 1, le_refl 1, fun _ _ => 0⟩
    ∃ s, d.Reachable s ∧ s.Finished ∧
      s.mutex.value + s.inside = d.sem_num ∧
      s.inside ≤ d.sem_num ∧
      (¬ s.Finished → ∃ s', Step d s s') ∧
      (s.Finished → s.mutex.value = d.sem_num ∧
        s.children.length = d.thread_num ∧
        (∃ b L, (BTree.new 4).run d.inserts = .ok b ∧ b.contents = .ok L ∧
          L.Perm d.keys ∧ ∀ c ∈ s.children,
            (c.searches.length : Int) = d.task_num.toInt ∧
              ∀ tree ∈ c.searches, tree = b) ∧
        s.tree4.root = none ∧ s.tree4.contents = .ok []) := by
  intro d
  obtain ⟨r, b, hinsert⟩ := (inv_init d).exec (.insert 5)
  have hinserted : d.Reachable _ :=
    (ReflTransGen.single (Step.insert rfl rfl hinsert)).tail (.inserted rfl)
  have hforked : d.Reachable _ :=
    (hinserted.tail (.fork rfl Nat.zero_ne_one)).tail (.forked rfl)
  obtain ⟨found, hexist⟩ :=
    ((inv_reachable hforked).sound _ (List.mem_singleton_self _)).search 3
  have hsearched : d.Reachable _ := ((hforked.tail
    (.child (A := []) rfl (.next (by decide)))).tail
    (.child (A := []) rfl (.sem_wait Nat.zero_lt_one))).tail
    (.child (A := []) rfl (.search 3 hexist))
  have hexited : d.Reachable _ := ((hsearched.tail
    (.child (A := []) rfl .sem_post)).tail
    (.child (A := []) rfl (.count rfl))).tail (.child (A := []) rfl .exit)
  obtain ⟨r', b', hremove⟩ := (inv_reachable hexited).exec (.remove 5)
  have hremoved : d.Reachable _ := (((hexited.tail
    (.sem_wait rfl Nat.zero_lt_one Nat.zero_lt_one)).tail
    (.remove rfl rfl hremove)).tail (.sem_post rfl)).tail (.removed rfl)
  have hreturned : d.Reachable _ :=
    (hremoved.tail (.reap (A := []) rfl rfl rfl)).tail (.waited rfl (by simp))
  refine ⟨_, hreturned, ⟨rfl, ?_⟩, semaphore_protocol d _ hreturned⟩
  intro c hc
  exact Or.inr (by rw [List.mem_singleton.mp hc])

end Protocol

end ParallelBTree.Ports.Ipc
