import ParallelBTree.Ports.Exist
import ParallelBTree.Verified.Occupancy

/-!
# `exist`, one node at a time

A call of `exist` as a sequence of steps, each of which reads one node: the call
is at a node, and gets its answer there or goes on to a child.  Between two
steps others may run.

With nobody else running this is `exist` (`exist_succ`, `Call.Exact`): the call is
at some node of the tree (`Call.InTree`), and comes one level nearer to the leaves
with each step.

Insertions split nodes and put a new root above the old one, but a node stays
where it is, as far above the leaves as it was (`Holding.insert_atHeight`).
-/

namespace ParallelBTree.Ports

open ParallelBTree.Verified.Program
open ParallelBTree.Verified.Multiway
open ParallelBTree.Ports.NodeMemory
open ParallelBTree.Ports.Descent
open ParallelBTree.Ports.Represent

namespace BTreeNode

/-- `exist(key)` up to the recursive call: the answer, or the child to call. -/
def visit (rd : Addr → Nat → M Int) (p : Addr) (key : Int) : M (Bool ⊕ Addr) := do
  let nd ← node p
  let i ← scanUp nd.keysnum fun i => do pure (decide ((← rd p i) < key))
  if (← rd p i) = key then pure (.inl true)
  else if nd.leaf then pure (.inl false)
  else pure (.inr (← child p i))

theorem exist_succ (rd : Addr → Nat → M Int) (fuel : Nat) (p : Addr) (key : Int) :
    exist rd (fuel + 1) p key = (do
      match ← visit rd p key with
      | .inl found => pure found
      | .inr c => exist rd fuel c key) := by
  simp only [exist, visit, bind_assoc]
  congr 1
  funext nd
  congr 1
  funext i
  congr 1
  funext v
  by_cases hv : v = key
  · simp [hv]
  · cases hleaf : nd.leaf with
    | true => simp [hv]
    | false => simp [hv]

section Visit

variable {m : Mem} {t n : Nat}

/-- The scan of a node returns, and stops at most behind the last key. -/
private theorem scan_with (garbage : Addr → Nat → Int) {T : Tree Int n}
    (h : Rep m t n T) (key : Int) :
    ∃ nd, m.get T.id = some nd ∧ Holds t (isLeaf n) T.keys (ptrs n T.kids) nd ∧
      scanUp nd.keysnum (fun i => do
        pure (decide ((← readWith garbage T.id i) < key))) m =
          .ok (lowerPos T.keys key, m) := by
  obtain ⟨nd, hget, hnd⟩ := h.root
  refine ⟨nd, hget, hnd, scan_run_live ?_ hnd⟩
  exact fun _ _ hi hv => (reads_with garbage m).live hget hi hv

/-- The step at a leaf gives the answer. -/
theorem visit_leaf (garbage : Addr → Nat → Int) {T : Tree Int 0}
    (h : Rep m t 0 T) (key : Int) :
    ∃ nd, m.get T.id = some nd ∧ Holds t true T.keys [] nd ∧
      visit (readWith garbage) T.id key m = .ok (.inl (decide
        (slotValue garbage T.id nd (lowerPos T.keys key) = key)), m) := by
  obtain ⟨nd, hget, hnd, hscan⟩ := scan_with garbage h key
  have hread : readWith garbage T.id (lowerPos T.keys key) m =
      .ok (slotValue garbage T.id nd (lowerPos T.keys key), m) := by
    unfold readWith
    rw [bind_run_ok (node_run hget)]
    rfl
  refine ⟨nd, hget, hnd, ?_⟩
  unfold visit
  rw [bind_run_ok (node_run hget), bind_run_ok hscan, bind_run_ok hread]
  by_cases hv : slotValue garbage T.id nd (lowerPos T.keys key) = key
  · simp [hv]
  · simp [hv, hnd.leaf_eq, isLeaf]

/-- A step reads what is there, and a child it goes on to is one level nearer to
the leaves. -/
theorem visit_run (garbage : Addr → Nat → Int) {T : Tree Int n} (h : Rep m t n T)
    (hwf : WF t n T) (key : Int) :
    ∃ v, visit (readWith garbage) T.id key m = .ok (v, m) ∧
      ∀ c, v = .inr c → ∃ k, k + 1 = n ∧ AtHeight k c n T := by
  cases n with
  | zero =>
      obtain ⟨nd, -, -, hrun⟩ := visit_leaf garbage h key
      exact ⟨_, hrun, nofun⟩
  | succ n =>
      obtain ⟨nd, hget, hnd, hscan⟩ := scan_with garbage h key
      obtain ⟨p, K, C⟩ := T
      obtain ⟨ka, kb, rfl, hka, -, -⟩ := takeWhile_cut K key
      obtain ⟨A, c, B, rfl, hA, -⟩ := exists_kids_cut (hwf.2.1 : C.length = _)
      have hpos : lowerPos (ka ++ kb) key = ka.length := hka.symm
      have hread : readWith garbage p ka.length m =
          .ok (slotValue garbage p nd ka.length, m) := by
        unfold readWith
        rw [bind_run_ok (node_run hget)]
        rfl
      have hchild := (h.kid_run (kids_cut hA)).1
      unfold visit
      rw [bind_run_ok (node_run hget), bind_run_ok hscan, hpos,
        bind_run_ok hread]
      by_cases hv : slotValue garbage p nd ka.length = key
      · refine ⟨.inl true, ?_, nofun⟩
        rw [if_pos hv]
        rfl
      · refine ⟨.inr c.id, ?_, ?_⟩
        · rw [if_neg hv, if_neg (by simp [hnd.leaf_eq, isLeaf]),
            bind_run_ok hchild]
          rfl
        · rintro _ ⟨⟩
          exact ⟨n, rfl, Or.inr ⟨c, by simp, atHeight_root n c⟩⟩

end Visit

end BTreeNode

/-! ## The nodes of a tree in memory -/

namespace Represent

variable {m : Mem} {t : Nat}

/-- What is at a node of a tree is a tree itself. -/
theorem Rep.atHeight {k q : Nat} : ∀ {n : Nat} {T : Tree Int n}, Rep m t n T →
    WF t n T → AtHeight k q n T →
    ∃ S : Tree Int k, S.id = q ∧ Rep m t k S ∧ WF t k S ∧
      ∀ j r, AtHeight j r k S → AtHeight j r n T := by
  intro n
  induction n with
  | zero =>
      rintro T h hwf ⟨rfl, rfl⟩
      exact ⟨T, rfl, h, hwf, fun _ _ hS => hS⟩
  | succ n ih =>
      rintro T h hwf (⟨rfl, rfl⟩ | ⟨c, hc, hq⟩)
      · exact ⟨T, rfl, h, hwf, fun _ _ hS => hS⟩
      · obtain ⟨S, hid, hS, hSwf, hsub⟩ := ih (h.2 c hc) (hwf.kid hc).2 hq
        exact ⟨S, hid, hS, hSwf, fun j r hr => Or.inr ⟨c, hc, hsub j r hr⟩⟩

/-- How far the leaves are below `p`, along the first children. -/
def depthBelow (m : Mem) : Nat → Addr → Nat
  | 0, _ => 0
  | fuel + 1, p =>
      match m.get p with
      | some nd =>
          if nd.leaf then 0
          else match nd.children.cells[0]? with
            | some (some (some c)) => depthBelow m fuel c + 1
            | _ => 0
      | none => 0

theorem Rep.depthBelow_eq : ∀ {n fuel : Nat} {T : Tree Int n}, Rep m t n T →
    WF t n T → n < fuel → depthBelow m fuel T.id = n := by
  intro n
  induction n with
  | zero =>
      intro fuel T h _ hfuel
      obtain ⟨f, rfl⟩ := Nat.exists_eq_add_one_of_ne_zero hfuel.ne'
      obtain ⟨nd, hget, hnd⟩ := h
      simp [depthBelow, hget, hnd.leaf_eq]
  | succ n ih =>
      intro fuel T h hwf hfuel
      obtain ⟨f, rfl⟩ := Nat.exists_eq_add_one_of_ne_zero
        (Nat.zero_lt_of_lt hfuel).ne'
      obtain ⟨nd, hget, hnd⟩ := h.1
      obtain ⟨c, B, hC⟩ : ∃ c B, T.kids = c :: B :=
        List.exists_cons_of_length_eq_add_one hwf.2.1
      have hmem : c ∈ T.kids := by simp [hC]
      have hslot : nd.children.cells[0]? = some (some (some c.id)) :=
        hnd.kid_at (by rw [hC]; rfl)
      have hrec := ih (h.2 c hmem) (hwf.kid hmem).2
        (Nat.lt_of_succ_lt_succ hfuel)
      simp [depthBelow, hget, hnd.leaf_eq, hslot, hrec]

end Represent

/-! ## Insertions leave every node where it is -/

namespace BTree

theorem Holding.insert_atHeight {b : BTree} {n : Nat} {T : Tree Int n}
    (ht : 2 ≤ b.t) (h : b.Holding T) (key : Int) :
    ∃ b' n', ∃ T' : Tree Int n', b.exec (.insert key) = .ok (true, b') ∧
      b'.t = b.t ∧ b'.Holding T' ∧
      inorder n' T' = (inorder n T).orderedInsert (· ≤ ·) key ∧
      ∀ k q, AtHeight k q n T → AtHeight k q n' T' := by
  by_cases hfull : T.size = 2 * b.t - 1
  · obtain ⟨r, root, m, hexec, -, hroot, hT', hcont⟩ :=
      exec_of_returns (.insert key) (insert_full_tree ht h key hfull)
    obtain ⟨rfl, rfl⟩ := Prod.mk.inj hroot
    refine ⟨_, n + 1, _, hexec, rfl, hT', hcont, fun k q hq => ?_⟩
    exact insertNonFull_atHeight _ _ _ _ _ (Or.inr ⟨T, by simp, hq⟩)
  · obtain ⟨r, root, m, hexec, -, rfl, hT', hcont⟩ :=
      exec_of_returns (.insert key) (insert_roomy_tree ht h key hfull)
    refine ⟨_, n, _, hexec, rfl, hT', hcont, fun k q hq => ?_⟩
    exact insertNonFull_atHeight _ _ _ _ _ hq

end BTree

/-! ## A call of `exist` in progress -/

namespace Search

open ParallelBTree.Ports.BTree

/-- Where a function that draws a key and calls `exist` is; `tree` is a ghost, the
tree when the call began. -/
inductive Call where
  /-- before the call -/
  | waiting
  /-- in the call, at the node `p` -/
  | visiting (key : Int) (p : Addr) (tree : BTree)
  | answered (key : Int) (found : Bool) (tree : BTree)

/-- One step on the tree as it is. -/
inductive Step (garbage : Addr → Nat → Int) (tree : BTree) : Call → Call → Prop where
  | call {r : Addr} (key : Int) (hroot : tree.root = some r) :
      Step garbage tree .waiting (.visiting key r tree)
  | empty (key : Int) (hroot : tree.root = none) :
      Step garbage tree .waiting (.answered key false tree)
  | answer {key : Int} {p : Addr} {tree₀ : BTree} {found : Bool} {m : Mem}
      (h : BTreeNode.visit (BTreeNode.readWith garbage) p key tree.mem =
        .ok (.inl found, m)) :
      Step garbage tree (.visiting key p tree₀) (.answered key found tree₀)
  | descend {key : Int} {p c : Addr} {tree₀ : BTree} {m : Mem}
      (h : BTreeNode.visit (BTreeNode.readWith garbage) p key tree.mem =
        .ok (.inr c, m)) :
      Step garbage tree (.visiting key p tree₀) (.visiting key c tree₀)

def Call.isVisiting : Call → Bool
  | .visiting _ _ _ => true
  | _ => false

def Call.isAnswered : Call → Bool
  | .answered _ _ _ => true
  | _ => false

/-- The call is at a node of the tree, if it is at one. -/
def Call.InTree (tree : BTree) : Call → Prop
  | .visiting _ p _ =>
      ∃ (n : Nat) (T : Tree Int n) (k : Nat), tree.Holding T ∧ AtHeight k p n T
  | _ => True

/-- The steps that are left, on trees of height at most `bound`. -/
def Call.rank (bound : Nat) (tree : BTree) : Call → Nat
  | .waiting => bound + 3
  | .visiting _ p _ => depthBelow tree.mem tree.mem.nodes.length p + 2
  | .answered _ _ _ => 0

section Tree

variable {garbage : Addr → Nat → Int} {tree : BTree} {L : List Int}
  {c c' : Call} {bound : Nat}

theorem depthBelow_of_atHeight {n k : Nat} {T : Tree Int n} {p : Addr}
    (h : tree.Holding T) (hp : AtHeight k p n T) :
    depthBelow tree.mem tree.mem.nodes.length p = k := by
  obtain ⟨S, rfl, hS, hwf, -⟩ := h.rep.atHeight h.wf hp
  exact hS.depthBelow_eq hwf (Nat.lt_of_le_of_lt hp.le h.fuel)

theorem Step.not_answered (h : Step garbage tree c c') :
    c.isAnswered = false := by
  cases h <;> rfl

/-- A call that has no answer yet can go on. -/
theorem Call.InTree.steps (h : c.InTree tree) (key : Int)
    (hc : c.isAnswered = false) : ∃ c', Step garbage tree c c' := by
  cases c with
  | waiting =>
      cases hroot : tree.root with
      | none => exact ⟨_, .empty key hroot⟩
      | some r => exact ⟨_, .call key hroot⟩
  | visiting key p tree₀ =>
      obtain ⟨n, T, k, hT, hp⟩ := h
      obtain ⟨S, rfl, hS, hwf, -⟩ := hT.rep.atHeight hT.wf hp
      obtain ⟨v, hrun, -⟩ := BTreeNode.visit_run garbage hS hwf key
      cases v with
      | inl found => exact ⟨_, .answer hrun⟩
      | inr q => exact ⟨_, .descend hrun⟩
  | answered => exact Bool.noConfusion hc

/-- A step comes to a node of the tree, one level nearer to the leaves. -/
theorem Step.inTree (h : Step garbage tree c c') (hL : tree.Stores L)
    (hbound : L.length ≤ bound) (ht : 2 ≤ tree.t) (hc : c.InTree tree) :
    c'.InTree tree ∧ c'.rank bound tree < c.rank bound tree := by
  cases h with
  | @call r key hroot =>
      cases hL with
      | vacant hv => exact absurd (hroot.symm.trans hv.root) (Option.some_ne_none r)
      | @holding n T hT =>
          obtain rfl : T.id = r := Option.some.inj (hT.root.symm.trans hroot)
          have hat := atHeight_root n T
          have hdepth := depthBelow_of_atHeight hT hat
          have hlow := le_gaps_root n T hT.wf hT.size
          have hn : n < tree.t ^ n := Nat.lt_pow_self (by omega)
          refine ⟨⟨n, T, n, hT, hat⟩, ?_⟩
          simp only [Call.rank, hdepth]
          omega
  | empty => exact ⟨trivial, Nat.succ_pos _⟩
  | answer => exact ⟨trivial, Nat.succ_pos _⟩
  | @descend key p q tree₀ m hrun =>
      obtain ⟨n, T, k, hT, hp⟩ := hc
      obtain ⟨S, rfl, hS, hwf, hsub⟩ := hT.rep.atHeight hT.wf hp
      obtain ⟨v, hrun', hnext⟩ := BTreeNode.visit_run garbage hS hwf key
      obtain rfl : .inr q = v :=
        congrArg Prod.fst (Except.ok.inj (hrun.symm.trans hrun'))
      obtain ⟨j, rfl, hq⟩ := hnext q rfl
      have hqT := hsub j q hq
      refine ⟨⟨n, T, j, hT, hqT⟩, ?_⟩
      simp only [Call.rank, depthBelow_of_atHeight hT hp,
        depthBelow_of_atHeight hT hqT]
      omega

end Tree

/-! ## With nobody else running -/

/-- The call began on the tree as it still is, and ends or will end with the
answer of `exist`. -/
def Call.Exact (garbage : Addr → Nat → Int) (tree : BTree) : Call → Prop
  | .waiting => True
  | .visiting key p tree₀ => tree₀ = tree ∧ ∃ found fuel,
      BTree.exist (BTreeNode.readWith garbage) tree.root key tree.mem =
        .ok (found, tree.mem) ∧
      BTreeNode.exist (BTreeNode.readWith garbage) fuel p key tree.mem =
        .ok (found, tree.mem)
  | .answered key found tree₀ => tree₀ = tree ∧
      BTree.exist (BTreeNode.readWith garbage) tree.root key tree.mem =
        .ok (found, tree.mem)

/-- What is left of `exist` after the step at a node. -/
private theorem exist_rest {rd : Addr → Nat → M Int} {fuel : Nat} {p : Addr}
    {key : Int} {m m' : Mem} {v : Bool ⊕ Addr} {o : Bool × Mem}
    (hvisit : BTreeNode.visit rd p key m = .ok (v, m'))
    (h : BTreeNode.exist rd fuel p key m = .ok o) :
    ∃ f, (v.elim pure (BTreeNode.exist rd f · key) : M Bool) m' = .ok o := by
  cases fuel with
  | zero => cases h
  | succ f =>
      rw [BTreeNode.exist_succ, bind_run_ok hvisit] at h
      cases v with
      | inl found => exact ⟨f, h⟩
      | inr c => exact ⟨f, h⟩

theorem Step.exact {garbage : Addr → Nat → Int} {tree : BTree} {L : List Int}
    {c c' : Call} (h : Step garbage tree c c') (hL : tree.Stores L)
    (hin : c.InTree tree) (hc : c.Exact garbage tree) :
    c'.Exact garbage tree := by
  cases h with
  | @call r key hroot =>
      obtain ⟨found, hrun, -⟩ :=
        hL.exist (BTreeNode.reads_with garbage tree.mem) key
      refine ⟨rfl, found, tree.mem.nodes.length, hrun, ?_⟩
      rw [hroot] at hrun
      exact hrun
  | empty key hroot =>
      refine ⟨rfl, ?_⟩
      rw [hroot]
      rfl
  | answer hrun =>
      obtain ⟨hbegan, found', fuel, hall, hrest⟩ := hc
      obtain ⟨f, hend⟩ := exist_rest hrun hrest
      obtain ⟨rfl, -⟩ := Prod.mk.inj (Except.ok.inj hend)
      exact ⟨hbegan, hall⟩
  | @descend key p q tree₀ m hrun =>
      obtain ⟨hbegan, found, fuel, hall, hrest⟩ := hc
      obtain ⟨f, hend⟩ := exist_rest hrun hrest
      obtain ⟨n, T, k, hT, hp⟩ := hin
      obtain ⟨S, rfl, hS, hwf, -⟩ := hT.rep.atHeight hT.wf hp
      obtain ⟨v, hrun', -⟩ := BTreeNode.visit_run garbage hS hwf key
      obtain rfl : m = tree.mem :=
        congrArg Prod.snd (Except.ok.inj (hrun.symm.trans hrun'))
      exact ⟨hbegan, found, f, hall, hend⟩

end Search

end ParallelBTree.Ports
