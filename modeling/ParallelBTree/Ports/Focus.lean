import ParallelBTree.Ports.BTree

/-!
# One statement at a time

A member function works on at most three nodes.  A `Focus p S` is a family of
memories that differ in the node `p` only: `S nd` is the one in which `p` is
`nd`.  What a statement or a loop does to `p` is then a change of the argument
of `S`, and everything else in memory is in `S` and stays.

`Trio` fixes three different nodes of one memory; each of them is in focus when
the other two are held fast.
-/

namespace ParallelBTree.Ports.NodeMemory

open ParallelBTree.Verified.Program
open ParallelBTree.Verified.Slots

/-! ## Reading -/

section Reading

variable {m : Mem} {p : Addr} {nd : BTreeNode} {i : Nat}

theorem node_run (h : m.get p = some nd) : node p m = .ok (nd, m) := by
  unfold node
  rw [bind_run_ok (get_run m)]
  simp only [h, pure_run]

theorem keyAt_run {v : Int} (h : m.get p = some nd)
    (hv : nd.keys.cells[i]? = some (some v)) : keyAt p i m = .ok (v, m) := by
  unfold keyAt
  rw [bind_run_ok (node_run h)]
  simp only [hv, pure_run]

theorem childSlot_run {c : Ptr} (h : m.get p = some nd)
    (hc : nd.children.cells[i]? = some (some c)) :
    childSlot p i m = .ok (some c, m) := by
  unfold childSlot
  rw [bind_run_ok (node_run h)]
  simp only [hc, pure_run]

theorem childSlot_unwritten (h : m.get p = some nd)
    (hc : nd.children.cells[i]? = some none) :
    childSlot p i m = .ok (none, m.log (.unwritten p i)) := by
  unfold childSlot
  rw [bind_run_ok (node_run h)]
  simp only [hc]
  rw [bind_run_ok (modify_run _ m), pure_run]

theorem childPtr_run {c : Ptr} (h : m.get p = some nd)
    (hc : nd.children.cells[i]? = some (some c)) :
    childPtr p i m = .ok (c, m) := by
  unfold childPtr
  rw [bind_run_ok (childSlot_run h hc)]
  rfl

theorem child_run {c : Addr} (h : m.get p = some nd)
    (hc : nd.children.cells[i]? = some (some (some c))) :
    child p i m = .ok (c, m) := by
  unfold child
  rw [bind_run_ok (childPtr_run h hc)]
  rfl

theorem below_run {n : Nat} (h : 1 ≤ n) : below n m = .ok (n - 1, m) := by
  obtain ⟨k, rfl⟩ : ∃ k, n = k + 1 := ⟨n - 1, by omega⟩
  rfl

end Reading

/-! ## Cells -/

/-- The leading slots of a node: `keys` starts with `X` and, unless the node is
a leaf, `children` starts with `Z`.  A leaf's child slots are unwritten. -/
structure Cells (t : Nat) (leaf : Bool) (n : Nat) (X : List (Option Int))
    (Z : List (Option Ptr)) (nd : BTreeNode) : Prop where
  t_eq : nd.t = t
  leaf_eq : nd.leaf = leaf
  keysnum_eq : nd.keysnum = n
  keys : ∃ R, nd.keys.cells = X ++ R
  children : leaf = false → ∃ R, nd.children.cells = Z ++ R
  unwritten : leaf = true → nd.children.cells = List.replicate (2 * t) none

namespace Cells

variable {t n : Nat} {leaf : Bool} {X V : List (Option Int)}
  {Z W : List (Option Ptr)} {nd : BTreeNode}

theorem key (h : Cells t leaf n X Z nd) {i : Nat} {v : Int}
    (hv : X[i]? = some (some v)) : nd.keys.cells[i]? = some (some v) := by
  obtain ⟨R, hR⟩ := h.keys
  have hi : i < X.length := (List.getElem?_eq_some_iff.mp hv).1
  rw [hR, List.getElem?_append_left hi, hv]

theorem kid (h : Cells t leaf n X Z nd) (hleaf : leaf = false) {i : Nat}
    {c : Ptr} (hc : Z[i]? = some (some c)) :
    nd.children.cells[i]? = some (some c) := by
  obtain ⟨R, hR⟩ := h.children hleaf
  have hi : i < Z.length := (List.getElem?_eq_some_iff.mp hc).1
  rw [hR, List.getElem?_append_left hi, hc]

theorem kid_unwritten (h : Cells t true n X Z nd) {i : Nat} (hi : i < 2 * t) :
    nd.children.cells[i]? = some none := by
  rw [h.unwritten rfl, List.getElem?_replicate, if_pos hi]

theorem length_le (h : Cells t leaf n X Z nd) : X.length ≤ 2 * t - 1 := by
  obtain ⟨R, hR⟩ := h.keys
  have hlen := nd.keys.length_cells
  rw [hR, h.t_eq, List.length_append] at hlen
  omega

/-- There is a slot behind a prefix that is not the whole array. -/
theorem extend (h : Cells t leaf n X Z nd) (hroom : X.length < 2 * t - 1) :
    ∃ d, Cells t leaf n (X ++ [d]) Z nd := by
  obtain ⟨R, hR⟩ := h.keys
  have hlen := nd.keys.length_cells
  rw [hR, h.t_eq, List.length_append] at hlen
  cases R with
  | nil =>
      simp only [List.length_nil] at hlen
      omega
  | cons d R => exact ⟨d, { h with keys := ⟨R, by simp [hR]⟩ }⟩

theorem extend_many (h : Cells t leaf n X Z nd) (k : Nat)
    (hroom : X.length + k ≤ 2 * t - 1) :
    ∃ D, D.length = k ∧ Cells t leaf n (X ++ D) Z nd := by
  induction k with
  | zero => exact ⟨[], rfl, by simpa using h⟩
  | succ k ih =>
      obtain ⟨D, hD, hcells⟩ := ih (by omega)
      obtain ⟨d, hd⟩ := hcells.extend (by
        rw [List.length_append]
        omega)
      exact ⟨D ++ [d], by simp [hD], by simpa using hd⟩

theorem extend_kids (h : Cells t leaf n X Z nd) (k : Nat)
    (hroom : leaf = false → Z.length + k ≤ 2 * t) :
    ∃ D, D.length = k ∧ Cells t leaf n X (Z ++ D) nd := by
  cases hleaf : leaf with
  | true =>
      subst hleaf
      exact ⟨List.replicate k none, List.length_replicate,
        { h with children := nofun }⟩
  | false =>
      obtain ⟨R, hR⟩ := h.children hleaf
      have hlen := nd.children.length_cells
      rw [hR, h.t_eq, List.length_append] at hlen
      have hk := hroom hleaf
      refine ⟨R.take k, by rw [List.length_take]; omega, ?_⟩
      subst hleaf
      exact { h with children := fun _ => ⟨R.drop k, by simp [hR]⟩ }

theorem shrink (h : Cells t leaf n (X ++ V) Z nd) : Cells t leaf n X Z nd := by
  obtain ⟨R, hR⟩ := h.keys
  exact { h with keys := ⟨V ++ R, by simp [hR]⟩ }

theorem shrink_kids (h : Cells t leaf n X (Z ++ W) nd) :
    Cells t leaf n X Z nd := by
  refine { h with children := fun hl => ?_ }
  obtain ⟨R, hR⟩ := h.children hl
  exact ⟨W ++ R, by simp [hR]⟩

/-- A leaf has no child pointers to speak of. -/
theorem of_leaf (h : Cells t true n X Z nd) : Cells t true n X W nd :=
  { h with children := nofun }

theorem new (t : Nat) (leaf : Bool) :
    Cells t leaf 0 (List.replicate (2 * t - 1) none)
      (List.replicate (2 * t) none) (.new t leaf) where
  t_eq := rfl
  leaf_eq := rfl
  keysnum_eq := rfl
  keys := ⟨[], by simp [BTreeNode.new]⟩
  children _ := ⟨[], by simp [BTreeNode.new]⟩
  unwritten _ := rfl

end Cells

/-! ## Writing -/

/-- `S nd` is a memory in which `p` is the node `nd`. -/
structure Focus (p : Addr) (S : BTreeNode → Mem) : Prop where
  get : ∀ nd, (S nd).get p = some nd
  set : ∀ nd nd', (S nd).set p nd' = S nd'

theorem Focus.of_get {m : Mem} {p : Addr} {old : BTreeNode}
    (h : m.get p = some old) : Focus p (m.set p) where
  get _ := Mem.get_set_self h
  set nd nd' := by simp [Mem.set]

namespace Focus

variable {p q : Addr} {S : BTreeNode → Mem} {nd nq : BTreeNode} {i j : Nat}

private theorem modifyNode_run (F : Focus p S) (f : BTreeNode → BTreeNode) :
    modifyNode p f (S nd) = .ok ((), S (f nd)) := by
  unfold modifyNode
  rw [bind_run_ok (node_run (F.get nd)), modify_run, F.set]

private theorem storeKey_run (F : Focus p S) (v : Int) (hi : i < 2 * nd.t - 1) :
    setKey p i v (S nd) =
      .ok ((), S { nd with keys := nd.keys.set i (some v) }) := by
  unfold setKey
  rw [bind_run_ok (node_run (F.get nd)), if_pos hi, modify_run, F.set]

private theorem storeChild_run (F : Focus p S) (slot : Option Ptr)
    (hi : i < 2 * nd.t) :
    setChild p i slot (S nd) =
      .ok ((), S { nd with children := nd.children.set i slot }) := by
  unfold setChild
  rw [bind_run_ok (node_run (F.get nd)), if_pos hi, modify_run, F.set]

private theorem copyKey_ok (F : Focus p S) {v : Int}
    (hq : (S nd).get q = some nq)
    (hv : nq.keys.cells[i]? = some (some v)) (hj : j < 2 * nd.t - 1) :
    copyKey q i p j (S nd) =
      .ok ((), S { nd with keys := nd.keys.set j (some v) }) := by
  unfold copyKey
  rw [bind_run_ok (keyAt_run hq hv), F.storeKey_run v hj]

private theorem copyChild_ok (F : Focus p S) {c : Ptr}
    (hq : (S nd).get q = some nq)
    (hc : nq.children.cells[i]? = some (some c)) (hj : j < 2 * nd.t) :
    copyChild q i p j (S nd) =
      .ok ((), S { nd with children := nd.children.set j (some c) }) := by
  unfold copyChild
  rw [bind_run_ok (childSlot_run hq hc), F.storeChild_run _ hj]

private theorem copyKey_within (F : Focus p S) (nd : BTreeNode) :
    CopiesWithin (fun i j => copyKey p i p j)
      (fun a : SlotArray Int (2 * nd.t - 1) => S { nd with keys := a }) :=
  fun _ _ _ _ hv hj => F.copyKey_ok (F.get _) hv hj

private theorem copyChild_within (F : Focus p S) (nd : BTreeNode) :
    CopiesWithin (fun i j => copyChild p i p j)
      (fun a : SlotArray Ptr (2 * nd.t) => S { nd with children := a }) :=
  fun _ _ _ _ hc hj => F.copyChild_ok (F.get _) hc hj

private theorem copyKey_from (F : Focus p S) (nd : BTreeNode)
    (hq : ∀ nd, (S nd).get q = some nq) :
    CopiesFrom nq.keys.cells (fun i j => copyKey q i p j)
      (fun a : SlotArray Int (2 * nd.t - 1) => S { nd with keys := a }) :=
  fun _ _ _ _ hv hj => F.copyKey_ok (hq _) hv hj

private theorem copyChild_from (F : Focus p S) (nd : BTreeNode)
    (hq : ∀ nd, (S nd).get q = some nq) :
    CopiesFrom nq.children.cells (fun i j => copyChild q i p j)
      (fun a : SlotArray Ptr (2 * nd.t) => S { nd with children := a }) :=
  fun _ _ _ _ hc hj => F.copyChild_ok (hq _) hc hj

variable {t n : Nat} {leaf : Bool} {X A D : List (Option Int)} {d : Option Int}
  {Z B E : List (Option Ptr)} {e : Option Ptr}

theorem setKeysnum_run (F : Focus p S) (h : Cells t leaf n X Z nd) (k : Nat) :
    ∃ nd', setKeysnum p k (S nd) = .ok ((), S nd') ∧
      Cells t leaf k X Z nd' :=
  ⟨_, F.modifyNode_run _, { h with keysnum_eq := rfl }⟩

theorem setLeaf_run (F : Focus p S) (leaf : Bool) :
    setLeaf p leaf (S nd) = .ok ((), S { nd with leaf := leaf }) :=
  F.modifyNode_run _

/-- A write into the prefix. -/
theorem setKey_run (F : Focus p S) (h : Cells t leaf n (A ++ d :: X) Z nd)
    (v : Int) (hi : A.length = i) :
    ∃ nd', setKey p i v (S nd) = .ok ((), S nd') ∧
      Cells t leaf n (A ++ some v :: X) Z nd' := by
  have hlt : i < 2 * nd.t - 1 := by
    have hle := h.length_le
    simp only [List.length_append, List.length_cons] at hle
    rw [h.t_eq]
    omega
  obtain ⟨R, hR⟩ := h.keys
  refine ⟨_, F.storeKey_run v hlt, { h with keys := ⟨R, ?_⟩ }⟩
  subst hi
  rw [SlotArray.set_append (by simpa using hR)]
  simp

/-- A write into the prefix of the children of an inner node. -/
theorem setChild_run (F : Focus p S) (h : Cells t false n X (B ++ e :: Z) nd)
    (slot : Option Ptr) (hi : B.length = i) :
    ∃ nd', setChild p i slot (S nd) = .ok ((), S nd') ∧
      Cells t false n X (B ++ slot :: Z) nd' := by
  obtain ⟨R, hR⟩ := h.children rfl
  have hlt : i < 2 * nd.t := by
    rw [← nd.children.length_cells, hR]
    simp only [List.length_append, List.length_cons]
    omega
  refine ⟨_, F.storeChild_run slot hlt,
    { h with children := fun _ => ⟨R, ?_⟩, unwritten := nofun }⟩
  subst hi
  rw [SlotArray.set_append (by simpa using hR)]
  simp

theorem copyKey_run (F : Focus p S) (h : Cells t leaf n (A ++ d :: X) Z nd)
    {v : Int} (hq : (S nd).get q = some nq)
    (hv : nq.keys.cells[i]? = some (some v)) (hj : A.length = j) :
    ∃ nd', copyKey q i p j (S nd) = .ok ((), S nd') ∧
      Cells t leaf n (A ++ some v :: X) Z nd' := by
  unfold copyKey
  rw [bind_run_ok (keyAt_run hq hv)]
  exact F.setKey_run h v hj

theorem copyChild_run (F : Focus p S) (h : Cells t false n X (B ++ e :: Z) nd)
    {c : Ptr} (hq : (S nd).get q = some nq)
    (hc : nq.children.cells[i]? = some (some c)) (hj : B.length = j) :
    ∃ nd', copyChild q i p j (S nd) = .ok ((), S nd') ∧
      Cells t false n X (B ++ some c :: Z) nd' := by
  unfold copyChild
  rw [bind_run_ok (childSlot_run hq hc)]
  exact F.setChild_run h (some c) hj

/-- Copying an unwritten child slot into a leaf leaves it unwritten, and a note
in the trace. -/
theorem copyChild_unwritten (F : Focus p S) (h : Cells t true n X Z nd)
    (hq : (S nd).get q = some nq) (hc : nq.children.cells[i]? = some none)
    (hj : j < 2 * t) :
    ∃ nd', copyChild q i p j (S nd) =
        .ok ((), (S nd').log (.unwritten q i)) ∧
      Cells t true n X Z nd' := by
  have F' : Focus p fun nd => (S nd).log (.unwritten q i) :=
    { get := fun nd => F.get nd
      set := fun nd nd' => by rw [← F.set nd nd']; rfl }
  unfold copyChild
  rw [bind_run_ok (childSlot_unwritten hq hc)]
  refine ⟨_, F'.storeChild_run none (by rw [h.t_eq]; exact hj),
    { h with children := nofun, unwritten := fun _ => ?_ }⟩
  rw [SlotArray.set_cells, h.unwritten rfl, List.set_replicate_self]

/-! ### Loops -/

section Loops

variable {K : List Int} {P : List Ptr}

theorem keys_up (F : Focus p S) (lo hi : Nat)
    (h : Cells t leaf n (A ++ (K.map some ++ [d])) Z nd)
    (hlo : A.length = lo) (hhi : A.length + K.length = hi) :
    ∃ nd' w, forDown hi lo (fun j => copyKey p j p (j + 1)) (S nd) =
        .ok ((), S nd') ∧ Cells t leaf n (A ++ w :: K.map some) Z nd' := by
  obtain ⟨R, hR⟩ := h.keys
  obtain ⟨a, w, hrun, ha⟩ := forDown_shift (F.copyKey_within nd) A K d R nd.keys
    (by simpa using hR)
  subst hlo hhi
  exact ⟨_, w, hrun, { h with keys := ⟨R, by simpa using ha⟩ }⟩

/-- The scan of `insertNonFull` in a leaf: the keys above `key` move up. -/
theorem keys_scan (F : Focus p S) (hi : Nat) (key : Int) {L : List Int}
    (h : Cells t leaf n (L.map some ++ (K.map some ++ [d])) Z nd)
    (hL : ∀ x ∈ L.getLast?, ¬ key < x) (hK : ∀ y ∈ K, key < y)
    (hhi : L.length + K.length = hi) :
    ∃ nd' w, scanDown (fun i => do pure (decide (key < (← keyAt p i))))
        (fun i => copyKey p i p (i + 1)) hi (S nd) = .ok (L.length, S nd') ∧
      Cells t leaf n (L.map some ++ w :: K.map some) Z nd' := by
  obtain ⟨R, hR⟩ := h.keys
  have htest : TestsSlot (fun i => do pure (decide (key < (← keyAt p i))))
      (fun x => decide (key < x))
      (fun a : SlotArray Int (2 * nd.t - 1) => S { nd with keys := a }) := by
    intro a i v hv
    show (keyAt p i >>= fun x => pure (decide (key < x))) _ = _
    rw [bind_run_ok (keyAt_run (F.get _) hv)]
    rfl
  obtain ⟨a, w, hrun, ha⟩ := scanDown_shift (F.copyKey_within nd) htest L
    (fun x hx => decide_eq_false (hL x hx)) K d R nd.keys
    (fun y hy => decide_eq_true (hK y hy)) (by simpa using hR)
  subst hhi
  exact ⟨_, w, hrun, { h with keys := ⟨R, by simpa using ha⟩ }⟩

theorem keys_down (F : Focus p S) (lo hi : Nat)
    (h : Cells t leaf n (A ++ d :: K.map some) Z nd)
    (hlo : A.length + 1 = lo) (hhi : A.length + 1 + K.length = hi) :
    ∃ nd', forUp lo hi (fun j => copyKey p j p (j - 1)) (S nd) =
        .ok ((), S nd') ∧ Cells t leaf n (A ++ K.map some) Z nd' := by
  obtain ⟨R, hR⟩ := h.keys
  obtain ⟨a, w, hrun, ha⟩ := forUp_shift (F.copyKey_within nd) K A d R nd.keys
    (by simpa using hR)
  subst hlo hhi
  exact ⟨_, hrun, { h with keys := ⟨w :: R, by simpa using ha⟩ }⟩

/-- `K` stands in `q` behind `os` other keys and is copied behind `od` keys of
`p`. -/
theorem keys_from (F : Focus p S) (hi os od : Nat)
    (hq : ∀ nd, (S nd).get q = some nq) {P Q : List (Option Int)}
    (hsrc : nq.keys.cells = P ++ (K.map some ++ Q)) (hP : P.length = os)
    (h : Cells t leaf n (A ++ D) Z nd) (hA : A.length = od)
    (hD : D.length = K.length) (hhi : K.length = hi) :
    ∃ nd', forUp 0 hi (fun j => copyKey q (j + os) p (j + od)) (S nd) =
        .ok ((), S nd') ∧ Cells t leaf n (A ++ K.map some) Z nd' := by
  obtain ⟨R, hR⟩ := h.keys
  obtain ⟨a, hrun, ha⟩ := forUp_copy (F.copyKey_from nd hq) os od hsrc
    (show nd.keys.cells = A ++ (D ++ R) by simpa using hR) hP hA hD
  subst hhi
  exact ⟨_, hrun, { h with keys := ⟨R, by simpa using ha⟩ }⟩

theorem kids_up (F : Focus p S) (lo hi : Nat)
    (h : Cells t false n X (B ++ (P.map some ++ [e])) nd)
    (hlo : B.length = lo) (hhi : B.length + P.length = hi) :
    ∃ nd' w, forDown hi lo (fun j => copyChild p j p (j + 1)) (S nd) =
        .ok ((), S nd') ∧ Cells t false n X (B ++ w :: P.map some) nd' := by
  obtain ⟨R, hR⟩ := h.children rfl
  obtain ⟨a, w, hrun, ha⟩ := forDown_shift (F.copyChild_within nd) B P e R
    nd.children (by simpa using hR)
  subst hlo hhi
  exact ⟨_, w, hrun,
    { h with children := fun _ => ⟨R, by simpa using ha⟩, unwritten := nofun }⟩

theorem kids_down (F : Focus p S) (lo hi : Nat)
    (h : Cells t false n X (B ++ e :: P.map some) nd)
    (hlo : B.length + 1 = lo) (hhi : B.length + 1 + P.length = hi) :
    ∃ nd', forUp lo hi (fun j => copyChild p j p (j - 1)) (S nd) =
        .ok ((), S nd') ∧ Cells t false n X (B ++ P.map some) nd' := by
  obtain ⟨R, hR⟩ := h.children rfl
  obtain ⟨a, w, hrun, ha⟩ := forUp_shift (F.copyChild_within nd) P B e R
    nd.children (by simpa using hR)
  subst hlo hhi
  exact ⟨_, hrun,
    { h with
      children := fun _ => ⟨w :: R, by simpa using ha⟩
      unwritten := nofun }⟩

/-- `P` stands in `q` behind `os` other pointers and is copied behind `od`
pointers of `p`. -/
theorem kids_from (F : Focus p S) (hi os od : Nat)
    (hq : ∀ nd, (S nd).get q = some nq) {V W : List (Option Ptr)}
    (hsrc : nq.children.cells = V ++ (P.map some ++ W)) (hV : V.length = os)
    (h : Cells t false n X (B ++ E) nd) (hB : B.length = od)
    (hE : E.length = P.length) (hhi : P.length = hi) :
    ∃ nd', forUp 0 hi (fun j => copyChild q (j + os) p (j + od)) (S nd) =
        .ok ((), S nd') ∧ Cells t false n X (B ++ P.map some) nd' := by
  obtain ⟨R, hR⟩ := h.children rfl
  obtain ⟨a, hrun, ha⟩ := forUp_copy (F.copyChild_from nd hq) os od hsrc
    (show nd.children.cells = B ++ (E ++ R) by simpa using hR) hV hB hE
  subst hhi
  exact ⟨_, hrun,
    { h with children := fun _ => ⟨R, by simpa using ha⟩, unwritten := nofun }⟩

end Loops

end Focus

/-! ## Three nodes -/

/-- `m` with three of its nodes replaced. -/
def Mem.with3 (m : Mem) (p c s : Addr) (np nc ns : BTreeNode) : Mem :=
  ((m.set p np).set c nc).set s ns

/-- Three different nodes of `m`. -/
structure Trio (m : Mem) (p c s : Addr) : Prop where
  p_ne_c : p ≠ c
  p_ne_s : p ≠ s
  c_ne_s : c ≠ s
  p_alive : ∃ nd, m.get p = some nd
  c_alive : ∃ nd, m.get c = some nd
  s_alive : ∃ nd, m.get s = some nd

namespace Trio

variable {m : Mem} {p c s : Addr} {np nc ns : BTreeNode}

private theorem set_comm (m : Mem) {p q : Addr} (h : p ≠ q)
    (np nq : BTreeNode) :
    (m.set p np).set q nq = (m.set q nq).set p np := by
  simp only [Mem.set, List.set_comm np nq h]

private theorem set_set (m : Mem) (p : Addr) (nd nd' : BTreeNode) :
    (m.set p nd).set p nd' = m.set p nd' := by
  simp [Mem.set]

/-- In any order the three assignments give the same memory. -/
theorem rotate (h : Trio m p c s) :
    m.with3 p c s np nc ns = m.with3 c s p nc ns np := by
  unfold Mem.with3
  rw [set_comm m h.p_ne_c, set_comm (m.set c nc) h.p_ne_s]

theorem shift (h : Trio m p c s) : Trio m c s p where
  p_ne_c := h.c_ne_s
  p_ne_s := h.p_ne_c.symm
  c_ne_s := h.p_ne_s.symm
  p_alive := h.c_alive
  c_alive := h.s_alive
  s_alive := h.p_alive

theorem swap (h : Trio m p c s) : Trio m p s c where
  p_ne_c := h.p_ne_s
  p_ne_s := h.p_ne_c
  c_ne_s := h.c_ne_s.symm
  p_alive := h.p_alive
  c_alive := h.s_alive
  s_alive := h.c_alive

theorem get_s (h : Trio m p c s) :
    (m.with3 p c s np nc ns).get s = some ns := by
  obtain ⟨nd, hs⟩ := h.s_alive
  unfold Mem.with3
  apply Mem.get_set_self
  rw [Mem.get_set_ne h.c_ne_s.symm, Mem.get_set_ne h.p_ne_s.symm]
  exact hs

theorem get_p (h : Trio m p c s) :
    (m.with3 p c s np nc ns).get p = some np := by
  rw [h.rotate]
  exact h.shift.get_s

theorem get_c (h : Trio m p c s) :
    (m.with3 p c s np nc ns).get c = some nc := by
  rw [h.rotate]
  exact h.shift.get_p

theorem focus_s (h : Trio m p c s) (np nc : BTreeNode) :
    Focus s fun ns => m.with3 p c s np nc ns where
  get _ := h.get_s
  set _ _ := set_set _ s _ _

theorem focus_p (h : Trio m p c s) (nc ns : BTreeNode) :
    Focus p fun np => m.with3 p c s np nc ns where
  get _ := h.get_p
  set np np' := by
    rw [h.rotate, h.rotate]
    exact (h.shift.focus_s nc ns).set np np'

theorem focus_c (h : Trio m p c s) (np ns : BTreeNode) :
    Focus c fun nc => m.with3 p c s np nc ns where
  get _ := h.get_c
  set nc nc' := by
    rw [h.rotate, h.rotate]
    exact (h.shift.focus_p ns np).set nc nc'

theorem get_other {q : Addr} (hp : q ≠ p) (hc : q ≠ c) (hs : q ≠ s) :
    (m.with3 p c s np nc ns).get q = m.get q := by
  unfold Mem.with3
  rw [Mem.get_set_ne hs, Mem.get_set_ne hc, Mem.get_set_ne hp]

/-- A memory, seen as holding the three nodes it holds. -/
theorem eq_with3 (hp : m.get p = some np) (hc : m.get c = some nc)
    (hs : m.get s = some ns) : m = m.with3 p c s np nc ns := by
  unfold Mem.with3
  rw [Mem.set_self hp, Mem.set_self hc, Mem.set_self hs]

end Trio

end ParallelBTree.Ports.NodeMemory
