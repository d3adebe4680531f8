import ParallelBTree.Ports.Bare
import ParallelBTree.Ports.InsertActions
import Mathlib.Logic.Function.Basic

/-!
# What a search may rely on while keys are inserted

Between any two writes of an insertion the tree is out of order: keys stand twice
or not at all where they belong, and a node that was split still waits for its
other half to be linked.  `Searchable` is what holds nevertheless.  Each node that
can be come to has a level, leaves at 0; its child slots up to `keysnum` are
written, and every written one points to a node one level below.  The level of a
node is a ghost, and it has none until other threads can come to it.

`Keeps` adds that nothing is taken back: levels stay, and a slot that is written
stays written.  Of the keys it says where they come from, and nothing about their
order.

## Main results

* `insert_guarantees` — every action of `insert` keeps the tree searchable.
-/

namespace ParallelBTree.Ports.InsertActions

open ParallelBTree.Verified.Program (Prog bind_run_ok bind_ok)
open ParallelBTree.Verified.Actions
open ParallelBTree.Ports.NodeMemory
open ParallelBTree.Ports.Represent (DeletedOld DeletedOld.fresh)

/-! ## Nodes without their keys -/

/-- What a search reads of a node besides keys. -/
structure Shape where
  t : Nat
  leaf : Bool
  keysnum : Nat
  children : List (Option Ptr)

def shape (nd : BTreeNode) : Shape := ⟨nd.t, nd.leaf, nd.keysnum, nd.children.cells⟩

def shapeAt (b : BTree) (p : Addr) : Option Shape := (b.mem.get p).map shape

/-- Every key slot that was written holds a key in `S`; and no node is deleted
that was not created. -/
structure KeysIn (S : Int → Prop) (b : BTree) : Prop where
  keys : ∀ p nd, b.mem.get p = some nd →
    ∀ (i : Nat) v, nd.keys.cells[i]? = some (some v) → S v
  old : DeletedOld b.mem

/-- The same tree but for keys. -/
structure SameShape (b b' : BTree) : Prop where
  t : b'.t = b.t
  root : b'.root = b.root
  shape : shapeAt b' = shapeAt b

/-- The same tree but for keys and for the node `p`, which is as `sh` says. -/
structure Reshaped (b b' : BTree) (p : Addr) (sh : Shape) : Prop where
  t : b'.t = b.t
  root : b'.root = b.root
  shape : shapeAt b' = Function.update (shapeAt b) p (some sh)

theorem SameShape.refl (b : BTree) : SameShape b b := ⟨rfl, rfl, rfl⟩

theorem SameShape.trans {b b' b'' : BTree} (h : SameShape b b')
    (h' : SameShape b' b'') : SameShape b b'' :=
  ⟨h'.t.trans h.t, h'.root.trans h.root, h'.shape.trans h.shape⟩

section Writes

variable {S : Int → Prop} {b b' : BTree} {p q : Addr} {i j n : Nat} {v : Int}
  {nd nd' : BTreeNode} {u : Unit}

theorem shapeAt_of_get (h : b.mem.get p = some nd) :
    shapeAt b p = some (shape nd) := by
  rw [shapeAt, h]
  rfl

theorem get_of_shapeAt {sh : Shape} (h : shapeAt b p = some sh) :
    ∃ nd, b.mem.get p = some nd ∧ shape nd = sh :=
  Option.map_eq_some_iff.mp h

theorem shapeAt_set (h : b.mem.get p = some nd) (nd' : BTreeNode) :
    shapeAt { b with mem := b.mem.set p nd' } =
      Function.update (shapeAt b) p (some (shape nd')) := by
  funext q
  by_cases hq : q = p
  · subst hq
    rw [Function.update_self]
    exact shapeAt_of_get (Mem.get_set_self h)
  · rw [Function.update_of_ne hq]
    exact congrArg (Option.map shape) (Mem.get_set_ne hq)

theorem KeysIn.set (hS : KeysIn S b) (h : b.mem.get p = some nd)
    (hkeys : ∀ (i : Nat) v, nd'.keys.cells[i]? = some (some v) → S v) :
    KeysIn S { b with mem := b.mem.set p nd' } := by
  refine ⟨fun q nq hq => ?_, fun q hq => ?_⟩
  · by_cases hqp : q = p
    · subst hqp
      obtain rfl : nd' = nq :=
        Option.some.inj ((Mem.get_set_self h).symm.trans hq)
      exact hkeys
    · exact hS.keys q nq ((Mem.get_set_ne hqp).symm.trans hq)
  · rw [Mem.set_nodes_length]
    exact hS.old q hq

/-- A key is written. -/
theorem keyWritten (hS : KeysIn S b) (h : b.mem.get p = some nd) (hv : S v) :
    KeysIn S { b with
      mem := b.mem.set p { nd with keys := nd.keys.set i (some v) } } ∧
    SameShape b { b with
      mem := b.mem.set p { nd with keys := nd.keys.set i (some v) } } := by
  refine ⟨hS.set h fun j w hw => ?_, rfl, rfl, ?_⟩
  · have hset : (nd.keys.cells.set i (some v))[j]? = some (some w) := hw
    rw [List.getElem?_set] at hset
    split at hset
    · split at hset
      · exact Option.some.inj (Option.some.inj hset) ▸ hv
      · cases hset
    · exact hS.keys p nd h j w hset
  · have hsame : shapeAt b p = some (shape nd) := shapeAt_of_get h
    rw [shapeAt_set h]
    exact hsame ▸ Function.update_eq_self p _

theorem setKey_ok {m m' : Mem} (h : setKey p i v m = .ok (u, m')) :
    ∃ nd, m.get p = some nd ∧
      m' = m.set p { nd with keys := nd.keys.set i (some v) } := by
  obtain ⟨nd, m₁, hnode, hrest⟩ := bind_ok h
  obtain ⟨hget, rfl⟩ := node_ok hnode
  split at hrest
  · obtain ⟨-, rfl⟩ := Prod.mk.inj (Except.ok.inj hrest)
    exact ⟨nd, hget, rfl⟩
  · cases hrest

theorem keyAt_ok {m m' : Mem} (h : keyAt p i m = .ok (v, m')) :
    ∃ nd, m.get p = some nd ∧ nd.keys.cells[i]? = some (some v) ∧ m' = m := by
  obtain ⟨nd, m₁, hnode, hrest⟩ := bind_ok h
  obtain ⟨hget, rfl⟩ := node_ok hnode
  cases hcell : nd.keys.cells[i]? with
  | none =>
      rw [hcell] at hrest
      cases hrest
  | some slot =>
      rw [hcell] at hrest
      cases slot with
      | none => cases hrest
      | some w =>
          obtain ⟨rfl, rfl⟩ := Prod.mk.inj (Except.ok.inj hrest)
          exact ⟨nd, hget, hcell, rfl⟩

theorem child_ok {m m' : Mem} {c : Addr} (h : child p i m = .ok (c, m')) :
    ∃ nd, m.get p = some nd ∧ nd.children.cells[i]? = some (some (some c)) ∧
      m' = m := by
  obtain ⟨ptr, m₁, hptr, hrest⟩ := bind_ok h
  obtain ⟨slot, m₂, hslot, hread⟩ := bind_ok hptr
  obtain ⟨nd, -, hget, hcell, -⟩ := childSlot_ok hslot
  cases slot with
  | none => cases hread
  | some ptr' =>
      obtain ⟨-, rfl⟩ := Prod.mk.inj (Except.ok.inj
        ((childSlot_run hget hcell).symm.trans hslot))
      obtain ⟨rfl, rfl⟩ := Prod.mk.inj (Except.ok.inj hread)
      cases ptr' with
      | none => cases hrest
      | some q =>
          obtain ⟨rfl, rfl⟩ := Prod.mk.inj (Except.ok.inj hrest)
          exact ⟨nd, hget, hcell, rfl⟩

theorem setKey_same (hS : KeysIn S b) (hv : S v)
    (h : onMem (setKey p i v) b = .ok (u, b')) : KeysIn S b' ∧ SameShape b b' := by
  obtain ⟨m, hrun, rfl⟩ := onMem_ok h
  obtain ⟨nd, hget, rfl⟩ := setKey_ok hrun
  exact keyWritten hS hget hv

theorem copyKey_same (hS : KeysIn S b)
    (h : onMem (copyKey p i q j) b = .ok (u, b')) :
    KeysIn S b' ∧ SameShape b b' := by
  obtain ⟨m, hrun, rfl⟩ := onMem_ok h
  obtain ⟨v, m₁, hread, hwrite⟩ := bind_ok hrun
  obtain ⟨nd, hget, hcell, rfl⟩ := keyAt_ok hread
  obtain ⟨nd', hget', rfl⟩ := setKey_ok hwrite
  exact keyWritten hS hget' (hS.keys p nd hget i v hcell)

theorem record_same {fn : Fn} {caller arg : Ptr} (hS : KeysIn S b)
    (h : onMem (record fn caller p i arg) b = .ok (u, b')) :
    KeysIn S b' ∧ SameShape b b' := by
  obtain ⟨m, hrun, rfl⟩ := onMem_ok h
  obtain ⟨-, rfl⟩ := Prod.mk.inj (Except.ok.inj hrun)
  exact ⟨⟨hS.keys, hS.old⟩, rfl, rfl, rfl⟩

theorem setKeysnum_reshaped (hS : KeysIn S b)
    (h : onMem (setKeysnum p n) b = .ok (u, b')) :
    ∃ sh, shapeAt b p = some sh ∧ KeysIn S b' ∧
      Reshaped b b' p { sh with keysnum := n } := by
  obtain ⟨m, hrun, rfl⟩ := onMem_ok h
  obtain ⟨nd, m₁, hnode, hrest⟩ := bind_ok hrun
  obtain ⟨hget, rfl⟩ := node_ok hnode
  obtain ⟨-, rfl⟩ := Prod.mk.inj (Except.ok.inj hrest)
  exact ⟨shape nd, shapeAt_of_get hget, hS.set hget (hS.keys p nd hget), rfl, rfl,
    shapeAt_set hget _⟩

/-- `keysnum = keysnum + 1`. -/
theorem countUp_reshaped (hS : KeysIn S b)
    (h : onMem (do setKeysnum p ((← node p).keysnum + 1)) b = .ok (u, b')) :
    ∃ sh, shapeAt b p = some sh ∧ KeysIn S b' ∧
      Reshaped b b' p { sh with keysnum := sh.keysnum + 1 } := by
  obtain ⟨m, hrun, rfl⟩ := onMem_ok h
  obtain ⟨nd, m₁, hnode, hrest⟩ := bind_ok hrun
  obtain ⟨hget, rfl⟩ := node_ok hnode
  obtain ⟨sh, hsh, hset⟩ := setKeysnum_reshaped hS (onMem_run hrest)
  obtain rfl : shape nd = sh :=
    Option.some.inj ((shapeAt_of_get hget).symm.trans hsh)
  exact ⟨shape nd, hsh, hset⟩

theorem setChild_reshaped {slot : Option Ptr} (hS : KeysIn S b)
    (h : onMem (setChild p i slot) b = .ok (u, b')) :
    ∃ sh, shapeAt b p = some sh ∧ i < sh.children.length ∧ KeysIn S b' ∧
      Reshaped b b' p { sh with children := sh.children.set i slot } := by
  obtain ⟨m, hrun, rfl⟩ := onMem_ok h
  obtain ⟨nd, m₁, hnode, hrest⟩ := bind_ok hrun
  obtain ⟨hget, rfl⟩ := node_ok hnode
  split at hrest
  · rename_i hi
    obtain ⟨-, rfl⟩ := Prod.mk.inj (Except.ok.inj hrest)
    exact ⟨shape nd, shapeAt_of_get hget, nd.children.length_cells ▸ hi,
      hS.set hget (hS.keys p nd hget), rfl, rfl, shapeAt_set hget _⟩
  · cases hrest

theorem copyChild_reshaped {sh : Shape} {c : Ptr} (hS : KeysIn S b)
    (hsh : shapeAt b p = some sh) (hc : sh.children[i]? = some (some c))
    (h : onMem (copyChild p i q j) b = .ok (u, b')) :
    ∃ sh, shapeAt b q = some sh ∧ j < sh.children.length ∧ KeysIn S b' ∧
      Reshaped b b' q { sh with children := sh.children.set j (some c) } := by
  obtain ⟨nd, hget, rfl⟩ := get_of_shapeAt hsh
  obtain ⟨m, hrun, rfl⟩ := onMem_ok h
  have hrun' : (childSlot p i >>= fun slot => setChild q j slot) b.mem =
      .ok (u, m) := hrun
  rw [bind_run_ok (childSlot_run hget hc)] at hrun'
  exact setChild_reshaped hS (onMem_run hrun')

end Writes

/-! ## Searchable trees -/

/-- The level of each node that can be come to. -/
abbrev Levels := Addr → Option Nat

/-- What is promised of a node at level `k`. -/
structure Sound (g : Levels) (t h k : Nat) (sh : Shape) : Prop where
  t_eq : sh.t = t
  leaf_iff : sh.leaf = true ↔ k = 0
  keysnum_le : sh.keysnum ≤ 2 * t - 1
  level_le : k ≤ h
  written : k ≠ 0 → ∀ i ≤ sh.keysnum, ∃ c, sh.children[i]? = some (some c)
  points : ∀ j, k = j + 1 → ∀ (i : Nat) c, sh.children[i]? = some (some c) →
    ∃ q, c = some q ∧ g q = some j

/-- What holds of a tree that may be in the middle of an insertion. -/
structure Searchable (S : Int → Prop) (h : Nat) (g : Levels) (b : BTree) :
    Prop where
  keys : KeysIn S b
  root : ∀ r, b.root = some r → ∃ k, g r = some k
  node : ∀ p k, g p = some k → ∃ sh, shapeAt b p = some sh ∧ Sound g b.t h k sh

/-- The child slot `i` of `p` has been written. -/
def Written (b : BTree) (p : Addr) (i : Nat) : Prop :=
  ∃ sh c, shapeAt b p = some sh ∧ sh.children[i]? = some (some c)

/-- What other threads know of the tree stays true. -/
structure Grows (b : BTree) (g : Levels) (b' : BTree) (g' : Levels) : Prop where
  t : b'.t = b.t
  levels : ∀ p k, g p = some k → g' p = some k
  slots : ∀ p i, Written b p i → Written b' p i
  root : b.root ≠ none → b'.root ≠ none

def Keeps (S : Int → Prop) (h : Nat) (b : BTree) (g : Levels) (b' : BTree)
    (g' : Levels) : Prop :=
  Searchable S h g' b' ∧ Grows b g b' g'

section Steps

variable {S : Int → Prop} {b b' b'' : BTree} {g g' g'' : Levels}
  {p q z : Addr} {t h k i j m : Nat} {sh sh' : Shape} {c d : Ptr}

theorem Grows.refl (b : BTree) (g : Levels) : Grows b g b g :=
  ⟨rfl, fun _ _ => id, fun _ _ => id, id⟩

theorem Grows.trans (h : Grows b g b' g') (h' : Grows b' g' b'' g'') :
    Grows b g b'' g'' where
  t := h'.t.trans h.t
  levels p k := h'.levels p k ∘ h.levels p k
  slots p i := h'.slots p i ∘ h.slots p i
  root := h'.root ∘ h.root

theorem Searchable.keeps (hb : Searchable S h g b) : Keeps S h b g b g :=
  ⟨hb, .refl b g⟩

theorem Keeps.trans (hk : Keeps S h b g b' g') (hk' : Keeps S h b' g' b'' g'') :
    Keeps S h b g b'' g'' := ⟨hk'.1, hk.2.trans hk'.2⟩

theorem Sound.levels (hs : Sound g t h k sh)
    (hg : ∀ p j, g p = some j → g' p = some j) : Sound g' t h k sh :=
  { hs with
    points := fun j hj i c hc => by
      obtain ⟨q, hq, hlevel⟩ := hs.points j hj i c hc
      exact ⟨q, hq, hg q j hlevel⟩ }

theorem Searchable.higher (hb : Searchable S h g b) {h' : Nat} (hle : h ≤ h') :
    Searchable S h' g b where
  keys := hb.keys
  root := hb.root
  node p k hp := by
    obtain ⟨sh, hsh, hs⟩ := hb.node p k hp
    exact ⟨sh, hsh, { hs with level_le := Nat.le_trans hs.level_le hle }⟩

theorem SameShape.keeps (hs : SameShape b b') (hS : KeysIn S b')
    (hb : Searchable S h g b) : Keeps S h b g b' g := by
  refine ⟨⟨hS, ?_, ?_⟩, ⟨hs.t, fun _ _ => id, ?_, ?_⟩⟩
  · rw [hs.root]
    exact hb.root
  · rw [hs.shape, hs.t]
    exact hb.node
  · intro p i hw
    unfold Written at hw ⊢
    rwa [hs.shape]
  · rw [hs.root]
    exact id

/-- A node is changed, and if others can come to it, it stays as promised. -/
theorem Reshaped.keeps (hr : Reshaped b b' p sh') (hS : KeysIn S b')
    (hb : Searchable S h g b) (hsh : shapeAt b p = some sh)
    (hp : ∀ k, g p = some k → Sound g b.t h k sh')
    (hslots : ∀ (i : Nat) c, sh.children[i]? = some (some c) →
      ∃ c', sh'.children[i]? = some (some c')) : Keeps S h b g b' g := by
  refine ⟨⟨hS, ?_, ?_⟩, ⟨hr.t, fun _ _ => id, ?_, ?_⟩⟩
  · rw [hr.root]
    exact hb.root
  · intro q k hq
    rw [hr.shape, hr.t]
    by_cases hqp : q = p
    · subst hqp
      exact ⟨sh', Function.update_self _ _ _, hp k hq⟩
    · rw [Function.update_of_ne hqp]
      exact hb.node q k hq
  · rintro q i ⟨shq, c, hq, hc⟩
    unfold Written
    rw [hr.shape]
    by_cases hqp : q = p
    · subst hqp
      obtain rfl : shq = sh := Option.some.inj (hq.symm.trans hsh)
      obtain ⟨c', hc'⟩ := hslots i c hc
      exact ⟨sh', c', Function.update_self _ _ _, hc'⟩
    · exact ⟨shq, c, by rw [Function.update_of_ne hqp, hq], hc⟩
  · rw [hr.root]
    exact id

/-- Others may come to a node that is as it will be promised. -/
theorem Searchable.publish (hb : Searchable S h g b) (hz : g z = none)
    (hsh : shapeAt b z = some sh)
    (hs : Sound (Function.update g z (some k)) b.t h k sh) :
    Keeps S h b g b (Function.update g z (some k)) := by
  have hg : ∀ p j, g p = some j → Function.update g z (some k) p = some j := by
    intro p j hp
    have hpz : p ≠ z := by
      rintro rfl
      exact absurd (hp.symm.trans hz) (Option.some_ne_none j)
    rw [Function.update_of_ne hpz, hp]
  refine ⟨⟨hb.keys, ?_, ?_⟩, ⟨rfl, hg, fun _ _ => id, id⟩⟩
  · intro r hr
    obtain ⟨j, hj⟩ := hb.root r hr
    exact ⟨j, hg r j hj⟩
  · intro p j hp
    by_cases hpz : p = z
    · subst hpz
      obtain rfl : k = j := by
        rw [Function.update_self] at hp
        exact Option.some.inj hp
      exact ⟨sh, hsh, hs⟩
    · rw [Function.update_of_ne hpz] at hp
      obtain ⟨shp, hshp, hsp⟩ := hb.node p j hp
      exact ⟨shp, hshp, hsp.levels hg⟩

theorem set_written {l : List (Option Ptr)} (hc : l[i]? = some (some c)) (m : Nat)
    (d : Ptr) : ∃ c', (l.set m (some d))[i]? = some (some c') := by
  by_cases him : m = i
  · subst him
    have hlt : m < l.length := (List.getElem?_eq_some_iff.mp hc).1
    exact ⟨d, by simp [hlt]⟩
  · exact ⟨c, by rw [List.getElem?_set_ne him, hc]⟩

theorem eq_or_of_set {l : List (Option Ptr)}
    (hc : (l.set m (some d))[i]? = some (some c)) :
    c = d ∨ l[i]? = some (some c) := by
  rw [List.getElem?_set] at hc
  split at hc
  · split at hc
    · exact Or.inl (Option.some.inj (Option.some.inj hc)).symm
    · cases hc
  · exact Or.inr hc

/-- A child slot is written with a pointer one level down. -/
theorem Sound.link (hs : Sound g t h (k + 1) sh) (hq : g q = some k) (m : Nat) :
    Sound g t h (k + 1)
      { sh with children := sh.children.set m (some (some q)) } where
  t_eq := hs.t_eq
  leaf_iff := hs.leaf_iff
  keysnum_le := hs.keysnum_le
  level_le := hs.level_le
  written hk i hi := by
    obtain ⟨c, hc⟩ := hs.written hk i hi
    exact set_written hc m _
  points j hj i c hc := by
    obtain rfl : k = j := Nat.succ.inj hj
    rcases eq_or_of_set hc with rfl | hc
    · exact ⟨q, rfl, hq⟩
    · exact hs.points k rfl i c hc

/-- The number of keys changes. -/
theorem Sound.recount (hs : Sound g t h k sh) {n : Nat} (hn : n ≤ 2 * t - 1)
    (hwritten : k ≠ 0 → ∀ i ≤ n, ∃ c, sh.children[i]? = some (some c)) :
    Sound g t h k { sh with keysnum := n } :=
  { hs with
    keysnum_le := hn
    written := hwritten }

end Steps

/-! ## `splitChild` -/

section Split

variable {S : Int → Prop} {b b' : BTree} {g : Levels} {p q y z : Addr}
  {t h k i j m n : Nat} {sh : Shape} {α : Type}

theorem guar_same {f : M α} (hb : Searchable S h g b)
    (hf : ∀ a b', onMem f b = .ok (a, b') → KeysIn S b' ∧ SameShape b b') :
    Guarantees (Keeps S h) (on f) b g fun _ b' g' =>
      g' = g ∧ Searchable S h g b' ∧ SameShape b b' :=
  Guarantees.atom fun a b' hrun =>
    have hsame := hf a b' hrun
    have hkeeps := hsame.2.keeps hsame.1 hb
    ⟨g, hkeeps, rfl, hkeeps.1, hsame.2⟩

theorem guar_node (hb : Searchable S h g b) :
    Guarantees (Keeps S h) (on (node p)) b g fun nd b' g' =>
      b' = b ∧ g' = g ∧ shapeAt b p = some (shape nd) := by
  refine Guarantees.atom fun nd b' hrun => ⟨g, ?_⟩
  obtain ⟨m, hnode, rfl⟩ := onMem_ok hrun
  obtain ⟨hget, rfl⟩ := node_ok hnode
  exact ⟨hb.keeps, rfl, rfl, shapeAt_of_get hget⟩

/-- Keys are moved in a loop upwards. -/
theorem guar_keysUp {src : Nat → Nat} {dst : Nat → Nat} (hb : Searchable S h g b)
    {lo hi : Nat} (hle : lo ≤ hi) :
    Guarantees (Keeps S h)
      (Thread.forUp lo hi fun j => on (copyKey p (src j) q (dst j))) b g
      fun _ b' g' => g' = g ∧ Searchable S h g b' ∧ SameShape b b' := by
  refine Guarantees.forUp (I := fun _ b' g' =>
    g' = g ∧ Searchable S h g b' ∧ SameShape b b') hle ?_ ⟨rfl, hb, .refl b⟩
  rintro j s _ - - ⟨rfl, hs, hsame⟩
  refine (guar_same hs fun _ _ hrun => copyKey_same hs.keys hrun).mono ?_
  exact fun _ b' g' hpost => ⟨hpost.1, hpost.2.1, hsame.trans hpost.2.2⟩

/-- Keys are moved in a loop downwards. -/
theorem guar_keysDown (hb : Searchable S h g b) {lo hi : Nat} (hle : lo ≤ hi) :
    Guarantees (Keeps S h)
      (Thread.forDown hi lo fun j => on (copyKey p j p (j + 1))) b g
      fun _ b' g' => g' = g ∧ Searchable S h g b' ∧ SameShape b b' := by
  refine Guarantees.forDown (I := fun _ b' g' =>
    g' = g ∧ Searchable S h g b' ∧ SameShape b b') hle ?_ ⟨rfl, hb, .refl b⟩
  rintro j s _ - - ⟨rfl, hs, hsame⟩
  refine (guar_same hs fun _ _ hrun => copyKey_same hs.keys hrun).mono ?_
  exact fun _ b' g' hpost => ⟨hpost.1, hpost.2.1, hsame.trans hpost.2.2⟩

/-- The same tree but for keys and for the node `z`. -/
structure Frame (b b' : BTree) (z : Addr) : Prop where
  t : b'.t = b.t
  shape : ∀ q, q ≠ z → shapeAt b' q = shapeAt b q

theorem Frame.refl (b : BTree) (z : Addr) : Frame b b z := ⟨rfl, fun _ _ => rfl⟩

theorem Frame.trans {b'' : BTree} (hf : Frame b b' z) (hf' : Frame b' b'' z) :
    Frame b b'' z :=
  ⟨hf'.t.trans hf.t, fun q hq => (hf'.shape q hq).trans (hf.shape q hq)⟩

theorem SameShape.frame (hs : SameShape b b') (z : Addr) : Frame b b' z :=
  ⟨hs.t, fun q _ => congrFun hs.shape q⟩

theorem Reshaped.frame (hr : Reshaped b b' z sh) : Frame b b' z :=
  ⟨hr.t, fun q hq => by rw [hr.shape, Function.update_of_ne hq]⟩

theorem Reshaped.self (hr : Reshaped b b' z sh) : shapeAt b' z = some sh := by
  rw [hr.shape, Function.update_self]

/-- The new node `z` while nobody else can come to it: `j` of its child slots are
written. -/
structure Pending (g : Levels) (t k j : Nat) (sh : Shape) : Prop where
  t_eq : sh.t = t
  leaf_iff : sh.leaf = true ↔ k = 0
  keysnum_eq : sh.keysnum = t - 1
  written : ∀ i < j, ∃ c, sh.children[i]? = some (some c)
  points : ∀ j, k = j + 1 → ∀ (i : Nat) c, sh.children[i]? = some (some c) →
    ∃ q, c = some q ∧ g q = some j

theorem Pending.sound (hp : Pending g t k j sh) (hj : k ≠ 0 → t ≤ j)
    (ht : 1 ≤ t) (hk : k ≤ h) : Sound g t h k sh where
  t_eq := hp.t_eq
  leaf_iff := hp.leaf_iff
  keysnum_le := by
    rw [hp.keysnum_eq]
    omega
  level_le := hk
  written hk i hi := hp.written i (by
    have hle := hj hk
    rw [hp.keysnum_eq] at hi
    omega)
  points := hp.points

/-- The second half of the children of `y` goes to the new node as well. -/
theorem guar_moveKids (hb : Searchable S h g b) (hy : g y = some k)
    (hz : g z = none) (hk : k ≠ 0)
    (hfull : ∃ sh, shapeAt b y = some sh ∧ sh.keysnum = 2 * b.t - 1)
    (hsh : ∃ sh, shapeAt b z = some sh ∧ Pending g b.t k 0 sh) :
    Guarantees (Keeps S h)
      (Thread.forUp 0 b.t fun j => on (copyChild y (j + b.t) z j)) b g
      fun _ b' g' => g' = g ∧ Searchable S h g b' ∧ Frame b b' z ∧
        ∃ sh, shapeAt b' z = some sh ∧ Pending g b.t k b.t sh := by
  obtain ⟨l, rfl⟩ := Nat.exists_eq_add_one_of_ne_zero hk
  obtain ⟨shy, hshy, hnum⟩ := hfull
  have hyz : y ≠ z := by
    rintro rfl
    exact absurd (hy.symm.trans hz) (Option.some_ne_none _)
  refine Guarantees.forUp (I := fun j b' g' => g' = g ∧ Searchable S h g b' ∧
    Frame b b' z ∧ ∃ sh, shapeAt b' z = some sh ∧ Pending g b.t (l + 1) j sh)
    (Nat.zero_le _) ?_ ⟨rfl, hb, .refl b z, hsh⟩
  rintro j s g - hj ⟨rfl, hs, hframe, shz, hshz, hpend⟩
  refine Guarantees.atom fun _ s' hrun => ⟨g, ?_⟩
  have hshy' : shapeAt s y = some shy := (hframe.shape y hyz).trans hshy
  obtain ⟨shy', hshy'', hsound⟩ := hs.node y _ hy
  obtain rfl : shy' = shy := Option.some.inj (hshy''.symm.trans hshy')
  obtain ⟨c, hc⟩ := hsound.written hk (j + b.t) (by omega)
  obtain ⟨shz', hshz', hlt, hS, hr⟩ := copyChild_reshaped hs.keys hshy' hc hrun
  obtain rfl : shz' = shz := Option.some.inj (hshz'.symm.trans hshz)
  have hkeeps := hr.keeps hS hs hshz
    (fun k hk => absurd (hk.symm.trans hz) (Option.some_ne_none k))
    (fun i c hc => set_written hc j _)
  refine ⟨hkeeps, rfl, hkeeps.1, hframe.trans hr.frame, _, hr.self, ?_⟩
  exact
    { t_eq := hpend.t_eq
      leaf_iff := hpend.leaf_iff
      keysnum_eq := hpend.keysnum_eq
      written := by
        intro i hi
        rcases Nat.lt_succ_iff_lt_or_eq.mp hi with hi | rfl
        · obtain ⟨c', hc'⟩ := hpend.written i hi
          exact set_written hc' j _
        · exact ⟨c, List.getElem?_set_self hlt⟩
      points := by
        intro j' hj' i c' hc'
        rcases eq_or_of_set hc' with rfl | hc'
        · exact hsound.points j' hj' _ _ hc
        · exact hpend.points j' hj' i c' hc' }

/-- The children of `p` behind slot `i` move one slot up. -/
theorem guar_shiftKids (hb : Searchable S h g b) (hp : g p = some (k + 1))
    (hi : i ≤ n)
    (hsh : ∃ sh, shapeAt b p = some sh ∧ sh.keysnum = n ∧
      sh.children[i]? = some (some (some y))) :
    Guarantees (Keeps S h)
      (Thread.forDown (n + 1) (i + 1) fun j => on (copyChild p j p (j + 1))) b g
      fun _ b' g' => g' = g ∧ Searchable S h g b' ∧ Frame b b' p ∧
        ∃ sh, shapeAt b' p = some sh ∧ sh.keysnum = n ∧
          sh.children[i]? = some (some (some y)) ∧
          (i + 1 ≤ n → ∃ c, sh.children[n + 1]? = some (some c)) := by
  refine Guarantees.forDown (I := fun j b' g' => g' = g ∧ Searchable S h g b' ∧
    Frame b b' p ∧ ∃ sh, shapeAt b' p = some sh ∧ sh.keysnum = n ∧
      sh.children[i]? = some (some (some y)) ∧
      (j ≤ n → ∃ c, sh.children[n + 1]? = some (some c)))
    (Nat.succ_le_succ hi) ?_ ?_
  · rintro j s g hlo hhi ⟨rfl, hs, hframe, shp, hshp, hnum, hy, hlast⟩
    refine Guarantees.atom fun _ s' hrun => ⟨g, ?_⟩
    obtain ⟨shp', hshp', hsound⟩ := hs.node p _ hp
    obtain rfl : shp' = shp := Option.some.inj (hshp'.symm.trans hshp)
    obtain ⟨c, hc⟩ := hsound.written (Nat.succ_ne_zero k) j (by omega)
    obtain ⟨q, rfl, hq⟩ := hsound.points k rfl j c hc
    obtain ⟨shp, hshp, hlt, hS, hr⟩ := copyChild_reshaped hs.keys hshp' hc hrun
    obtain rfl : shp' = shp := Option.some.inj (hshp'.symm.trans hshp)
    have hkeeps := hr.keeps hS hs hshp
      (fun l hl => by
        obtain rfl : k + 1 = l := Option.some.inj (hp.symm.trans hl)
        exact hsound.link hq (j + 1))
      (fun i c hc => set_written hc (j + 1) _)
    refine ⟨hkeeps, rfl, hkeeps.1, hframe.trans hr.frame, _, hr.self, hnum, ?_, ?_⟩
    · exact (List.getElem?_set_ne (by omega)).trans hy
    · intro hj
      rcases Nat.lt_or_eq_of_le hj with hj | rfl
      · obtain ⟨c', hc'⟩ := hlast hj
        exact set_written hc' (j + 1) _
      · exact ⟨_, List.getElem?_set_self hlt⟩
  · obtain ⟨sh, hsh, hnum, hy⟩ := hsh
    exact ⟨rfl, hb, .refl b p, sh, hsh, hnum, hy, fun hle => by omega⟩

theorem get_length (m : Mem) : m.get m.nodes.length = none := by
  cases hget : m.get m.nodes.length with
  | none => rfl
  | some nd => exact absurd (Mem.lt_of_get hget) (Nat.lt_irrefl _)

theorem push_frame (b : BTree) (nd : BTreeNode) :
    Frame b { b with mem := b.mem.push nd } b.mem.nodes.length := by
  refine ⟨rfl, fun q hq => ?_⟩
  rcases Nat.lt_or_gt_of_ne hq with hlt | hgt
  · exact congrArg (Option.map shape) (Mem.get_push_lt hlt)
  · have hout : ∀ m : Mem, m.nodes.length ≤ q → m.get q = none := by
      intro m hle
      cases hget : m.get q with
      | none => rfl
      | some nd => exact absurd (Mem.lt_of_get hget) (Nat.not_lt.mpr hle)
    have hpush : (b.mem.push nd).nodes.length ≤ q := by
      simp only [Mem.push, List.length_append, List.length_singleton]
      omega
    rw [shapeAt, shapeAt, hout _ hpush, hout b.mem (Nat.le_of_lt hgt)]

theorem KeysIn.push (hS : KeysIn S b) (leaf : Bool) :
    KeysIn S { b with mem := b.mem.push (.new t leaf) } := by
  refine ⟨fun q nd hget i v hv => ?_, fun q hq => ?_⟩
  · by_cases hq : q = b.mem.nodes.length
    · subst hq
      obtain rfl : .new t leaf = nd := Option.some.inj
        ((Mem.get_push_self hS.old.fresh).symm.trans hget)
      have hcell : (List.replicate (2 * t - 1) (none : Option Int))[i]? =
          some (some v) := hv
      cases (List.mem_replicate.mp (List.mem_of_getElem? hcell)).2
    · obtain ⟨nd', hget', -⟩ := get_of_shapeAt
        (((push_frame b _).shape q hq).symm.trans (shapeAt_of_get hget))
      have hlt : q < b.mem.nodes.length := Mem.lt_of_get hget'
      exact hS.keys q nd ((Mem.get_push_lt hlt).symm.trans hget) i v hv
  · show q < (b.mem.nodes ++ [_]).length
    rw [List.length_append]
    exact Nat.lt_add_right _ (hS.old q hq)

/-- A node is allocated. -/
theorem guar_new {f : M Addr} {leaf : Bool} (hb : Searchable S h g b)
    (hf : ∀ z b', onMem f b = .ok (z, b') → z = b.mem.nodes.length ∧
      b' = { b with mem := b.mem.push (.new t leaf) }) :
    Guarantees (Keeps S h) (on f) b g fun z b' g' => g' = g ∧
      Searchable S h g b' ∧ Frame b b' z ∧ g z = none ∧
      shapeAt b' z = some (shape (.new t leaf)) := by
  refine Guarantees.atom fun z b' hrun => ⟨g, ?_⟩
  obtain ⟨rfl, rfl⟩ := hf z b' hrun
  have hnone : shapeAt b b.mem.nodes.length = none := by
    rw [shapeAt, get_length]
    rfl
  have hz : g b.mem.nodes.length = none := by
    cases hlevel : g b.mem.nodes.length with
    | none => rfl
    | some k =>
        obtain ⟨sh, hsh, -⟩ := hb.node _ k hlevel
        cases hsh.symm.trans hnone
  have hframe := push_frame b (.new t leaf)
  have hkeeps : Keeps S h b g { b with mem := b.mem.push (.new t leaf) } g := by
    refine ⟨⟨hb.keys.push leaf, hb.root, ?_⟩, rfl, fun _ _ => id, ?_, id⟩
    · intro q k hq
      have hne : q ≠ b.mem.nodes.length := by
        rintro rfl
        exact absurd (hq.symm.trans hz) (Option.some_ne_none k)
      rw [hframe.shape q hne]
      exact hb.node q k hq
    · rintro q i ⟨sh, c, hsh, hc⟩
      have hne : q ≠ b.mem.nodes.length := by
        rintro rfl
        cases hsh.symm.trans hnone
      exact ⟨sh, c, (hframe.shape q hne).trans hsh, hc⟩
  exact ⟨hkeeps, rfl, hkeeps.1, hframe, hz,
    shapeAt_of_get (Mem.get_push_self hb.keys.old.fresh)⟩

/-- How many keys a node is said to hold. -/
def Count (b : BTree) (p : Addr) (n : Nat) : Prop :=
  ∃ sh, shapeAt b p = some sh ∧ sh.keysnum = n

/-- What a child slot is said to hold. -/
def Kid (b : BTree) (p : Addr) (i : Nat) (c : Addr) : Prop :=
  ∃ sh, shapeAt b p = some sh ∧ sh.children[i]? = some (some (some c))

theorem Frame.count (hf : Frame b b' z) (hp : p ≠ z) (hn : Count b p n) :
    Count b' p n := by
  obtain ⟨sh, hsh, hnum⟩ := hn
  exact ⟨sh, (hf.shape p hp).trans hsh, hnum⟩

theorem Frame.kid {c : Addr} (hf : Frame b b' z) (hp : p ≠ z)
    (hk : Kid b p i c) : Kid b' p i c := by
  obtain ⟨sh, hsh, hc⟩ := hk
  exact ⟨sh, (hf.shape p hp).trans hsh, hc⟩

theorem SameShape.count (hs : SameShape b b') (hn : Count b p n) :
    Count b' p n := by
  unfold Count at hn ⊢
  rwa [hs.shape]

theorem SameShape.kid {c : Addr} (hs : SameShape b b') (hk : Kid b p i c) :
    Kid b' p i c := by
  unfold Kid at hk ⊢
  rwa [hs.shape]

theorem Count.eq {m : Nat} (hn : Count b p n) (hm : Count b p m) : n = m := by
  obtain ⟨sh, hsh, rfl⟩ := hn
  obtain ⟨sh', hsh', rfl⟩ := hm
  rw [Option.some.inj (hsh.symm.trans hsh')]

/-- What `splitChild(i, y)` leaves: two halves below `p`. -/
structure Halved (t k i : Nat) (p y : Addr) (b : BTree) (g : Levels) : Prop where
  left : Kid b p i y ∧ Count b y (t - 1)
  right : ∃ z, g z = some k ∧ Kid b p (i + 1) z ∧ Count b z (t - 1)

/-- The statements of `splitChild` that no other thread can see. -/
def fillHalf (t : Nat) (y : Addr) : Thread BTree Fault Addr := do
  let z ← on (do newNode (← node y).t (← node y).leaf)
  on (setKeysnum z (t - 1))
  Thread.forUp 0 (t - 1) fun j => on (copyKey y (j + t) z j)
  Thread.onlyIf (!(← on (node y)).leaf) <|
    Thread.forUp 0 t fun j => on (copyChild y (j + t) z j)
  pure z

/-- The others. -/
def linkHalf (t : Nat) (p : Addr) (i : Nat) (y z : Addr) :
    Thread BTree Fault Unit := do
  on (setKeysnum y (t - 1))
  Thread.forDown ((← on (node p)).keysnum + 1) (i + 1) fun j =>
    on (copyChild p j p (j + 1))
  on (setChild p (i + 1) (some (some z)))
  Thread.forDown (← on (node p)).keysnum i fun j => on (copyKey p j p (j + 1))
  on (copyKey y (t - 1) p i)
  on (do setKeysnum p ((← node p).keysnum + 1))

theorem splitChild_eq (p : Addr) (i : Nat) (y : Addr) :
    splitChild p i y = (do
      on (record .splitChild none p i (some y))
      let t := (← on (node p)).t
      let z ← fillHalf t y
      linkHalf t p i y z) := by
  simp only [splitChild, fillHalf, linkHalf, bind_assoc, pure_bind]

theorem guar_fillHalf (hb : Searchable S h g b) (ht : 2 ≤ b.t)
    (hy : g y = some k) (hfull : Count b y (2 * b.t - 1)) :
    Guarantees (Keeps S h) (fillHalf b.t y) b g
      fun z b' g' => g' = g ∧ Searchable S h g b' ∧ Frame b b' z ∧ g z = none ∧
        ∃ sh, shapeAt b' z = some sh ∧ Sound g b.t h k sh ∧
          sh.keysnum = b.t - 1 := by
  obtain ⟨shy, hshy, hsy⟩ := hb.node y k hy
  have hnew : ∀ z b', onMem (do newNode (← node y).t (← node y).leaf) b =
      .ok (z, b') → z = b.mem.nodes.length ∧
        b' = { b with mem := b.mem.push (.new b.t shy.leaf) } := by
    intro z b' hon
    obtain ⟨nd, hget, rfl⟩ := get_of_shapeAt hshy
    obtain ⟨m, hrun, rfl⟩ := onMem_ok hon
    have hrun' : (node y >>= fun nd => node y >>= fun nd' =>
        newNode nd.t nd'.leaf) b.mem = .ok (z, m) := hrun
    rw [bind_run_ok (node_run hget), bind_run_ok (node_run hget)] at hrun'
    obtain ⟨rfl, rfl⟩ := Prod.mk.inj (Except.ok.inj hrun')
    have ht : nd.t = b.t := hsy.t_eq
    exact ⟨rfl, by rw [ht]; rfl⟩
  refine ((guar_new hb hnew).mono ?_).bind
  rintro z b₁ g ⟨rfl, hb₁, hf₁, hz, hshz⟩
  have hyz : y ≠ z := by
    rintro rfl
    exact absurd (hy.symm.trans hz) (Option.some_ne_none _)
  -- the keys it is going to hold are counted before they are there
  have hcount : Guarantees (Keeps S h) (on (setKeysnum z (b.t - 1))) b₁ g
      fun _ b' g' => g' = g ∧ Searchable S h g b' ∧ Frame b b' z ∧
        ∃ sh, shapeAt b' z = some sh ∧ Pending g b.t k 0 sh := by
    refine Guarantees.atom fun _ b₂ hrun => ⟨g, ?_⟩
    obtain ⟨sh, hsh, hS, hr⟩ := setKeysnum_reshaped hb₁.keys hrun
    obtain rfl := Option.some.inj (hsh.symm.trans hshz)
    have hkeeps := hr.keeps hS hb₁ hsh
      (fun k hk => absurd (hk.symm.trans hz) (Option.some_ne_none k))
      (fun _ c hc => ⟨c, hc⟩)
    refine ⟨hkeeps, rfl, hkeeps.1, hf₁.trans hr.frame, _, hr.self, ?_⟩
    exact
      { t_eq := rfl
        leaf_iff := hsy.leaf_iff
        keysnum_eq := rfl
        written := fun i hi => absurd hi (Nat.not_lt_zero i)
        points := by
          intro j hj i c hc
          have hcell : (List.replicate (2 * b.t) (none : Option Ptr))[i]? =
              some (some c) := hc
          cases (List.mem_replicate.mp (List.mem_of_getElem? hcell)).2 }
  refine (hcount.mono ?_).bind
  rintro _ b₂ g ⟨rfl, hb₂, hf₂, hpend⟩
  refine ((guar_keysUp hb₂ (Nat.zero_le _)).mono ?_).bind
  rintro _ b₃ g ⟨rfl, hb₃, hsame₃⟩
  have hf₃ := hf₂.trans (hsame₃.frame z)
  rw [← hsame₃.shape] at hpend
  refine ((guar_node hb₃).mono ?_).bind
  rintro ndy b₃ g ⟨rfl, rfl, hndy⟩
  obtain rfl : shy = shape ndy :=
    Option.some.inj ((hf₃.shape y hyz).trans hshy |>.symm.trans hndy)
  have hkids : Guarantees (Keeps S h)
      (Thread.onlyIf (!ndy.leaf)
        (Thread.forUp 0 b.t fun j => on (copyChild y (j + b.t) z j))) b₃ g
      fun _ b' g' => g' = g ∧ Searchable S h g b' ∧ Frame b b' z ∧
        ∃ j sh, shapeAt b' z = some sh ∧ Pending g b.t k j sh ∧
          (k ≠ 0 → b.t ≤ j) := by
    refine Guarantees.onlyIf ?_ ?_
    · intro hinner
      have hk : k ≠ 0 := by
        rintro rfl
        have hleaf : ndy.leaf = true := hsy.leaf_iff.mpr rfl
        rw [hleaf] at hinner
        exact Bool.noConfusion hinner
      have hmove := guar_moveKids hb₃ hy hz hk
        (by rw [hf₃.t]; exact hf₃.count hyz hfull) (by rw [hf₃.t]; exact hpend)
      rw [hf₃.t] at hmove
      refine hmove.mono ?_
      rintro _ b' g' ⟨hg, hb', hf', sh, hsh, hp⟩
      exact ⟨hg, hb', hf₃.trans hf', b.t, sh, hsh, hp, fun _ => Nat.le_refl _⟩
    · intro hleaf
      obtain ⟨sh, hsh, hp⟩ := hpend
      refine ⟨rfl, hb₃, hf₃, 0, sh, hsh, hp, fun hk => ?_⟩
      have hinner : ¬ ndy.leaf = true := fun h => hk (hsy.leaf_iff.mp h)
      exact absurd (by simpa using hleaf) hinner
  refine (hkids.mono ?_).bind
  rintro _ b₄ g ⟨rfl, hb₄, hf₄, j, sh, hsh, hp, hj⟩
  exact ⟨rfl, hb₄, hf₄, hz, sh, hsh, hp.sound hj (by omega) hsy.level_le,
    hp.keysnum_eq⟩

theorem Reshaped.kid {c : Addr} (hr : Reshaped b b' p sh)
    (hc : sh.children[i]? = some (some (some c))) : Kid b' p i c :=
  ⟨sh, hr.self, hc⟩

theorem guar_linkHalf (hb : Searchable S h g b) (ht : 2 ≤ b.t)
    (hp : g p = some (k + 1)) (hy : g y = some k) (hz : g z = none)
    (hfull : Count b y (2 * b.t - 1)) (hnum : Count b p n) (hroom : n < 2 * b.t - 1)
    (hi : i ≤ n) (hkid : Kid b p i y)
    (hhalf : ∃ sh, shapeAt b z = some sh ∧ Sound g b.t h k sh ∧
      sh.keysnum = b.t - 1) :
    Guarantees (Keeps S h) (linkHalf b.t p i y z) b g fun _ b' g' =>
      Searchable S h g' b' ∧ Halved b.t k i p y b' g' := by
  have hpy : p ≠ y := by
    rintro rfl
    exact absurd (Option.some.inj (hp.symm.trans hy)) (Nat.succ_ne_self k)
  have hpz : p ≠ z := by
    rintro rfl
    exact absurd (hp.symm.trans hz) (Option.some_ne_none _)
  have hyz : y ≠ z := by
    rintro rfl
    exact absurd (hy.symm.trans hz) (Option.some_ne_none _)
  -- `y` gives up its upper half; the new node is complete, and may be linked
  have hgive : Guarantees (Keeps S h) (on (setKeysnum y (b.t - 1))) b g
      fun _ b' g' => (∀ q j, g q = some j → g' q = some j) ∧ g' z = some k ∧
        Searchable S h g' b' ∧ Frame b b' y ∧ Count b' y (b.t - 1) := by
    refine Guarantees.atom fun _ b' hrun => ?_
    obtain ⟨sh, hsh, hS, hr⟩ := setKeysnum_reshaped hb.keys hrun
    obtain ⟨sh', hsh', hs⟩ := hb.node y k hy
    obtain rfl : sh' = sh := Option.some.inj (hsh'.symm.trans hsh)
    have hcount : sh'.keysnum = 2 * b.t - 1 := Count.eq ⟨sh', hsh, rfl⟩ hfull
    have hkeeps := hr.keeps hS hb hsh
      (fun j hj => by
        obtain rfl : k = j := Option.some.inj (hy.symm.trans hj)
        exact hs.recount (by omega) fun hk i hle => hs.written hk i (by omega))
      (fun _ c hc => ⟨c, hc⟩)
    obtain ⟨shz, hshz, hsz, hnumz⟩ := hhalf
    have hshz' : shapeAt b' z = some shz :=
      (hr.frame.shape z hyz.symm).trans hshz
    have hpub := hkeeps.1.publish hz hshz' (k := k) (by
      rw [hr.t]
      refine hsz.levels fun q j hq => ?_
      have hqz : q ≠ z := by
        rintro rfl
        exact absurd (hq.symm.trans hz) (Option.some_ne_none j)
      rw [Function.update_of_ne hqz, hq])
    exact ⟨_, hkeeps.trans hpub, hpub.2.levels, Function.update_self _ _ _,
      hpub.1, hr.frame, _, hr.self, rfl⟩
  refine (hgive.mono ?_).bind
  rintro _ b₁ g₁ ⟨hg₁, hz₁, hb₁, hf₁, hleft⟩
  have hp₁ := hg₁ p _ hp
  have hnum₁ := hf₁.count hpy hnum
  have hright₁ : Count b₁ z (b.t - 1) := by
    obtain ⟨sh, hsh, -, hcount⟩ := hhalf
    exact hf₁.count hyz.symm ⟨sh, hsh, hcount⟩
  refine ((guar_node hb₁).mono ?_).bind
  rintro ndp b₁ g₁ ⟨rfl, rfl, hndp⟩
  obtain rfl : ndp.keysnum = n := Count.eq ⟨_, hndp, rfl⟩ hnum₁
  have hkid₁ : ∃ sh, shapeAt b₁ p = some sh ∧ sh.keysnum = ndp.keysnum ∧
      sh.children[i]? = some (some (some y)) := by
    obtain ⟨sh, hsh, hc⟩ := hf₁.kid hpy hkid
    exact ⟨sh, hsh, Count.eq ⟨sh, hsh, rfl⟩ hnum₁, hc⟩
  refine ((guar_shiftKids hb₁ hp₁ hi hkid₁).mono ?_).bind
  rintro _ b₂ g₂ ⟨rfl, hb₂, hf₂, shp, hshp, hnum₂, hkid₂, hlast⟩
  -- from here on other threads can come to the new node
  have hlink : Guarantees (Keeps S h) (on (setChild p (i + 1) (some (some z))))
      b₂ g₂ fun _ b' g' => g' = g₂ ∧ Searchable S h g₂ b' ∧ Frame b₂ b' p ∧
        ∃ sh, shapeAt b' p = some sh ∧ sh.keysnum = ndp.keysnum ∧
          sh.children[i]? = some (some (some y)) ∧
          sh.children[i + 1]? = some (some (some z)) ∧
          ∃ c, sh.children[ndp.keysnum + 1]? = some (some c) := by
    refine Guarantees.atom fun _ b' hrun => ⟨g₂, ?_⟩
    obtain ⟨sh, hsh, hlt, hS, hr⟩ := setChild_reshaped hb₂.keys hrun
    obtain rfl : shp = sh := Option.some.inj (hshp.symm.trans hsh)
    obtain ⟨sh', hsh', hs⟩ := hb₂.node p _ hp₁
    obtain rfl : sh' = shp := Option.some.inj (hsh'.symm.trans hshp)
    have hkeeps := hr.keeps hS hb₂ hshp
      (fun j hj => by
        obtain rfl : k + 1 = j := Option.some.inj (hp₁.symm.trans hj)
        exact hs.link hz₁ (i + 1))
      (fun j c hc => set_written hc (i + 1) _)
    refine ⟨hkeeps, rfl, hkeeps.1, hr.frame, _, hr.self, hnum₂, ?_,
      List.getElem?_set_self hlt, ?_⟩
    · exact (List.getElem?_set_ne (by omega)).trans hkid₂
    · rcases Nat.lt_or_eq_of_le hi with hi | rfl
      · obtain ⟨c, hc⟩ := hlast hi
        exact set_written hc (i + 1) _
      · exact ⟨_, List.getElem?_set_self hlt⟩
  refine (hlink.mono ?_).bind
  rintro _ b₃ g₃ ⟨rfl, hb₃, hf₃, shp', hshp', hnum₃, hy₃, hz₃, hlast₃⟩
  refine ((guar_node hb₃).mono ?_).bind
  rintro ndp' b₃ g₃ ⟨rfl, rfl, hndp'⟩
  have hnum' : ndp'.keysnum = ndp.keysnum :=
    Count.eq ⟨_, hndp', rfl⟩ ⟨shp', hshp', hnum₃⟩
  rw [hnum']
  refine ((guar_keysDown hb₃ hi).mono ?_).bind
  rintro _ b₄ g₄ ⟨rfl, hb₄, hsame₄⟩
  refine ((guar_same hb₄ fun _ _ hrun => copyKey_same hb₄.keys hrun).mono ?_).bind
  rintro _ b₅ g₅ ⟨rfl, hb₅, hsame₅⟩
  have hsame := hsame₄.trans hsame₅
  rw [← hsame.shape] at hshp'
  refine Guarantees.atom fun _ b₆ hrun => ⟨g₅, ?_⟩
  obtain ⟨sh, hsh, hS, hr⟩ := countUp_reshaped hb₅.keys hrun
  obtain rfl : shp' = sh := Option.some.inj (hshp'.symm.trans hsh)
  obtain ⟨sh', hsh', hs⟩ := hb₅.node p _ hp₁
  obtain rfl : sh' = shp' := Option.some.inj (hsh'.symm.trans hshp')
  have ht₅ : b₅.t = b.t := by rw [hsame.t, hf₃.t, hf₂.t, hf₁.t]
  have hkeeps := hr.keeps hS hb₅ hshp'
    (fun j hj => by
      obtain rfl : k + 1 = j := Option.some.inj (hp₁.symm.trans hj)
      refine hs.recount (by omega) fun hk m hm => ?_
      rcases Nat.lt_or_eq_of_le hm with hm | rfl
      · exact hs.written hk m (Nat.lt_succ_iff.mp hm)
      · rw [hnum₃]
        exact hlast₃)
    (fun _ c hc => ⟨c, hc⟩)
  have hf₆ : Frame b₁ b₆ p :=
    ((hf₂.trans hf₃).trans (hsame.frame p)).trans hr.frame
  exact ⟨hkeeps, hkeeps.1, ⟨hr.kid hy₃, hf₆.count hpy.symm hleft⟩, z, hz₁,
    hr.kid hz₃, hf₆.count hpz.symm hright₁⟩

theorem splitChild_guarantees (hb : Searchable S h g b) (ht : 2 ≤ b.t)
    (hp : g p = some (k + 1)) (hy : g y = some k)
    (hfull : Count b y (2 * b.t - 1)) (hnum : Count b p n)
    (hroom : n < 2 * b.t - 1) (hi : i ≤ n) (hkid : Kid b p i y) :
    Guarantees (Keeps S h) (splitChild p i y) b g fun _ b' g' =>
      Searchable S h g' b' ∧ Halved b.t k i p y b' g' := by
  rw [splitChild_eq]
  refine ((guar_same hb fun _ _ hrun => record_same hb.keys hrun).mono ?_).bind
  rintro _ b₁ g ⟨rfl, hb₁, hsame⟩
  refine ((guar_node hb₁).mono ?_).bind
  rintro ndp b₁ g ⟨rfl, rfl, hndp⟩
  have htp : ndp.t = b₁.t := by
    obtain ⟨sh, hsh, hs⟩ := hb₁.node p _ hp
    obtain rfl : sh = shape ndp := Option.some.inj (hsh.symm.trans hndp)
    exact hs.t_eq
  rw [← hsame.t] at ht hfull hroom ⊢
  show Guarantees (Keeps S h) (fillHalf ndp.t y >>= linkHalf ndp.t p i y) _ _ _
  rw [htp]
  have hfull₁ := hsame.count hfull
  have hpz : ∀ {z}, g z = none → p ≠ z := by
    rintro z hz rfl
    exact absurd (hp.symm.trans hz) (Option.some_ne_none _)
  have hyz : ∀ {z}, g z = none → y ≠ z := by
    rintro z hz rfl
    exact absurd (hy.symm.trans hz) (Option.some_ne_none _)
  refine ((guar_fillHalf hb₁ ht hy hfull₁).mono ?_).bind
  rintro z b₂ g ⟨rfl, hb₂, hf₂, hz, hhalf⟩
  rw [← hf₂.t] at ht hfull hfull₁ hroom hhalf ⊢
  exact guar_linkHalf hb₂ ht hp hy hz (hf₂.count (hyz hz) hfull₁)
    (hf₂.count (hpz hz) (hsame.count hnum)) hroom hi
    (hf₂.kid (hpz hz) (hsame.kid hkid)) hhalf

/-! ## `insertNonFull` and `insert` -/

theorem guar_child (hb : Searchable S h g b) :
    Guarantees (Keeps S h) (on (child p i)) b g fun c b' g' =>
      b' = b ∧ g' = g ∧ Kid b p i c := by
  refine Guarantees.atom fun c b' hon => ⟨g, ?_⟩
  obtain ⟨m, hrun, rfl⟩ := onMem_ok hon
  obtain ⟨nd, hget, hcell, rfl⟩ := child_ok hrun
  exact ⟨hb.keeps, rfl, rfl, shape nd, shapeAt_of_get hget, hcell⟩

theorem guar_key (hb : Searchable S h g b) :
    Guarantees (Keeps S h) (on (keyAt p i)) b g
      fun _ b' g' => g' = g ∧ b' = b := by
  refine Guarantees.atom fun v b' hon => ⟨g, ?_⟩
  obtain ⟨m, hrun, rfl⟩ := onMem_ok hon
  obtain ⟨nd, -, -, rfl⟩ := keyAt_ok hrun
  exact ⟨hb.keeps, rfl, rfl⟩

theorem guar_test {key : Int} (hb : Searchable S h g b) :
    Guarantees (Keeps S h) (on (do pure (decide (key < (← keyAt p i))))) b g
      fun _ b' g' => g' = g ∧ b' = b := by
  refine Guarantees.atom fun r b' hon => ⟨g, ?_⟩
  obtain ⟨m, hrun, rfl⟩ := onMem_ok hon
  obtain ⟨v, m₁, hread, hrest⟩ := bind_ok hrun
  obtain ⟨nd, -, -, rfl⟩ := keyAt_ok hread
  obtain ⟨-, rfl⟩ := Prod.mk.inj (Except.ok.inj hrest)
  exact ⟨hb.keeps, rfl, rfl⟩

/-- A node at level `k` that has room for one more key. -/
def Roomy (b : BTree) (g : Levels) (k : Nat) (p : Addr) : Prop :=
  g p = some k ∧ ∃ n, Count b p n ∧ n < 2 * b.t - 1

theorem SameShape.roomy (hs : SameShape b b') (hr : Roomy b g k p) :
    Roomy b' g k p := by
  obtain ⟨hp, n, hnum, hlt⟩ := hr
  exact ⟨hp, n, hs.count hnum, hs.t ▸ hlt⟩

theorem Kid.eq {c d : Addr} (hc : Kid b p i c) (hd : Kid b p i d) : c = d := by
  obtain ⟨sh, hsh, hcell⟩ := hc
  obtain ⟨sh', hsh', hcell'⟩ := hd
  obtain rfl : sh = sh' := Option.some.inj (hsh.symm.trans hsh')
  exact Option.some.inj (Option.some.inj
    (Option.some.inj (hcell.symm.trans hcell')))

/-- Both halves have room. -/
theorem Halved.roomy (hh : Halved b.t k i p y b g) (ht : 2 ≤ b.t)
    (hy : g y = some k) (j : Nat) (hj : j = i ∨ j = i + 1) :
    ∃ c, Kid b p j c ∧ Roomy b g k c := by
  rcases hj with rfl | rfl
  · exact ⟨y, hh.left.1, hy, _, hh.left.2, by omega⟩
  · obtain ⟨z, hz, hkid, hcount⟩ := hh.right
    exact ⟨z, hkid, hz, _, hcount, by omega⟩

/-- The key is put into a leaf. -/
theorem guar_insertLeaf {key : Int} (hkey : S key) (hb : Searchable S h g b)
    (hp : Roomy b g 0 p) :
    Guarantees (Keeps S h)
      (do let pos ← Thread.scanDown
            (fun i => on do pure (decide (key < (← keyAt p i))))
            (fun i => on (copyKey p i p (i + 1))) n
          on (setKey p pos key)
          on (do setKeysnum p ((← node p).keysnum + 1))) b g
      fun _ _ _ => True := by
  refine ((Guarantees.scanDown (I := fun b' g' =>
    g' = g ∧ Searchable S h g b' ∧ SameShape b b') ?_ ?_
    ⟨rfl, hb, .refl b⟩).mono ?_).bind
  · rintro i s g - ⟨rfl, hs, hsame⟩
    refine (guar_test hs).mono ?_
    rintro _ s' g' ⟨hg, rfl⟩
    exact ⟨hg, hs, hsame⟩
  · rintro i s g - ⟨rfl, hs, hsame⟩
    refine (guar_same hs fun _ _ hrun => copyKey_same hs.keys hrun).mono ?_
    exact fun _ b' g' hpost => ⟨hpost.1, hpost.2.1, hsame.trans hpost.2.2⟩
  rintro pos b₁ g ⟨-, rfl, hb₁, hsame₁⟩
  refine ((guar_same hb₁ fun _ _ hrun =>
    setKey_same hb₁.keys hkey hrun).mono ?_).bind
  rintro _ b₂ g ⟨rfl, hb₂, hsame₂⟩
  refine Guarantees.atom fun _ b₃ hrun => ⟨g, ?_⟩
  obtain ⟨sh, hsh, hS, hr⟩ := countUp_reshaped hb₂.keys hrun
  obtain ⟨hlevel, n', hn', hlt⟩ := (hsame₁.trans hsame₂).roomy hp
  obtain rfl := Count.eq ⟨sh, hsh, rfl⟩ hn'
  refine ⟨hr.keeps hS hb₂ hsh (fun k hk => ?_) (fun _ c hc => ⟨c, hc⟩), trivial⟩
  obtain ⟨sh', hsh', hs⟩ := hb₂.node p k hk
  obtain rfl : sh' = sh := Option.some.inj (hsh'.symm.trans hsh)
  obtain rfl : 0 = k := Option.some.inj (hlevel.symm.trans hk)
  exact hs.recount hlt fun hne => absurd rfl hne

theorem insertNonFull_guarantees {key : Int} (hkey : S key) : ∀ (fuel : Nat)
    {p : Addr} {k : Nat} {b : BTree} {g : Levels}, 2 ≤ b.t →
    Searchable S h g b → Roomy b g k p →
    Guarantees (Keeps S h) (insertNonFull fuel p key) b g fun _ _ _ => True := by
  intro fuel
  induction fuel with
  | zero => exact fun _ _ _ _ _ hrun => nomatch hrun
  | succ fuel ih =>
      intro p k b g ht hb hroomy
      refine ((guar_node hb).mono ?_).bind
      rintro nd b g ⟨rfl, rfl, hnd⟩
      obtain ⟨hp, n, hnum, hroom⟩ := id hroomy
      obtain rfl : nd.keysnum = n := Count.eq ⟨_, hnd, rfl⟩ hnum
      obtain ⟨sh, hsh, hs⟩ := hb.node p k hp
      obtain rfl : sh = shape nd := Option.some.inj (hsh.symm.trans hnd)
      have htp : nd.t = b.t := hs.t_eq
      cases k with
      | zero =>
          have hleaf : nd.leaf = true := hs.leaf_iff.mpr rfl
          rw [if_pos hleaf]
          exact guar_insertLeaf hkey hb hroomy
      | succ k =>
          have hinner : ¬ nd.leaf = true :=
            fun hleaf => Nat.succ_ne_zero k (hs.leaf_iff.mp hleaf)
          rw [if_neg hinner]
          refine ((Guarantees.scanDown (I := fun b' g' => b' = b ∧ g' = g)
            ?_ ?_ ⟨rfl, rfl⟩).mono ?_).bind
          · rintro i _ _ - ⟨rfl, rfl⟩
            exact (guar_test hb).mono fun _ _ _ hpost => ⟨hpost.2, hpost.1⟩
          · rintro i _ _ - hsame
            exact hsame
          rintro pos b g ⟨hpos, rfl, rfl⟩
          refine ((guar_child hb).mono ?_).bind
          rintro y b g ⟨rfl, rfl, hkid⟩
          have hy : g y = some k := by
            obtain ⟨sh, hsh, hcell⟩ := hkid
            obtain rfl : sh = shape nd := Option.some.inj (hsh.symm.trans hnd)
            obtain ⟨q, hq, hlevel⟩ := hs.points k rfl pos (some y) hcell
            rwa [← Option.some.inj hq] at hlevel
          refine ((guar_node hb).mono ?_).bind
          rintro ndy b g ⟨rfl, rfl, hndy⟩
          -- where the key goes there is room in the end
          refine (Guarantees.mono (Q := fun pos b' g' =>
            b'.t = b.t ∧ Searchable S h g' b' ∧ ∃ c, Kid b' p pos c ∧
              Roomy b' g' k c) ?_ ?_).bind
          · split
            · rename_i hfull
              rw [htp] at hfull
              have hsplit := splitChild_guarantees hb ht hp hy ⟨_, hndy, hfull⟩
                hnum hroom hpos hkid
              refine ((hsplit.overall (fun hk hk' => hk.trans hk')
                hb.keeps).mono ?_).bind
              rintro _ b₁ g₁ ⟨⟨-, hgrows⟩, hb₁, hhalved⟩
              refine (Guarantees.mono (guar_key hb₁) ?_).bind
              rintro v b₁ g₁ ⟨rfl, rfl⟩
              rw [← hgrows.t] at hhalved ht
              have hy₁ := hgrows.levels y k hy
              split
              · exact ⟨hgrows.t, hb₁, hhalved.roomy ht hy₁ _ (Or.inr rfl)⟩
              · exact ⟨hgrows.t, hb₁, hhalved.roomy ht hy₁ _ (Or.inl rfl)⟩
            · rename_i hroomy
              rw [htp] at hroomy
              obtain ⟨sh, hsh, hsy⟩ := hb.node y k hy
              obtain rfl : sh = shape ndy := Option.some.inj (hsh.symm.trans hndy)
              have hle : ndy.keysnum ≤ 2 * b.t - 1 := hsy.keysnum_le
              exact ⟨rfl, hb, y, hkid, hy, ndy.keysnum, ⟨_, hndy, rfl⟩, by omega⟩
          rintro pos b₁ g₁ ⟨ht₁, hb₁, c, hkid₁, hc⟩
          refine ((guar_child hb₁).mono ?_).bind
          rintro c' b₁ g₁ ⟨rfl, rfl, hkid'⟩
          obtain rfl := hkid₁.eq hkid'
          refine ((guar_same hb₁ fun _ _ hrun =>
            record_same hb₁.keys hrun).mono ?_).bind
          rintro _ b₂ g₂ ⟨rfl, hb₂, hsame⟩
          exact ih (by rw [hsame.t, ht₁]; exact ht) hb₂ (hsame.roomy hc)

/-- The root is assigned to. -/
theorem guar_setRoot {r : Addr} (hb : Searchable S h g b) (hr : g r = some k) :
    Guarantees (Keeps S h) (setRoot (some r)) b g fun _ b' g' =>
      g' = g ∧ Searchable S h g b' ∧ b'.t = b.t ∧ shapeAt b' = shapeAt b := by
  refine Guarantees.atom fun _ b' hrun => ⟨g, ?_⟩
  obtain ⟨-, rfl⟩ := Prod.mk.inj (Except.ok.inj hrun)
  have hb' : Searchable S h g { b with root := some r } :=
    { keys := ⟨hb.keys.keys, hb.keys.old⟩
      root := fun r' hr' => ⟨k, Option.some.inj hr' ▸ hr⟩
      node := hb.node }
  exact ⟨⟨hb', rfl, fun _ _ => id, fun _ _ => id, fun _ => nofun⟩, rfl, hb', rfl, rfl⟩

/-- A tree without nodes. -/
theorem guar_insertFirst {key : Int} (hkey : S key) (ht : 1 ≤ b.t)
    (hb : Searchable S h g b) :
    Guarantees (Keeps S h)
      (do let r ← on (newNode b.t true)
          setRoot (some r)
          on (setKey r 0 key)
          on (setKeysnum r 1)
          pure true) b g
      fun _ _ _ => True := by
  have hnew : ∀ z b', onMem (newNode b.t true) b = .ok (z, b') →
      z = b.mem.nodes.length ∧
        b' = { b with mem := b.mem.push (.new b.t true) } := by
    intro z b' hon
    obtain ⟨m, hrun, rfl⟩ := onMem_ok hon
    obtain ⟨rfl, rfl⟩ := Prod.mk.inj (Except.ok.inj hrun)
    exact ⟨rfl, rfl⟩
  refine ((guar_new hb hnew).mono ?_).bind
  rintro z b₁ g ⟨rfl, hb₁, hf₁, hz, hsh⟩
  -- the node can be come to before it has a key
  have hpub := hb₁.publish (k := 0) hz hsh
    { t_eq := hf₁.t.symm
      leaf_iff := ⟨fun _ => rfl, fun _ => rfl⟩
      keysnum_le := Nat.zero_le _
      level_le := Nat.zero_le _
      written := fun hne => absurd rfl hne
      points := fun j hj => absurd hj.symm (Nat.succ_ne_zero j) }
  have hlevel : Function.update g z (some 0) z = some 0 := Function.update_self _ _ _
  refine ((Guarantees.reghost (fun hk hk' => hk.trans hk') hpub
    (guar_setRoot hpub.1 hlevel)).mono ?_).bind
  rintro _ b₂ g₂ ⟨rfl, hb₂, ht₂, hsh₂⟩
  refine ((guar_same hb₂ fun _ _ hrun =>
    setKey_same hb₂.keys hkey hrun).mono ?_).bind
  rintro _ b₃ g₃ ⟨rfl, hb₃, hsame⟩
  refine Guarantees.bind (Guarantees.atom fun _ b₄ hrun =>
    ⟨Function.update g z (some 0), ?_, .pure trivial⟩)
  obtain ⟨sh, hsh₃, hS, hr⟩ := setKeysnum_reshaped hb₃.keys hrun
  refine hr.keeps hS hb₃ hsh₃ (fun k hk => ?_) fun _ c hc => ⟨c, hc⟩
  obtain ⟨sh', hsh', hs⟩ := hb₃.node z k hk
  obtain rfl : sh' = sh := Option.some.inj (hsh'.symm.trans hsh₃)
  obtain rfl : 0 = k := Option.some.inj (hlevel.symm.trans hk)
  refine hs.recount ?_ fun hne => absurd rfl hne
  rw [hsame.t, ht₂, hf₁.t]
  omega

/-- The root is full, and gets a new root above it. -/
theorem guar_insertFull {key : Int} {r : Addr} {fuel : Nat} (hkey : S key)
    (ht : 2 ≤ b.t) (hb : Searchable S h g b) (hk : k < h) (hr : g r = some k)
    (hfull : Count b r (2 * b.t - 1)) :
    Guarantees (Keeps S h)
      (do let newroot ← on (newNode b.t false)
          on (setChild newroot 0 (some (some r)))
          splitChild newroot 0 r
          let i := if (← on (keyAt newroot 0)) < key then 1 else 0
          let c ← on (child newroot i)
          on (record .insertNonFull (some newroot) c i none)
          insertNonFull fuel c key
          setRoot (some newroot)
          pure true) b g
      fun _ _ _ => True := by
  have hnew : ∀ z b', onMem (newNode b.t false) b = .ok (z, b') →
      z = b.mem.nodes.length ∧
        b' = { b with mem := b.mem.push (.new b.t false) } := by
    intro z b' hon
    obtain ⟨m, hrun, rfl⟩ := onMem_ok hon
    obtain ⟨rfl, rfl⟩ := Prod.mk.inj (Except.ok.inj hrun)
    exact ⟨rfl, rfl⟩
  refine ((guar_new hb hnew).mono ?_).bind
  rintro z b₁ g ⟨rfl, hb₁, hf₁, hz, hshz⟩
  have hrz : r ≠ z := by
    rintro rfl
    exact absurd (hr.symm.trans hz) (Option.some_ne_none k)
  -- the new root is a node with one child, and no thread can come to it yet
  have hlink : Guarantees (Keeps S h) (on (setChild z 0 (some (some r)))) b₁ g
      fun _ b' g' => b'.t = b.t ∧ Searchable S h g' b' ∧ g' r = some k ∧
        g' z = some (k + 1) ∧ Count b' r (2 * b.t - 1) ∧ Count b' z 0 ∧
        Kid b' z 0 r := by
    refine Guarantees.atom fun _ b₂ hrun => ?_
    obtain ⟨sh, hsh, hlt, hS, hre⟩ := setChild_reshaped hb₁.keys hrun
    obtain rfl := Option.some.inj (hsh.symm.trans hshz)
    have hkeeps := hre.keeps hS hb₁ hsh
      (fun j hj => absurd (hj.symm.trans hz) (Option.some_ne_none j))
      (fun _ c hc => set_written hc 0 _)
    have hkid : Kid b₂ z 0 r := hre.kid (List.getElem?_set_self hlt)
    have hr' : Function.update g z (some (k + 1)) r = some k := by
      rw [Function.update_of_ne hrz, hr]
    have hpub := hkeeps.1.publish (k := k + 1) hz hre.self
      { t_eq := (hre.t.trans hf₁.t).symm
        leaf_iff := ⟨nofun, nofun⟩
        keysnum_le := Nat.zero_le _
        level_le := hk
        written := fun _ i hi => by
          obtain rfl := Nat.le_zero.mp hi
          exact ⟨_, List.getElem?_set_self hlt⟩
        points := fun j hj i c hc => by
          obtain rfl : k = j := Nat.succ.inj hj
          rcases eq_or_of_set hc with rfl | hc
          · exact ⟨r, rfl, hr'⟩
          · have hcell : (List.replicate (2 * b.t) (none : Option Ptr))[i]? =
                some (some c) := hc
            cases (List.mem_replicate.mp (List.mem_of_getElem? hcell)).2 }
    exact ⟨_, hkeeps.trans hpub, hre.t.trans hf₁.t, hpub.1, hr',
      Function.update_self _ _ _, hre.frame.count hrz (hf₁.count hrz hfull),
      ⟨_, hre.self, rfl⟩, hkid⟩
  refine (hlink.mono ?_).bind
  rintro _ b₂ g₂ ⟨ht₂, hb₂, hr₂, hz₂, hfull₂, hnum₂, hkid₂⟩
  rw [← ht₂] at ht hfull₂
  have hsplit := splitChild_guarantees hb₂ ht hz₂ hr₂ hfull₂ hnum₂ (by omega)
    (Nat.le_refl 0) hkid₂
  refine ((hsplit.overall (fun hk hk' => hk.trans hk') hb₂.keeps).mono ?_).bind
  rintro _ b₃ g₃ ⟨⟨-, hgrows⟩, hb₃, hhalved⟩
  rw [← hgrows.t] at hhalved ht
  refine ((guar_key hb₃).mono ?_).bind
  rintro v b₃ g₃ ⟨rfl, rfl⟩
  obtain ⟨c, hkid, hc⟩ := hhalved.roomy ht (hgrows.levels r k hr₂)
    (if v < key then 1 else 0) (by split <;> simp)
  refine ((guar_child hb₃).mono ?_).bind
  rintro c' b₃ g₃ ⟨rfl, rfl, hkid'⟩
  obtain rfl := hkid.eq hkid'
  refine ((guar_same hb₃ fun _ _ hrun =>
    record_same hb₃.keys hrun).mono ?_).bind
  rintro _ b₄ g₄ ⟨rfl, hb₄, hsame⟩
  have hinsert := insertNonFull_guarantees hkey fuel (by rw [hsame.t]; exact ht)
    hb₄ (hsame.roomy hc)
  refine ((hinsert.overall (fun hk hk' => hk.trans hk') hb₄.keeps).mono ?_).bind
  rintro _ b₅ g₅ ⟨⟨hb₅, hgrows₅⟩, -⟩
  have hz₅ := hgrows₅.levels z _ (hgrows.levels z _ hz₂)
  exact Guarantees.bind ((guar_setRoot hb₅ hz₅).mono fun _ _ _ _ => trivial)

theorem insert_guarantees {key : Int} (hkey : S key) (ht : 2 ≤ b.t)
    (hb : Searchable S h g b) :
    Guarantees (Keeps S (h + 1)) (insert b.t key) b g fun _ _ _ => True := by
  have hb' := hb.higher (Nat.le_succ h)
  refine Guarantees.bind (Guarantees.atom fun root b₀ hrun => ⟨g, ?_⟩)
  obtain ⟨rfl, rfl⟩ := Prod.mk.inj (Except.ok.inj hrun)
  refine ⟨hb'.keeps, ?_⟩
  cases hroot : b.root with
  | none => exact guar_insertFirst hkey (by omega) hb'
  | some r =>
      obtain ⟨k, hr⟩ := hb.root r hroot
      obtain ⟨shr, -, hsr⟩ := hb.node r k hr
      have hk := hsr.level_le
      refine ((guar_same hb' fun m b' hon => ?_).mono ?_).bind
      · obtain ⟨m, hrun, rfl⟩ := onMem_ok hon
        obtain ⟨-, rfl⟩ := Prod.mk.inj (Except.ok.inj hrun)
        exact ⟨hb.keys, .refl b⟩
      rintro fuel b₁ g ⟨rfl, hb₁, hsame₁⟩
      rw [← hsame₁.t] at ht ⊢
      refine ((guar_node hb₁).mono ?_).bind
      rintro nd b₁ g ⟨rfl, rfl, hnd⟩
      obtain ⟨sh, hsh, hs⟩ := hb₁.node r k hr
      obtain rfl : sh = shape nd := Option.some.inj (hsh.symm.trans hnd)
      have hle : nd.keysnum ≤ 2 * b₁.t - 1 := hs.keysnum_le
      split
      · rename_i hroom
        refine ((guar_same hb₁ fun _ _ hrun =>
          record_same hb₁.keys hrun).mono ?_).bind
        rintro _ b₂ g ⟨rfl, hb₂, hsame₂⟩
        have hroomy : Roomy b₁ g k r :=
          ⟨hr, nd.keysnum, ⟨_, hnd, rfl⟩, by omega⟩
        have hinsert := insertNonFull_guarantees hkey fuel
          (by rw [hsame₂.t]; exact ht) hb₂ (hsame₂.roomy hroomy)
        exact Guarantees.bind (hinsert.mono fun _ _ _ _ => trivial)
      · rename_i hfull
        exact guar_insertFull hkey ht hb₁ (Nat.lt_succ_of_le hk) hr
          ⟨_, hnd, not_ne_iff.mp hfull⟩

end Split

end ParallelBTree.Ports.InsertActions
