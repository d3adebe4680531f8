import Mathlib.Data.List.Chain
import ParallelBTree.Ports.DescentCalls
import ParallelBTree.Ports.Height

/-!
# The calls an operation makes

`btree/BTreeNode.h` states what some member functions assume of the node they
are called on, and nothing checks it when the program runs.  `Call.Keeps` is the
assumption of each of them, read off what the call finds.

The recursive calls go down one level each: every one of them is made on a child
of the node the one before it was made on.

## Main results

* `calls_reachable` — every call that `insert` or `remove` makes on a reachable
  tree keeps to its assumption, and the descents take one pass.
-/

namespace ParallelBTree.Ports

open ParallelBTree.Verified.Program
open ParallelBTree.Verified.Multiway
open ParallelBTree.Ports.NodeMemory
open ParallelBTree.Ports.Represent

namespace NodeMemory

/-- What a member function assumes of the node it is called on, and what
`remove` leaves of it; `root` is the root of the tree. -/
def Call.Keeps (t : Nat) (root : Ptr) (c : Call) : Prop :=
  match c.fn with
  | .insertNonFull => c.view.keysnum < 2 * t - 1
  | .splitChild =>
      c.view.keysnum < 2 * t - 1 ∧
        ∃ y, c.arg = some y ∧ c.view.children[c.idx]? = some (y, 2 * t - 1)
  | .remove => root ≠ some c.view.id → t ≤ c.view.keysnum
  | .removed => root ≠ some c.view.id → t - 1 ≤ c.view.keysnum
  | .fill => ∃ q, c.view.children[c.idx]? = some (q, t - 1)
  | .borrowFromPrev =>
      1 ≤ c.idx ∧ ∃ q l, c.view.children[c.idx - 1]? = some (q, l) ∧ t ≤ l
  | .borrowFromNext =>
      ∃ q l, c.view.children[c.idx + 1]? = some (q, l) ∧ t ≤ l
  | .merge =>
      ∃ q r, c.view.children[c.idx]? = some (q, t - 1) ∧
        c.view.children[c.idx + 1]? = some (r, t - 1)

/-- The calls of one function in a trace. -/
def callsOf (fn : Fn) (tr : List Event) : List Call :=
  tr.filterMap fun
    | .call c => if c.fn = fn then some c else none
    | _ => none

/-- The call is made in a member function of `p`, on the child of `p` that its
index says. -/
def Call.OnChildOf (p : Addr) (c : Call) : Prop :=
  ∃ v, c.caller = some v ∧ v.id = p ∧
    v.children[c.idx]? = some (c.view.id, c.view.keysnum)

/-- Every call is made on a child of the receiver of the call before it. -/
def OnePass (cs : List Call) : Prop :=
  cs.IsChain fun c c' => c'.OnChildOf c.view.id

@[simp] theorem callsOf_append (fn : Fn) (tr tr' : List Event) :
    callsOf fn (tr ++ tr') = callsOf fn tr ++ callsOf fn tr' :=
  List.filterMap_append

/-- Every call in a trace keeps to its assumption. -/
def AllKeep (t : Nat) (root : Ptr) (tr : List Event) : Prop :=
  ∀ c, .call c ∈ tr → c.Keeps t root

theorem AllKeep.append {t : Nat} {root : Ptr} {tr tr' : List Event}
    (h : AllKeep t root tr) (h' : AllKeep t root tr') :
    AllKeep t root (tr ++ tr') := by
  intro c hc
  rcases List.mem_append.mp hc with hc | hc
  · exact h c hc
  · exact h' c hc

theorem AllKeep.nil {t : Nat} {root : Ptr} : AllKeep t root [] := by
  intro c hc
  cases hc

theorem AllKeep.cons {t : Nat} {root : Ptr} {c : Call} {tr : List Event}
    (hc : c.Keeps t root) (h : AllKeep t root tr) :
    AllKeep t root (.call c :: tr) := by
  intro c' hc'
  rcases List.mem_cons.mp hc' with heq | hc'
  · obtain rfl : c' = c := Event.call.inj heq
    exact hc
  · exact h c' hc'

end NodeMemory

namespace Descent

/-- The calls of `fn` in a trace, `n` of them, go down from the node `p`. -/
structure GoesDown (fn : Fn) (p : Addr) (n : Nat) (tr : List Event) : Prop where
  length : (callsOf fn tr).length = n
  first : ∀ c ∈ (callsOf fn tr).head?, c.OnChildOf p
  pass : OnePass (callsOf fn tr)

section GoesDown

variable {fn : Fn} {p : Addr} {n : Nat} {pre tr post : List Event} {c : Call}

theorem GoesDown.none (h : callsOf fn tr = []) : GoesDown fn p 0 tr where
  length := by rw [h]; rfl
  first := by
    rw [h]
    intro c hc
    cases hc
  pass := by rw [h]; exact .nil

/-- One call more in front, on the node the others go down from. -/
theorem GoesDown.cons (hfn : c.fn = fn) (hpre : callsOf fn pre = [])
    (hpost : callsOf fn post = []) (hc : c.OnChildOf p)
    (h : GoesDown fn c.view.id n tr) :
    GoesDown fn p (n + 1) (pre ++ (.call c :: tr ++ post)) := by
  have hcalls : callsOf fn (pre ++ (.call c :: tr ++ post)) =
      c :: callsOf fn tr := by
    rw [callsOf_append, callsOf_append, hpre, hpost, List.append_nil,
      List.nil_append]
    simp [callsOf, hfn]
  exact
    { length := by rw [hcalls, List.length_cons, h.length]
      first := by
        rw [hcalls]
        intro c' hc'
        obtain rfl : c = c' := Option.some.inj hc'
        exact hc
      pass := by
        rw [hcalls]
        exact h.pass.cons h.first }

end GoesDown

section Steps

variable {t n : Nat} {T : Tree Int (n + 1)}

/-- A kid within the list shows in the view with its number of keys. -/
theorem viewOf_kidSize {i : Nat} (hi : i < T.kids.length) :
    ∃ q, (viewOf (n + 1) T).children[i]? = some (q, kidSize T i) := by
  obtain ⟨c, hc, hsize⟩ := exists_kid hi
  exact ⟨c.id, by rw [viewOf_kid hc, hsize]⟩

/-- A kid with fewer than `t` keys holds `t - 1`. -/
theorem viewOf_thin {i : Nat} (h : WF t (n + 1) T) (hi : i ≤ T.size)
    (hthin : kidSize T i < t) :
    ∃ q, (viewOf (n + 1) T).children[i]? = some (q, t - 1) := by
  have hlen : T.kids.length = T.size + 1 := h.2.1
  obtain ⟨c, hc, hsize⟩ := exists_kid (show i < T.kids.length by omega)
  have hge := (h.kid (List.mem_of_getElem? hc)).1
  have hexact : c.size = t - 1 := by omega
  exact ⟨c.id, by rw [viewOf_kid hc, hexact]⟩

theorem onChildOf_kid {fn : Fn} {U : Tree Int (n + 1)} {j : Nat}
    {c : Tree Int n} (hid : U.id = T.id) (hc : U.kids[j]? = some c) :
    Call.OnChildOf T.id ⟨fn, some (viewOf (n + 1) U), j, none, viewOf n c⟩ := by
  refine ⟨viewOf (n + 1) U, rfl, hid, ?_⟩
  rw [viewOf_id, viewOf_keysnum]
  exact viewOf_kid hc

end Steps

/-! ## `insertNonFull` -/

/-- Every call below `insertNonFull` keeps to its assumption. -/
theorem insertNonFull_keeps {t : Nat} (ht : 2 ≤ t) (key : Int) (root : Ptr) :
    ∀ (n : Nat) (T : Tree Int n) (next : Nat), WF t n T → T.size < 2 * t - 1 →
      AllKeep t root (insertNonFull t key n T next).trace ∧
      GoesDown .insertNonFull T.id n (insertNonFull t key n T next).trace ∧
      callsOf .remove (insertNonFull t key n T next).trace = [] := by
  intro n
  induction n with
  | zero => exact fun T next _ _ => ⟨.nil, .none rfl, rfl⟩
  | succ n ih =>
      intro T next h hroom
      obtain ⟨pre, U, j, c, next', hcall⟩ := insertNonFull_call key next ht h
      obtain ⟨hkeep, hdown, hrem⟩ := ih c next' hcall.wf hcall.room
      have hsplit : AllKeep t root pre ∧ callsOf .insertNonFull pre = [] ∧
          callsOf .remove pre = [] := by
        rcases hcall.before with rfl | ⟨i, y, hy, hfull, rfl⟩
        · exact ⟨.nil, rfl, rfl⟩
        · refine ⟨.cons ⟨?_, y.id, rfl, ?_⟩ .nil, rfl, rfl⟩
          · rw [viewOf_keysnum]
            exact hroom
          · rw [← hfull]
            exact viewOf_kid hy
      obtain ⟨hpre, hpreIns, hpreRem⟩ := hsplit
      have hcalled : Call.Keeps t root
          ⟨.insertNonFull, some (viewOf (n + 1) U), j, none, viewOf n c⟩ := by
        show (viewOf n c).keysnum < 2 * t - 1
        rw [viewOf_keysnum]
        exact hcall.room
      rw [hcall.trace]
      refine ⟨hpre.append (.cons hcalled hkeep), ?_, ?_⟩
      · have hid : GoesDown .insertNonFull (viewOf n c).id n
            (insertNonFull t key n c next').trace := by
          rw [viewOf_id]
          exact hdown
        have hall := GoesDown.cons rfl hpreIns
          (show callsOf .insertNonFull [] = [] from rfl)
          (onChildOf_kid hcall.id_eq hcall.kid) hid
        rwa [List.append_nil] at hall
      · rw [callsOf_append, hpreRem, List.nil_append]
        exact hrem

/-! ## `remove` -/

/-- `fill` on a kid with `t - 1` keys calls what suits the kid's neighbours. -/
theorem fill_keeps {t n idx : Nat} {T : Tree Int (n + 1)} (root : Ptr)
    (h : WF t (n + 1) T) (hsize : 1 ≤ T.size) (hidx : idx ≤ T.size)
    (hlow : kidSize T idx < t) : AllKeep t root (fill t T idx).trace := by
  have hlen : T.kids.length = T.size + 1 := h.2.1
  have hfill : ∀ tr, AllKeep t root tr →
      AllKeep t root (called .fill T idx none :: tr) :=
    fun tr => AllKeep.cons (viewOf_thin h hidx hlow)
  unfold fill
  split
  · next hprev =>
    obtain ⟨hne, hlend⟩ := hprev
    obtain ⟨q, hq⟩ := viewOf_kidSize (show idx - 1 < T.kids.length by omega)
    refine hfill _ (.cons ⟨Nat.one_le_iff_ne_zero.mpr hne, q, _, hq, hlend⟩ ?_)
    intro c hc
    unfold staleCopy at hc
    split at hc
    · simp at hc
    · cases hc
  · next hprev =>
    split
    · next hnext =>
      obtain ⟨hne, hlend⟩ := hnext
      obtain ⟨q, hq⟩ := viewOf_kidSize (show idx + 1 < T.kids.length by omega)
      exact hfill _ (.cons ⟨q, _, hq, hlend⟩ .nil)
    · next hnext =>
      split
      · next hne =>
        obtain ⟨q, hq⟩ := viewOf_thin h hidx hlow
        obtain ⟨r, hr⟩ := viewOf_thin h (show idx + 1 ≤ T.size by omega)
          (by omega)
        exact hfill _ (.cons ⟨q, r, hq, hr⟩ .nil)
      · next hlast =>
        obtain ⟨i, rfl⟩ : ∃ i, idx = i + 1 := ⟨idx - 1, by omega⟩
        rw [Nat.add_sub_cancel] at hprev ⊢
        obtain ⟨q, hq⟩ := viewOf_thin h (show i ≤ T.size by omega) (by omega)
        obtain ⟨r, hr⟩ := viewOf_thin h hidx hlow
        exact hfill _ (.cons ⟨q, r, hq, hr⟩ .nil)

/-- No descent begins in `fill`. -/
theorem fill_callsOf {t n idx : Nat} {T : Tree Int (n + 1)} {fn : Fn}
    (hfn : fn = .insertNonFull ∨ fn = .remove) :
    callsOf fn (fill t T idx).trace = [] := by
  have hstale : callsOf fn (staleCopy T (idx - 1)) = [] := by
    unfold staleCopy
    split
    · cases T.kids[idx - 1]? <;> rfl
    · rfl
  unfold fill
  split
  · rcases hfn with rfl | rfl <;> exact hstale
  · split
    · rcases hfn with rfl | rfl <;> rfl
    · split <;> rcases hfn with rfl | rfl <;> rfl

/-- What `remove` does before its recursive call. -/
theorem removePrelude_keeps {t n : Nat} {T : Tree Int (n + 1)} (key : Int)
    (root : Ptr) (h : WF t (n + 1) T) (hsize : 1 ≤ T.size) :
    AllKeep t root (removePrelude t key T) := by
  have hidx : lowerPos T.keys key ≤ T.size := by
    rw [lowerPos]
    exact (List.takeWhile_prefix _).length_le
  simp only [removePrelude]
  split
  · next hfound =>
    have hlt : lowerPos T.keys key < T.size :=
      (List.getElem?_eq_some_iff.mp hfound).1
    split
    · next hthin =>
      obtain ⟨q, hq⟩ := viewOf_thin h hidx hthin.1
      obtain ⟨r, hr⟩ := viewOf_thin h hlt hthin.2
      exact .cons ⟨q, r, hq, hr⟩ .nil
    · exact .nil
  · split
    · next hlow => exact fill_keeps root h hsize hidx hlow
    · exact .nil

theorem removePrelude_callsOf {t n : Nat} {T : Tree Int (n + 1)} {fn : Fn}
    (key : Int) (hfn : fn = .insertNonFull ∨ fn = .remove) :
    callsOf fn (removePrelude t key T) = [] := by
  simp only [removePrelude]
  split
  · split
    · rcases hfn with rfl | rfl <;> rfl
    · rfl
  · split
    · exact fill_callsOf hfn
    · rfl

/-- Every call below `remove` keeps to its assumption. -/
theorem remove_keeps {t : Nat} (ht : 2 ≤ t) (root : Ptr) :
    ∀ (n : Nat) (key : Int) (T : Tree Int n), WF t n T →
      (n ≠ 0 → 1 ≤ T.size) →
      AllKeep t root (remove t n key T).trace ∧
      GoesDown .remove T.id n (remove t n key T).trace ∧
      callsOf .insertNonFull (remove t n key T).trace = [] := by
  intro n
  induction n with
  | zero =>
      intro key T _ _
      rcases remove_leaf t key T with ⟨ka, kb, -, hrun⟩ | ⟨-, hrun⟩
      · rw [hrun]
        exact ⟨.nil, .none rfl, rfl⟩
      · rw [hrun]
        refine ⟨?_, .none rfl, rfl⟩
        intro c hc
        simp at hc
  | succ n ih =>
      intro key T h hsize
      obtain ⟨U, j, c, key', hcall⟩ :=
        remove_call key ht h (hsize (Nat.succ_ne_zero n))
      have hroom := hcall.room
      have hone : n ≠ 0 → 1 ≤ c.size := fun _ => by omega
      obtain ⟨hkeep, hdown, hins⟩ := ih key' c hcall.wf hone
      have hpre := removePrelude_keeps key root h (hsize (Nat.succ_ne_zero n))
      have hcalled : Call.Keeps t root
          ⟨.remove, some (viewOf (n + 1) U), j, none, viewOf n c⟩ := by
        intro _
        rw [viewOf_keysnum]
        exact hroom
      have hreturned : Call.Keeps t root
          ⟨.removed, some (viewOf (n + 1) (setKid U j (remove t n key' c).tree)),
            j, none, viewOf n (remove t n key' c).tree⟩ := by
        intro _
        have hleft := (remove_wf ht n key' c hcall.wf hone).2.2
        rw [viewOf_keysnum]
        omega
      rw [hcall.trace_eq]
      refine ⟨hpre.append ((AllKeep.cons hcalled hkeep).append
        (.cons hreturned .nil)), ?_, ?_⟩
      · have hid : GoesDown .remove (viewOf n c).id n
            (remove t n key' c).trace := by
          rw [viewOf_id]
          exact hdown
        exact .cons rfl (removePrelude_callsOf key (Or.inr rfl)) rfl
          (onChildOf_kid hcall.id_eq hcall.kid) hid
      · rw [callsOf_append, removePrelude_callsOf key (Or.inl rfl),
          List.nil_append, callsOf_append]
        exact List.append_eq_nil_iff.mpr ⟨hins, rfl⟩

end Descent

namespace BTree

open Descent

/-- The calls of `fn` in the trace of an operation that turns `b` into `b'`: one
pass from the root down, with no more calls than there were levels.  A root that
the operation puts above the old one has no call of its own. -/
structure RootPass (fn : Fn) (b b' : BTree) (tr : List Event) : Prop where
  first : ∀ c ∈ (callsOf fn tr).head?,
    (c.caller = none ∧ b.root = some c.view.id) ∨
      (b'.root = some b.mem.nodes.length ∧ c.OnChildOf b.mem.nodes.length)
  pass : OnePass (callsOf fn tr)
  few : ∀ h, b.LeafDepth h → (callsOf fn tr).length ≤ h + 1

/-- What one operation puts on the trace. -/
structure Disciplined (b b' : BTree) (tr : List Event) : Prop where
  keeps : AllKeep b.t b.root tr
  inserts : RootPass .insertNonFull b b' tr
  removes : RootPass .remove b b' tr

section Calls

variable {fn : Fn} {b b' : BTree} {n : Nat} {T : Tree Int n}
  {tr post : List Event}

theorem RootPass.none (h : callsOf fn tr = []) : RootPass fn b b' tr where
  first := by
    rw [h]
    intro c hc
    cases hc
  pass := by rw [h]; exact .nil
  few := by rw [h]; exact fun _ _ => Nat.zero_le _

/-- The first call is on the root. -/
theorem Holding.rootPass (h : b.Holding T) (hpost : callsOf fn post = [])
    (hdown : GoesDown fn T.id n tr) :
    RootPass fn b b' (called fn T 0 none :: tr ++ post) := by
  have hid : (viewOf n T).id = T.id := viewOf_id n T
  have hcalls : callsOf fn (called fn T 0 none :: tr ++ post) =
      ⟨fn, none, 0, none, viewOf n T⟩ :: callsOf fn tr := by
    rw [callsOf_append, hpost, List.append_nil]
    simp [callsOf, called]
  refine ⟨?_, ?_, ?_⟩
  · rw [hcalls]
    intro c hc
    obtain rfl := Option.some.inj hc
    exact Or.inl ⟨rfl, by rw [hid]; exact h.root⟩
  · rw [hcalls]
    exact hdown.pass.cons (hid.symm ▸ hdown.first)
  · intro k hk
    rw [hcalls, List.length_cons, hdown.length, (h.leafDepth_iff k).mp hk]

/-- The first call is on a child of the new root. -/
theorem Holding.rootPass_new (h : b.Holding T)
    (hroot : b'.root = some b.mem.nodes.length)
    (hdown : GoesDown fn b.mem.nodes.length (n + 1) tr) :
    RootPass fn b b' tr where
  first := fun c hc => Or.inr ⟨hroot, hdown.first c hc⟩
  pass := hdown.pass
  few := fun k hk => by rw [hdown.length, (h.leafDepth_iff k).mp hk]

theorem Holding.insert_disciplined (ht : 2 ≤ b.t) (h : b.Holding T) (key : Int) :
    ∃ r b' tr, b.exec (.insert key) = .ok (r, b') ∧
      b'.mem.trace = b.mem.trace ++ tr ∧ Disciplined b b' tr := by
  by_cases hfull : T.size = 2 * b.t - 1
  · obtain ⟨r, root, m, hexec, htrace, hout, -⟩ :=
      exec_of_returns (.insert key) (insert_full_traced ht h key hfull)
    have hwf : WF b.t (n + 1) ⟨b.mem.nodes.length, [] ++ [], [] ++ T :: []⟩ := by
      refine ⟨Nat.zero_le _, rfl, fun c hc => ?_⟩
      rw [List.mem_singleton.mp hc]
      exact ⟨by omega, h.wf⟩
    obtain ⟨hkeep, hdown, hrem⟩ := insertNonFull_keeps ht key b.root (n + 1) _
      (b.mem.nodes.length + 1) hwf (show 0 < 2 * b.t - 1 by omega)
    have hroot : root = some b.mem.nodes.length := congrArg Prod.snd hout
    exact ⟨r, _, _, hexec, htrace, hkeep, h.rootPass_new hroot hdown, .none hrem⟩
  · obtain ⟨r, root, m, hexec, htrace, -⟩ :=
      exec_of_returns (.insert key) (insert_roomy_traced ht h key hfull)
    have hle := h.wf.size_le
    have hroom : T.size < 2 * b.t - 1 := by omega
    obtain ⟨hkeep, hdown, hrem⟩ :=
      insertNonFull_keeps ht key b.root n T b.mem.nodes.length h.wf hroom
    have hpass : RootPass .insertNonFull b ⟨b.t, root, m⟩
        (called .insertNonFull T 0 none ::
          (insertNonFull b.t key n T b.mem.nodes.length).trace ++ []) :=
      h.rootPass rfl hdown
    rw [List.append_nil] at hpass
    refine ⟨r, _, _, hexec, htrace, .cons ?_ hkeep, hpass, .none hrem⟩
    show (viewOf n T).keysnum < _
    rw [viewOf_keysnum]
    exact hroom

theorem Holding.remove_disciplined (ht : 2 ≤ b.t) (h : b.Holding T) (key : Int) :
    ∃ r b' tr, b.exec (.remove key) = .ok (r, b') ∧
      b'.mem.trace = b.mem.trace ++ tr ∧ Disciplined b b' tr := by
  obtain ⟨r, root, m, hexec, htrace, -⟩ :=
    exec_of_returns (.remove key) (remove_holding_traced ht h key)
  have hone : n ≠ 0 → 1 ≤ T.size := fun _ => h.size
  obtain ⟨hkeep, hdown, hins⟩ := remove_keeps ht b.root n key T h.wf hone
  have hid := remove_id ht key h.wf hone
  refine ⟨r, _, _, hexec, htrace,
    (AllKeep.cons ?_ hkeep).append (.cons ?_ .nil), .none ?_,
    h.rootPass rfl hdown⟩
  · intro hroot
    rw [viewOf_id] at hroot
    exact absurd h.root hroot
  · intro hroot
    rw [viewOf_id, hid] at hroot
    exact absurd h.root hroot
  · rw [callsOf_append]
    exact List.append_eq_nil_iff.mpr ⟨hins, rfl⟩

end Calls

/-- Whatever was done before, the next `insert` or `remove` calls each member
function on a node that the function is meant for, and both descents take one
pass. -/
theorem calls_reachable (t : Nat) (ht : 2 ≤ t) (ops : List Op) (op : Op) :
    ∃ b r b' tr, (BTree.new t).run ops = .ok b ∧ b.exec op = .ok (r, b') ∧
      b'.mem.trace = b.mem.trace ++ tr ∧ Disciplined b b' tr := by
  obtain ⟨b, hrun, rfl, h⟩ := run_stores ht ops
  generalize ops.foldl sortedStep [] = L at h
  have hcalls : ∃ r b' tr, b.exec op = .ok (r, b') ∧
      b'.mem.trace = b.mem.trace ++ tr ∧ Disciplined b b' tr := by
    cases h with
    | vacant h =>
        have hnone : ∀ b' : BTree, Disciplined b b' [] := fun b' =>
          ⟨.nil, .none rfl, .none rfl⟩
        cases op with
        | insert key =>
            obtain ⟨r, root, m, hexec, htrace, -⟩ :=
              exec_of_returns (.insert key) (insert_vacant_traced ht h key)
            exact ⟨r, _, [], hexec, by rw [htrace, List.append_nil], hnone _⟩
        | remove key =>
            refine ⟨false, b, [], ?_, by rw [List.append_nil], hnone b⟩
            obtain ⟨t, root, m⟩ := b
            obtain rfl : root = none := h.root
            rfl
    | holding T h =>
        cases op with
        | insert key => exact h.insert_disciplined ht key
        | remove key => exact h.remove_disciplined ht key
  obtain ⟨r, b', tr, hexec, htrace, hd⟩ := hcalls
  exact ⟨b, r, b', tr, hrun, hexec, htrace, hd⟩

theorem calls_reachable_two :
    ∃ b r b' tr, (BTree.new 2).run [.insert 1, .insert 2, .insert 3, .insert 4] =
        .ok b ∧ b.exec (.remove 1) = .ok (r, b') ∧
      b'.mem.trace = b.mem.trace ++ tr ∧ Disciplined b b' tr :=
  calls_reachable 2 (by decide) [.insert 1, .insert 2, .insert 3, .insert 4]
    (.remove 1)

end BTree

end ParallelBTree.Ports
