import ParallelBTree.Ports.DescentCalls
import ParallelBTree.Ports.Runs

/-!
# Slots that were never written

The constructor of a node initialises neither of its arrays, and a leaf never
gets a child.  Reading a key slot that was not written is a fault, so a call that
returns reads none.  A child slot may be copied unread, and the trace says when
one is that was not written.

Whether a child pointer moves with a key depends on a leaf test.
`borrowFromNext` and `merge` test the child; `borrowFromPrev` tests the node it
is called on, which is never a leaf, and so copies a child slot of the lending
sibling also when that one is a leaf.  It is the only function that does.

## Main results

* `reads_written_iff` — `remove` copies an unwritten slot exactly if it borrows
  from the previous sibling of a leaf, and `insert` never does.
-/

namespace ParallelBTree.Ports

open ParallelBTree.Verified.Program
open ParallelBTree.Verified.Multiway
open ParallelBTree.Ports.NodeMemory
open ParallelBTree.Ports.Represent

namespace NodeMemory

/-- No unwritten slot is copied. -/
def AllWritten (tr : List Event) : Prop := ∀ p i, Event.unwritten p i ∉ tr

theorem allWritten_append {tr tr' : List Event} :
    AllWritten (tr ++ tr') ↔ AllWritten tr ∧ AllWritten tr' := by
  constructor
  · intro h
    exact ⟨fun p i hm => h p i (List.mem_append_left _ hm),
      fun p i hm => h p i (List.mem_append_right _ hm)⟩
  · rintro ⟨h, h'⟩ p i hm
    rcases List.mem_append.mp hm with hm | hm
    · exact h p i hm
    · exact h' p i hm

theorem allWritten_nil : AllWritten [] := fun _ _ hm => by cases hm

/-- Calls are not reads. -/
theorem allWritten_call {c : Call} {tr : List Event} :
    AllWritten (.call c :: tr) ↔ AllWritten tr := by
  simp [AllWritten]

end NodeMemory

namespace Descent

/-- `remove(key)` reaches a node above the leaves, finds the key there not, and
the leaf it has to go on with has too few keys and a previous sibling with keys
to spare. -/
def BorrowsFromLeaf (t : Nat) : (n : Nat) → Int → Tree Int n → Prop
  | 0, _, _ => False
  | 1, key, T =>
      let idx := lowerPos T.keys key
      T.keys[idx]? ≠ some key ∧ kidSize T idx < t ∧ idx ≠ 0 ∧
        t ≤ kidSize T (idx - 1)
  | _ + 2, key, T =>
      match removeNext t key T with
      | none => False
      | some (key', c) => BorrowsFromLeaf t _ key' c

section Insert

theorem insertNonFull_allWritten {t : Nat} (ht : 2 ≤ t) (key : Int) :
    ∀ (n : Nat) (T : Tree Int n) (next : Nat), WF t n T →
      AllWritten (insertNonFull t key n T next).trace := by
  intro n
  induction n with
  | zero => exact fun _ _ _ => allWritten_nil
  | succ n ih =>
      intro T next h
      obtain ⟨pre, U, j, c, next', hcall⟩ := insertNonFull_call key next ht h
      have hpre : AllWritten pre := by
        rcases hcall.before with rfl | ⟨i, y, -, -, rfl⟩
        · exact allWritten_nil
        · exact allWritten_call.mpr allWritten_nil
      rw [hcall.trace, allWritten_append]
      exact ⟨hpre, allWritten_call.mpr (ih c next' hcall.wf)⟩

end Insert

section Remove

variable {t n : Nat}

/-- `fill` copies an unwritten slot when it borrows from the previous one of two
leaves. -/
theorem fill_allWritten {T : Tree Int (n + 1)} {idx : Nat} (h : WF t (n + 1) T)
    (hidx : idx ≤ T.size) :
    AllWritten (fill t T idx).trace ↔
      ¬ (n = 0 ∧ idx ≠ 0 ∧ t ≤ kidSize T (idx - 1)) := by
  have hlen : T.kids.length = T.size + 1 := h.2.1
  unfold fill
  split
  · next hprev =>
    obtain ⟨s, hs, -⟩ := exists_kid (show idx - 1 < T.kids.length by omega)
    rw [called, called, allWritten_call, allWritten_call, staleCopy, hs]
    by_cases hn : n = 0
    · simp [hn, hprev, AllWritten]
    · simp [hn, AllWritten]
  · next hprev =>
    apply iff_of_true
    · split
      · exact allWritten_call.mpr (allWritten_call.mpr allWritten_nil)
      · split <;> exact allWritten_call.mpr (allWritten_call.mpr allWritten_nil)
    · exact fun hn => hprev hn.2

/-- The steps above the last one copy no unwritten slot. -/
theorem removePrelude_allWritten {T : Tree Int (n + 1)} (key : Int)
    (h : WF t (n + 1) T) :
    AllWritten (removePrelude t key T) ↔
      ¬ (n = 0 ∧ T.keys[lowerPos T.keys key]? ≠ some key ∧
        kidSize T (lowerPos T.keys key) < t ∧ lowerPos T.keys key ≠ 0 ∧
        t ≤ kidSize T (lowerPos T.keys key - 1)) := by
  have hidx : lowerPos T.keys key ≤ T.size := by
    rw [lowerPos]
    exact (List.takeWhile_prefix _).length_le
  simp only [removePrelude]
  split
  · next hfound =>
    apply iff_of_true
    · split
      · exact allWritten_call.mpr allWritten_nil
      · exact allWritten_nil
    · exact fun hn => hn.2.1 hfound
  · next hfound =>
    split
    · next hlow =>
      rw [fill_allWritten h hidx]
      simp [hfound, hlow]
    · next hlow =>
      apply iff_of_true allWritten_nil
      exact fun hn => hlow hn.2.2.1

theorem remove_allWritten (ht : 2 ≤ t) :
    ∀ (n : Nat) (key : Int) (T : Tree Int n), WF t n T →
      (n ≠ 0 → 1 ≤ T.size) →
      (AllWritten (remove t n key T).trace ↔ ¬ BorrowsFromLeaf t n key T) := by
  intro n
  induction n with
  | zero =>
      intro key T _ _
      refine iff_of_true ?_ id
      rcases remove_leaf t key T with ⟨ka, kb, -, hrun⟩ | ⟨-, hrun⟩
      · rw [hrun]
        exact allWritten_nil
      · rw [hrun]
        simp [AllWritten]
  | succ n ih =>
      intro key T h hsize
      obtain ⟨U, j, c, key', hcall⟩ :=
        remove_call key ht h (hsize (Nat.succ_ne_zero n))
      have hroom := hcall.room
      have hrec := ih key' c hcall.wf fun _ => by omega
      rw [hcall.trace_eq, allWritten_append, calledIn, calledIn,
        allWritten_append, allWritten_call, allWritten_call, hrec,
        removePrelude_allWritten key h]
      cases n with
      | zero => simp [BorrowsFromLeaf, allWritten_nil]
      | succ n => simp [BorrowsFromLeaf, hcall.next, allWritten_nil]

end Remove

end Descent

namespace BTree

/-- The call returns, and every slot that it reads or copies was written. -/
def ReadsWritten (b : BTree) (op : Op) : Prop :=
  ∃ r b' tr, b.exec op = .ok (r, b') ∧ b'.mem.trace = b.mem.trace ++ tr ∧
    AllWritten tr

/-- The call borrows from the previous sibling of a leaf. -/
def BorrowsFromLeaf (b : BTree) : Op → Prop
  | .insert _ => False
  | .remove key => ∃ n, ∃ T : Tree Int n,
      b.Holding T ∧ Descent.BorrowsFromLeaf b.t n key T

/-- No call of a history does. -/
def NeverBorrowsFromLeaf (b : BTree) : List Op → Prop
  | [] => True
  | op :: ops => ¬ b.BorrowsFromLeaf op ∧
      ∀ r b', b.exec op = .ok (r, b') → b'.NeverBorrowsFromLeaf ops

section Calls

variable {b : BTree} {L : List Int}

theorem Holding.remove_allWritten (ht : 2 ≤ b.t) {n : Nat} {T : Tree Int n}
    (h : b.Holding T) (key : Int) :
    ∃ r b' tr, b.exec (.remove key) = .ok (r, b') ∧
      b'.mem.trace = b.mem.trace ++ tr ∧
      (AllWritten tr ↔ ¬ Descent.BorrowsFromLeaf b.t n key T) := by
  obtain ⟨r, root, m, hexec, htrace, -⟩ :=
    exec_of_returns (.remove key) (remove_holding_traced ht h key)
  refine ⟨r, _, _, hexec, htrace, ?_⟩
  rw [allWritten_append, Descent.called, Descent.called, allWritten_call,
    allWritten_call,
    Descent.remove_allWritten ht n key T h.wf fun _ => h.size]
  simp [allWritten_nil]

/-- What the trace of one call says about unwritten slots. -/
theorem Stores.allWritten (ht : 2 ≤ b.t) (h : b.Stores L) (op : Op) :
    ∃ r b' tr, b.exec op = .ok (r, b') ∧ b'.mem.trace = b.mem.trace ++ tr ∧
      (AllWritten tr ↔ ¬ b.BorrowsFromLeaf op) := by
  cases op with
  | insert key =>
      cases h with
      | vacant h =>
          obtain ⟨r, root, m, hexec, htrace, -⟩ :=
            exec_of_returns (.insert key) (insert_vacant_traced ht h key)
          refine ⟨r, _, [], hexec, ?_, iff_of_true allWritten_nil id⟩
          rw [htrace, List.append_nil]
      | @holding n T h =>
          by_cases hfull : T.size = 2 * b.t - 1
          · obtain ⟨r, root, m, hexec, htrace, -⟩ :=
              exec_of_returns (.insert key) (insert_full_traced ht h key hfull)
            have hwf : WF b.t (n + 1)
                ⟨b.mem.nodes.length, [] ++ [], [] ++ T :: []⟩ := by
              refine ⟨Nat.zero_le _, rfl, fun c hc => ?_⟩
              rw [List.mem_singleton.mp hc]
              exact ⟨by omega, h.wf⟩
            exact ⟨r, _, _, hexec, htrace, iff_of_true
              (Descent.insertNonFull_allWritten ht key _ _ _ hwf) id⟩
          · obtain ⟨r, root, m, hexec, htrace, -⟩ :=
              exec_of_returns (.insert key) (insert_roomy_traced ht h key hfull)
            exact ⟨r, _, _, hexec, htrace, iff_of_true (allWritten_call.mpr
              (Descent.insertNonFull_allWritten ht key _ _ _ h.wf)) id⟩
  | remove key =>
      cases h with
      | vacant h =>
          refine ⟨false, b, [], ?_, by rw [List.append_nil],
            iff_of_true allWritten_nil ?_⟩
          · obtain ⟨t, root, m⟩ := b
            obtain rfl : root = none := h.root
            rfl
          · rintro ⟨n, T, hT, -⟩
            exact Option.some_ne_none _ (hT.root.symm.trans h.root)
      | @holding n T h =>
          obtain ⟨r, b', tr, hexec, htrace, hiff⟩ := h.remove_allWritten ht key
          refine ⟨r, b', tr, hexec, htrace, hiff.trans (not_congr ?_)⟩
          constructor
          · exact fun hb => ⟨n, T, h, hb⟩
          · -- every tree that the object may be taken to hold gives the trace
            rintro ⟨k, U, hU, hb⟩
            obtain ⟨r₁, b₁, tr₁, hexec₁, htrace₁, hiff₁⟩ :=
              hU.remove_allWritten ht key
            obtain ⟨rfl, rfl⟩ :=
              Prod.mk.inj (Except.ok.inj (hexec.symm.trans hexec₁))
            obtain rfl : tr = tr₁ :=
              List.append_cancel_left (htrace.symm.trans htrace₁)
            by_contra hnot
            exact hiff₁.mp (hiff.mpr hnot) hb

theorem Stores.readsWritten_iff (ht : 2 ≤ b.t) (h : b.Stores L) (op : Op) :
    b.ReadsWritten op ↔ ¬ b.BorrowsFromLeaf op := by
  obtain ⟨r, b', tr, hexec, htrace, hiff⟩ := h.allWritten ht op
  rw [← hiff]
  constructor
  · rintro ⟨r₁, b₁, tr₁, hexec₁, htrace₁, hall⟩
    obtain ⟨rfl, rfl⟩ := Prod.mk.inj (Except.ok.inj (hexec.symm.trans hexec₁))
    obtain rfl : tr = tr₁ := List.append_cancel_left (htrace.symm.trans htrace₁)
    exact hall
  · exact fun hall => ⟨r, b', tr, hexec, htrace, hall⟩

/-- A whole history copies no unwritten slot exactly if no call of it borrows
from a leaf. -/
theorem Stores.run_allWritten (ht : 2 ≤ b.t) (h : b.Stores L) (ops : List Op) :
    ∃ b' tr, b.run ops = .ok b' ∧ b'.mem.trace = b.mem.trace ++ tr ∧
      (AllWritten tr ↔ b.NeverBorrowsFromLeaf ops) := by
  induction ops generalizing b L with
  | nil =>
      exact ⟨b, [], rfl, (List.append_nil _).symm,
        iff_of_true allWritten_nil trivial⟩
  | cons op ops ih =>
      obtain ⟨r, b₁, tr₁, hexec, htrace₁, hiff₁⟩ := h.allWritten ht op
      obtain ⟨r', b₁', hexec', ht', h₁⟩ := h.exec ht op
      obtain ⟨rfl, rfl⟩ := Prod.mk.inj (Except.ok.inj (hexec.symm.trans hexec'))
      obtain ⟨b', tr, hrun, htrace, hiff⟩ := ih (ht' ▸ ht) h₁
      refine ⟨b', tr₁ ++ tr, ?_, ?_, ?_⟩
      · simp only [BTree.run, hexec]
        exact hrun
      · rw [htrace, htrace₁, List.append_assoc]
      · rw [allWritten_append, hiff₁, hiff]
        apply and_congr_right
        intro _
        constructor
        · intro hrest r₂ b₂ hexec₂
          obtain ⟨-, rfl⟩ :=
            Prod.mk.inj (Except.ok.inj (hexec.symm.trans hexec₂))
          exact hrest
        · exact fun hrest => hrest r b₁ hexec

end Calls

/-- The slots that a call on a reachable tree reads or copies were all written,
unless it borrows from the previous sibling of a leaf; and so for all the calls
of a history together. -/
theorem reads_written_iff (t : Nat) (ht : 2 ≤ t) (ops : List Op) :
    ∃ b, (BTree.new t).run ops = .ok b ∧
      (∀ op, b.ReadsWritten op ↔ ¬ b.BorrowsFromLeaf op) ∧
      (AllWritten b.mem.trace ↔ (BTree.new t).NeverBorrowsFromLeaf ops) := by
  obtain ⟨b, hrun, rfl, h⟩ := run_stores ht ops
  obtain ⟨b', tr, hrun', htrace, hiff⟩ :=
    Stores.run_allWritten (b := BTree.new b.t) ht (.vacant (vacant_new b.t)) ops
  obtain rfl : b = b' := Except.ok.inj (hrun.symm.trans hrun')
  have htr : b.mem.trace = tr := htrace
  exact ⟨b, hrun, h.readsWritten_iff ht, htr ▸ hiff⟩

theorem reads_written_iff_two :
    ∃ b, (BTree.new 2).run [.insert 1, .insert 2, .insert 3, .insert 0] = .ok b ∧
      (∀ op, b.ReadsWritten op ↔ ¬ b.BorrowsFromLeaf op) ∧
      (AllWritten b.mem.trace ↔ (BTree.new 2).NeverBorrowsFromLeaf
        [.insert 1, .insert 2, .insert 3, .insert 0]) :=
  reads_written_iff 2 (by decide) [.insert 1, .insert 2, .insert 3, .insert 0]

/-- The trace after a history. -/
def traceOf : Except Fault BTree → List Event
  | .ok b => b.mem.trace
  | .error _ => []

/-- The leaf that holds 3 borrows from the leaf that holds 0 and 1, and gets a
copy of child slot 2 of that leaf. -/
theorem remove_copies_unwritten :
    ∃ b, (BTree.new 2).run [.insert 1, .insert 2, .insert 3, .insert 0] = .ok b ∧
      ¬ b.ReadsWritten (.remove 3) := by
  obtain ⟨b, hrun, -⟩ := run_stores (t := 2) (by decide)
    [.insert 1, .insert 2, .insert 3, .insert 0]
  refine ⟨b, hrun, ?_⟩
  rintro ⟨r, b', tr, hexec, htrace, hall⟩
  have hbefore : .unwritten 0 2 ∉ traceOf ((BTree.new 2).run
      [.insert 1, .insert 2, .insert 3, .insert 0]) := by decide +kernel
  have hafter : .unwritten 0 2 ∈ traceOf ((BTree.new 2).run
      [.insert 1, .insert 2, .insert 3, .insert 0, .remove 3]) := by
    decide +kernel
  have hrun' := run_concat hrun hexec
  simp only [List.cons_append, List.nil_append] at hrun'
  rw [hrun] at hbefore
  rw [hrun'] at hafter
  have hsplit : .unwritten 0 2 ∈ b.mem.trace ++ tr := htrace ▸ hafter
  rcases List.mem_append.mp hsplit with hm | hm
  · exact hbefore hm
  · exact hall 0 2 hm

end BTree

end ParallelBTree.Ports
