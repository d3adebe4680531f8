import ParallelBTree.Ports.DescentCalls
import ParallelBTree.Ports.Runs

/-!
# What the tree prints

`BTreeNode::remove` writes a line when it comes to a leaf without the key.  It is
called again and again on the way down, with the key or with a neighbour that
has taken its place, in a node that `fill` or `merge` has just rebuilt; still a
line is written exactly if the key that was asked for is not stored, and it is
about that key.

## Main results

* `messages_printed` — a history prints the lines that the sorted list calls for.
-/

namespace ParallelBTree.Ports

open ParallelBTree.Verified.Program
open ParallelBTree.Verified.Multiway
open ParallelBTree.Ports.NodeMemory
open ParallelBTree.Ports.Represent

namespace NodeMemory

/-- The line that an event writes. -/
def Event.line : Event → Option String
  | .print msg => some msg
  | _ => none

/-- What is written, in order. -/
def printed (tr : List Event) : List String := tr.filterMap Event.line

@[simp] theorem printed_nil : printed [] = [] := rfl

@[simp] theorem printed_append (tr tr' : List Event) :
    printed (tr ++ tr') = printed tr ++ printed tr' := List.filterMap_append

@[simp] theorem printed_call (c : Call) (tr : List Event) :
    printed (.call c :: tr) = printed tr := rfl

end NodeMemory

namespace Descent

@[simp] theorem printed_called {n : Nat} (fn : Fn) (T : Tree Int n) (idx : Nat)
    (arg : Ptr) (tr : List Event) :
    printed (called fn T idx arg :: tr) = printed tr := rfl

@[simp] theorem printed_calledIn {n : Nat} (fn : Fn) (T : Tree Int (n + 1))
    (idx : Nat) (c : Tree Int n) (tr : List Event) :
    printed (calledIn fn T idx c :: tr) = printed tr := rfl

/-- Insertion is silent. -/
theorem insertNonFull_printed {t : Nat} (ht : 2 ≤ t) (key : Int) :
    ∀ (n : Nat) (T : Tree Int n) (next : Nat), WF t n T →
      printed (insertNonFull t key n T next).trace = [] := by
  intro n
  induction n with
  | zero => exact fun _ _ _ => rfl
  | succ n ih =>
      intro T next h
      obtain ⟨pre, U, j, c, next', hcall⟩ := insertNonFull_call key next ht h
      have hpre : printed pre = [] := by
        rcases hcall.before with rfl | ⟨i, y, -, -, rfl⟩ <;> rfl
      rw [hcall.trace, printed_append, hpre, printed_calledIn]
      exact ih c next' hcall.wf

section Remove

variable {t n : Nat} {T : Tree Int (n + 1)}

theorem fill_printed (t : Nat) (T : Tree Int (n + 1)) (idx : Nat) :
    printed (fill t T idx).trace = [] := by
  have hstale : ∀ i, printed (staleCopy T i) = [] := by
    intro i
    unfold staleCopy
    split
    · cases T.kids[i]? <;> rfl
    · rfl
  unfold fill
  split
  · simp only [printed_called, hstale]
  · split
    · rfl
    · split <;> rfl

theorem removePrelude_printed (t : Nat) (key : Int) (T : Tree Int (n + 1)) :
    printed (removePrelude t key T) = [] := by
  simp only [removePrelude]
  split
  · split <;> rfl
  · split
    · exact fill_printed t T _
    · rfl

/-- The contents, cut at a kid. -/
theorem inorder_kid (h : WF t (n + 1) T) {i : Nat} {c : Tree Int n}
    (hc : T.kids[i]? = some c) :
    inorder (n + 1) T = beforeKid n i T ++ (inorder n c ++ afterKid n i T) := by
  obtain ⟨p, K, C⟩ := T
  have hlen : C.length = K.length + 1 := h.2.1
  have hi : i < C.length := (List.getElem?_eq_some_iff.mp hc).1
  obtain ⟨ka, kb, A, d, B, rfl, rfl, hka, hA, -⟩ :=
    exists_cut hlen (show i ≤ K.length by omega)
  obtain rfl : d = c := Option.some.inj ((kids_cut hA).symm.trans hc)
  rw [inorder_focus p ka kb A B d (hka.trans hA.symm), beforeKid_mk hka hA,
    afterKid_mk hka hA]

/-- The kid that `remove` goes on with is sorted; and the key it goes on to
remove is there if `key` is stored, and otherwise `key` itself. -/
structure Goes (key : Int) (T : Tree Int (n + 1)) (key' : Int)
    (c : Tree Int n) : Prop where
  sorted : Sorted (inorder n c)
  mem : key ∈ inorder (n + 1) T → key' ∈ inorder n c
  absent : key ∉ inorder (n + 1) T → key' = key ∧ key ∉ inorder n c

/-- The key is in the node. -/
private theorem removeNext_found {key key' : Int} {d : Tree Int n}
    (h : WF t (n + 1) T) (hs : Sorted (inorder (n + 1) T))
    (hfound : T.keys[lowerPos T.keys key]? = some key)
    (hnext : removeNext t key T = some (key', d)) : Goes key T key' d := by
  have hstored : key ∈ inorder (n + 1) T :=
    (keys_sublist _ _).subset (List.mem_of_getElem? hfound)
  obtain ⟨p, K, C⟩ := T
  have hlt := (List.getElem?_eq_some_iff.mp hfound).1
  obtain ⟨ka, k, kb, A, c, s, B, rfl, rfl, hka, hA, hB⟩ :=
    exists_cut_pair h.2.1 hlt
  obtain rfl : k = key := by
    rw [← hka] at hfound
    simpa using hfound
  have hcut := hs
  rw [inorder_pair (hka.trans hA.symm)] at hcut
  have hpair : Sorted (inorder n c ++ k :: inorder n s) :=
    (List.pairwise_append.mp (List.pairwise_append.mp hcut).2.1).1
  obtain ⟨hsc, hsk, -⟩ := List.pairwise_append.mp hpair
  have hss := (List.pairwise_cons.mp hsk).2
  simp only [removeNext, if_pos hfound, kids_cut hA, kids_cut_succ hA] at hnext
  suffices Sorted (inorder n d) ∧ key' ∈ inorder n d from
    ⟨this.1, fun _ => this.2, fun habs => absurd hstored habs⟩
  split at hnext
  · obtain ⟨pred, hpred, hpair⟩ := Option.map_eq_some_iff.mp hnext
    obtain ⟨rfl, rfl⟩ := Prod.mk.inj hpair
    exact ⟨hsc, List.mem_of_getLast? hpred⟩
  · split at hnext
    · obtain ⟨succ, hsucc, hpair⟩ := Option.map_eq_some_iff.mp hnext
      obtain ⟨rfl, rfl⟩ := Prod.mk.inj hpair
      exact ⟨hss, List.mem_of_mem_head? hsucc⟩
    · obtain ⟨rfl, rfl⟩ := Prod.mk.inj (Option.some.inj hnext)
      have hbranch := (h.kid (by simp : c ∈ A ++ c :: s :: B)).2.branching
      rw [inorder_joined n c s k hbranch]
      exact ⟨hpair, by simp⟩

/-- A key that is not in the node is below it exactly if it is below the kid where
the scan stops. -/
private theorem mem_scanned {key : Int} {c : Tree Int n} (h : WF t (n + 1) T)
    (hs : Sorted (inorder (n + 1) T))
    (hfound : T.keys[lowerPos T.keys key]? ≠ some key)
    (hc : T.kids[lowerPos T.keys key]? = some c) :
    key ∈ inorder (n + 1) T ↔ key ∈ inorder n c := by
  obtain ⟨p, K, C⟩ := T
  obtain ⟨ka, kb, rfl, hka, hlt, hge⟩ := takeWhile_cut K key
  have hlen : C.length = (ka ++ kb).length + 1 := h.2.1
  obtain ⟨A, d, B, rfl, hA, hB⟩ := exists_kids_cut hlen
  have hpos : lowerPos (ka ++ kb) key = ka.length := hka.symm
  simp only [hpos] at hfound hc
  obtain rfl : d = c := Option.some.inj ((kids_cut hA).symm.trans hc)
  refine mem_kid_iff hA.symm hB hs hlt fun b hb => ?_
  refine lt_of_le_of_ne (hge b hb) fun hbk => hfound ?_
  rw [List.getElem?_append_right (Nat.le_refl _), Nat.sub_self,
    ← List.head?_eq_getElem?, hbk]
  exact hb

/-- The key is not in the node, and its kid may have been filled. -/
private theorem removeNext_descend {key key' : Int} {d : Tree Int n}
    (ht : 2 ≤ t) (h : WF t (n + 1) T) (hsize : 1 ≤ T.size)
    (hs : Sorted (inorder (n + 1) T))
    (hfound : T.keys[lowerPos T.keys key]? ≠ some key)
    (hnext : removeNext t key T = some (key', d)) : Goes key T key' d := by
  have hidx : lowerPos T.keys key ≤ T.size :=
    (List.takeWhile_prefix _).length_le
  have hfilled := filled_if_low ht h hsize hidx
  have htree : (if kidSize T (lowerPos T.keys key) < t then
      (fill t T (lowerPos T.keys key)).tree else T) =
      (if kidSize T (lowerPos T.keys key) < t then
        fill t T (lowerPos T.keys key) else .same T).tree := by
    split <;> rfl
  simp only [removeNext, if_neg hfound, htree] at hnext
  generalize (if kidSize T (lowerPos T.keys key) < t then
    fill t T (lowerPos T.keys key) else Outcome.same T) = o at hfilled hnext
  obtain ⟨c, c', u, v, hc, hc', -, hcont, -, -⟩ := hfilled.target
  rw [hc'] at hnext
  obtain ⟨rfl, rfl⟩ := Prod.mk.inj (Option.some.inj hnext)
  have hinside : inorder n c' <:+: inorder (n + 1) T := by
    rw [← hfilled.contents, inorder_kid hfilled.wf hc']
    exact ⟨_, _, List.append_assoc _ _ _⟩
  refine ⟨hs.sublist hinside.sublist, fun hmem => ?_, fun habs =>
    ⟨rfl, fun hmem => habs (hinside.subset hmem)⟩⟩
  rw [hcont]
  exact List.mem_append_right u (List.mem_append_left v
    ((mem_scanned h hs hfound hc).mp hmem))

theorem removeNext_goes {key key' : Int} {d : Tree Int n} (ht : 2 ≤ t)
    (h : WF t (n + 1) T) (hsize : 1 ≤ T.size)
    (hs : Sorted (inorder (n + 1) T))
    (hnext : removeNext t key T = some (key', d)) : Goes key T key' d := by
  by_cases hfound : T.keys[lowerPos T.keys key]? = some key
  · exact removeNext_found h hs hfound hnext
  · exact removeNext_descend ht h hsize hs hfound hnext

/-- Removal writes one line if the key is not there, and none if it is. -/
theorem remove_printed {t : Nat} (ht : 2 ≤ t) :
    ∀ (n : Nat) (key : Int) (T : Tree Int n), WF t n T →
      (n ≠ 0 → 1 ≤ T.size) → Sorted (inorder n T) →
      printed (remove t n key T).trace =
        if key ∈ inorder n T then [] else [BTreeNode.notFound key] := by
  intro n
  induction n with
  | zero =>
      intro key T _ _ hs
      rcases remove_leaf t key T with ⟨ka, kb, hK, hrun⟩ | ⟨hnot, hrun⟩
      · have hmem : key ∈ inorder 0 T := by
          show key ∈ T.keys
          rw [hK]
          simp
        rw [hrun, if_pos hmem]
        rfl
      · have habs : key ∉ inorder 0 T := hnot hs
        rw [hrun, if_neg habs]
        rfl
  | succ n ih =>
      intro key T h hsize hs
      have hone := hsize (Nat.succ_ne_zero n)
      obtain ⟨U, j, c, key', hcall⟩ := remove_call key ht h hone
      have hgoes := removeNext_goes ht h hone hs hcall.next
      have hroom := hcall.room
      have hrec := ih key' c hcall.wf (fun _ => by omega) hgoes.sorted
      rw [hcall.trace_eq, printed_append, removePrelude_printed,
        List.nil_append, printed_append, printed_calledIn, printed_calledIn,
        hrec, printed_nil, List.append_nil]
      by_cases hmem : key ∈ inorder (n + 1) T
      · rw [if_pos hmem, if_pos (hgoes.mem hmem)]
      · obtain ⟨rfl, hnot⟩ := hgoes.absent hmem
        rw [if_neg hmem, if_neg hnot]

end Remove

end Descent

namespace BTree

/-- What a call writes when the keys `L` are stored: an empty tree has no node
whose `remove` could write. -/
def said (L : List Int) : Op → List String
  | .insert _ => []
  | .remove key =>
      if L = [] ∨ key ∈ L then [] else [BTreeNode.notFound key]

/-- What a history writes. -/
def messages : List Int → List Op → List String
  | _, [] => []
  | L, op :: ops => said L op ++ messages (sortedStep L op) ops

section Calls

variable {b : BTree} {L : List Int}

/-- One call. -/
theorem Stores.said (ht : 2 ≤ b.t) (h : b.Stores L) (op : Op) :
    ∃ r b' tr, b.exec op = .ok (r, b') ∧ b'.mem.trace = b.mem.trace ++ tr ∧
      printed tr = BTree.said L op := by
  cases op with
  | insert key =>
      cases h with
      | vacant h =>
          obtain ⟨r, root, m, hexec, htrace, -⟩ :=
            exec_of_returns (.insert key) (insert_vacant_traced ht h key)
          exact ⟨r, _, [], hexec, by rw [htrace, List.append_nil], rfl⟩
      | @holding n T h =>
          by_cases hfull : T.size = 2 * b.t - 1
          · obtain ⟨r, root, m, hexec, htrace, -⟩ :=
              exec_of_returns (.insert key) (insert_full_traced ht h key hfull)
            have hwf : WF b.t (n + 1)
                ⟨b.mem.nodes.length, [] ++ [], [] ++ T :: []⟩ := by
              refine ⟨Nat.zero_le _, rfl, fun c hc => ?_⟩
              rw [List.mem_singleton.mp hc]
              exact ⟨by omega, h.wf⟩
            exact ⟨r, _, _, hexec, htrace,
              Descent.insertNonFull_printed ht key _ _ _ hwf⟩
          · obtain ⟨r, root, m, hexec, htrace, -⟩ :=
              exec_of_returns (.insert key) (insert_roomy_traced ht h key hfull)
            refine ⟨r, _, _, hexec, htrace, ?_⟩
            rw [Descent.printed_called]
            exact Descent.insertNonFull_printed ht key _ _ _ h.wf
  | remove key =>
      cases h with
      | vacant h =>
          refine ⟨false, b, [], ?_, by rw [List.append_nil], ?_⟩
          · obtain ⟨t, root, m⟩ := b
            obtain rfl : root = none := h.root
            rfl
          · simp [BTree.said]
      | @holding n T h =>
          obtain ⟨r, root, m, hexec, htrace, -⟩ :=
            exec_of_returns (.remove key) (remove_holding_traced ht h key)
          refine ⟨r, _, _, hexec, htrace, ?_⟩
          have hne : inorder n T ≠ [] := Descent.inorder_ne_nil h.size
          have hline := Descent.remove_printed ht n key T h.wf (fun _ => h.size)
            h.sorted
          rw [printed_append, Descent.printed_called, Descent.printed_called,
            hline]
          simp [BTree.said, hne]

/-- Any number of calls. -/
theorem Stores.messages (ht : 2 ≤ b.t) (h : b.Stores L) (ops : List Op) :
    ∃ b' tr, b.run ops = .ok b' ∧ b'.mem.trace = b.mem.trace ++ tr ∧
      printed tr = BTree.messages L ops := by
  induction ops generalizing b L with
  | nil => exact ⟨b, [], rfl, (List.append_nil _).symm, rfl⟩
  | cons op ops ih =>
      obtain ⟨r, b₁, tr₁, hexec, htrace₁, hsaid⟩ := h.said ht op
      obtain ⟨r', b₁', hexec', ht', h₁⟩ := h.exec ht op
      obtain ⟨rfl, rfl⟩ := Prod.mk.inj (Except.ok.inj (hexec.symm.trans hexec'))
      obtain ⟨b', tr, hrun, htrace, hmsgs⟩ := ih (ht' ▸ ht) h₁
      refine ⟨b', tr₁ ++ tr, ?_, ?_, ?_⟩
      · simp only [BTree.run, hexec]
        exact hrun
      · rw [htrace, htrace₁, List.append_assoc]
      · rw [printed_append, hsaid, hmsgs]
        rfl

end Calls

/-- The output of a history: one line for each removal of a key that is not
stored, unless nothing is, and no other. -/
theorem messages_printed (t : Nat) (ht : 2 ≤ t) (ops : List Op) :
    ∃ b, (BTree.new t).run ops = .ok b ∧
      printed b.mem.trace = messages [] ops := by
  obtain ⟨b, tr, hrun, htrace, hmsgs⟩ :=
    Stores.messages (b := BTree.new t) ht (.vacant (vacant_new t)) ops
  have htr : b.mem.trace = tr := htrace
  exact ⟨b, hrun, htr ▸ hmsgs⟩

/-- The tree is empty at the first removal and after the third. -/
theorem messages_printed_two :
    ∃ b, (BTree.new 2).run [.remove 4, .insert 1, .remove 5, .remove 1,
        .remove 1] = .ok b ∧
      printed b.mem.trace = ["The key 5 is does not exist in the tree\n"] :=
  messages_printed 2 (by decide) [.remove 4, .insert 1, .remove 5, .remove 1,
    .remove 1]

end BTree

end ParallelBTree.Ports
