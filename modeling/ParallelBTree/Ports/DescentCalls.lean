import ParallelBTree.Ports.DescentRemove

/-!
# Where a descent calls itself

One step of `insertNonFull` or `remove` on a tree records what it does to the
node (`InsertCall.before`, `removePrelude`), and then calls itself on one kid.
`InsertCall` and `RemoveCall` say on which, and how the two traces make up the
trace of the whole step.  What is true of a whole trace follows from them by
induction on the height.
-/

namespace ParallelBTree.Ports.Descent

open ParallelBTree.Verified.Multiway
open ParallelBTree.Ports.NodeMemory

section Kids

variable {n : Nat} {T : Tree Int (n + 1)}

theorem viewOf_id (n : Nat) (T : Tree Int n) : (viewOf n T).id = T.id := by
  cases n <;> rfl

theorem viewOf_keysnum (n : Nat) (T : Tree Int n) :
    (viewOf n T).keysnum = T.size := by
  cases n <;> rfl

/-- A view shows the kids. -/
theorem viewOf_kid {i : Nat} {c : Tree Int n} (hc : T.kids[i]? = some c) :
    (viewOf (n + 1) T).children[i]? = some (c.id, c.size) := by
  rw [viewOf, List.getElem?_map, hc]
  rfl

theorem exists_kid {i : Nat} (hi : i < T.kids.length) :
    ∃ c, T.kids[i]? = some c ∧ kidSize T i = c.size := by
  have hc := List.getElem?_eq_getElem hi
  refine ⟨_, hc, ?_⟩
  rw [kidSize, hc]
  rfl

end Kids

/-! ## `insertNonFull` -/

/-- `insertNonFull(key)` on the inner node `T` records `pre` and then calls
itself on kid `j` of `U`, which is `c`. -/
structure InsertCall (t : Nat) (key : Int) {n : Nat} (T : Tree Int (n + 1))
    (next : Nat) (pre : List Event) (U : Tree Int (n + 1)) (j : Nat)
    (c : Tree Int n) (next' : Nat) : Prop where
  id_eq : U.id = T.id
  kid : U.kids[j]? = some c
  wf : WF t n c
  room : c.size < 2 * t - 1
  before : pre = [] ∨ ∃ i y, T.kids[i]? = some y ∧ y.size = 2 * t - 1 ∧
    pre = [called .splitChild T i (some y.id)]
  trace : (insertNonFull t key (n + 1) T next).trace =
    pre ++ calledIn .insertNonFull U j c :: (insertNonFull t key n c next').trace

theorem insertNonFull_call {t n : Nat} (key : Int) {T : Tree Int (n + 1)}
    (next : Nat) (ht : 2 ≤ t) (h : WF t (n + 1) T) :
    ∃ pre U j c next', InsertCall t key T next pre U j c next' := by
  obtain ⟨p, K, C⟩ := T
  obtain ⟨ka, kb, rfl, hka, -, -⟩ := rdropWhile_cut K key
  have hlen : C.length = (ka ++ kb).length + 1 := h.2.1
  obtain ⟨A, y, B, rfl, hA, -⟩ := exists_kids_cut hlen
  have hkid : (A ++ y :: B)[ka.length]? = some y := kids_cut hA
  have hywf := (h.kid (by simp : y ∈ A ++ y :: B)).2
  have hyle := hywf.size_le
  by_cases hfull : y.size = 2 * t - 1
  · obtain ⟨m, M, hm⟩ := exists_middle (by omega) hfull
    obtain ⟨hleft, hright⟩ := splitLeft_splitRight_wf next (by omega) hm hywf
      (by omega)
    have hrun := insertNonFull_split (p := p) (B := B) next hA hka hfull hm
    have hhalf : y.keys.length = 2 * t - 1 := hfull
    by_cases hmk : m < key
    · -- the right half takes the key
      have hlist : A ++ y.splitLeft t :: y.splitRight t next :: B =
          (A ++ [y.splitLeft t]) ++ y.splitRight t next :: B := by simp
      rw [if_pos hmk, hlist, insertIn_mk _ (by simp [hA])] at hrun
      refine ⟨[called .splitChild (Node.mk p (ka ++ kb) (A ++ y :: B) :
        Tree Int (n + 1)) ka.length (some y.id)], ⟨p, ka ++ m :: kb,
        (A ++ [y.splitLeft t]) ++ y.splitRight t next :: B⟩, ka.length + 1,
        y.splitRight t next, next + 1, ?_⟩
      exact
        { id_eq := rfl
          kid := kids_cut (by simp [hA])
          wf := hright
          room := by
            simp only [Node.size, Node.splitRight, List.length_drop]
            omega
          before := Or.inr ⟨ka.length, y, hkid, hfull, rfl⟩
          trace := by rw [hrun]; rfl }
    · rw [if_neg hmk, insertIn_mk _ hA] at hrun
      refine ⟨[called .splitChild (Node.mk p (ka ++ kb) (A ++ y :: B) :
        Tree Int (n + 1)) ka.length (some y.id)], ⟨p, ka ++ m :: kb,
        A ++ y.splitLeft t :: y.splitRight t next :: B⟩, ka.length,
        y.splitLeft t, next + 1, ?_⟩
      exact
        { id_eq := rfl
          kid := kids_cut hA
          wf := hleft
          room := by
            simp only [Node.size, Node.splitLeft, List.length_take]
            omega
          before := Or.inr ⟨ka.length, y, hkid, hfull, rfl⟩
          trace := by rw [hrun]; rfl }
  · have hrun := insertNonFull_descend (p := p) (B := B) next hA hka hfull
    rw [insertIn_mk _ hA] at hrun
    refine ⟨[], ⟨p, ka ++ kb, A ++ y :: B⟩, ka.length, y, next, ?_⟩
    exact
      { id_eq := rfl
        kid := hkid
        wf := hywf
        room := by omega
        before := Or.inl rfl
        trace := by rw [hrun]; rfl }

/-! ## `remove` -/

/-- The key that `remove(key)` on the inner node `T` goes on to remove, and the
kid it removes that key from, as `T` will have it by then. -/
def removeNext (t : Nat) (key : Int) {n : Nat} (T : Tree Int (n + 1)) :
    Option (Int × Tree Int n) :=
  let idx := lowerPos T.keys key
  if T.keys[idx]? = some key then
    match T.kids[idx]?, T.kids[idx + 1]? with
    | some c, some s =>
        if t ≤ c.size then (inorder n c).getLast?.map fun pred => (pred, c)
        else if t ≤ s.size then (inorder n s).head?.map fun succ => (succ, s)
        else some (key, c.joined key s)
    | _, _ => none
  else
    let T' := if kidSize T idx < t then (fill t T idx).tree else T
    (T'.kids[fillPos idx T.size T'.size]?).map fun c => (key, c)

/-- What `remove(key)` on the inner node `T` records before it goes on. -/
def removePrelude (t : Nat) (key : Int) {n : Nat} (T : Tree Int (n + 1)) :
    List Event :=
  let idx := lowerPos T.keys key
  if T.keys[idx]? = some key then
    if kidSize T idx < t ∧ kidSize T (idx + 1) < t then
      [called .merge T idx none]
    else []
  else if kidSize T idx < t then (fill t T idx).trace
  else []

/-- `remove(key)` on the inner node `T` goes on with removing `key'` from kid
`j` of `U`, which is `c`. -/
structure RemoveCall (t : Nat) (key : Int) {n : Nat} (T U : Tree Int (n + 1))
    (j : Nat) (c : Tree Int n) (key' : Int) : Prop where
  id_eq : U.id = T.id
  kid : U.kids[j]? = some c
  wf : WF t n c
  room : t ≤ c.size
  next : removeNext t key T = some (key', c)
  trace : (remove t (n + 1) key T).trace =
    removePrelude t key T ++ (removeIn (remove t n key') U j).trace

/-- The key is in the node. -/
private theorem removeCall_found {t n p : Nat} {key : Int} {ka kb : List Int}
    {A B : List (Tree Int n)} {c s : Tree Int n} (ht : 2 ≤ t)
    (h : WF t (n + 1) ⟨p, ka ++ key :: kb, A ++ c :: s :: B⟩)
    (hA : A.length = ka.length)
    (hpos : lowerPos (ka ++ key :: kb) key = ka.length) :
    ∃ U j d key', RemoveCall t key
      (Node.mk p (ka ++ key :: kb) (A ++ c :: s :: B) : Tree Int (n + 1))
      U j d key' := by
  obtain ⟨hclo, hcwf⟩ := h.kid (by simp : c ∈ A ++ c :: s :: B)
  obtain ⟨hslo, hswf⟩ := h.kid (by simp : s ∈ A ++ c :: s :: B)
  have hc : (A ++ c :: s :: B)[ka.length]? = some c := kids_cut hA
  have hs : (A ++ c :: s :: B)[ka.length + 1]? = some s := kids_cut_succ hA
  have hfound : (ka ++ key :: kb)[ka.length]? = some key := by simp
  have hprelude : removePrelude t key
      (Node.mk p (ka ++ key :: kb) (A ++ c :: s :: B) : Tree Int (n + 1)) =
      if c.size < t ∧ s.size < t then [called .merge
        (Node.mk p (ka ++ key :: kb) (A ++ c :: s :: B) : Tree Int (n + 1))
        ka.length none] else [] := by
    simp only [removePrelude, hpos, if_pos hfound, kidSize_mk hA,
      kidSize_mk_succ hA]
  by_cases hct : t ≤ c.size
  · obtain ⟨pred, hpred⟩ : ∃ pred, (inorder n c).getLast? = some pred :=
      ⟨_, List.getLast?_eq_some_getLast (inorder_ne_nil (by omega))⟩
    refine ⟨setKeyOf ⟨p, ka ++ key :: kb, A ++ c :: s :: B⟩ ka.length pred,
      ka.length, c, pred, ?_⟩
    exact
      { id_eq := rfl
        kid := hc
        wf := hcwf
        room := hct
        next := by
          simp only [removeNext, hpos, if_pos hfound, hc, hs, if_pos hct, hpred]
          rfl
        trace := by
          rw [hprelude, if_neg (by omega)]
          simp only [remove, hpos, if_pos hfound, removeFromNonLeaf, hc, hs,
            if_pos hct, hpred]
          rfl }
  · by_cases hst : t ≤ s.size
    · obtain ⟨succ, hsucc⟩ : ∃ succ, (inorder n s).head? = some succ :=
        Option.isSome_iff_exists.mp (List.isSome_head?.mpr
          (inorder_ne_nil (by omega)))
      refine ⟨setKeyOf ⟨p, ka ++ key :: kb, A ++ c :: s :: B⟩ ka.length succ,
        ka.length + 1, s, succ, ?_⟩
      exact
        { id_eq := rfl
          kid := hs
          wf := hswf
          room := hst
          next := by
            simp only [removeNext, hpos, if_pos hfound, hc, hs, if_neg hct,
              if_pos hst, hsucc]
            rfl
          trace := by
            rw [hprelude, if_neg (by omega)]
            simp only [remove, hpos, if_pos hfound, removeFromNonLeaf, hc, hs,
              if_neg hct, if_pos hst, hsucc]
            rfl }
    · refine ⟨⟨p, ka ++ kb, A ++ c.joined key s :: B⟩, ka.length,
        c.joined key s, key, ?_⟩
      exact
        { id_eq := rfl
          kid := kids_cut hA
          wf := hcwf.joined hswf (by omega)
          room := by
            simp only [Node.size, Node.joined, List.length_append,
              List.length_cons] at hclo hslo ⊢
            omega
          next := by
            simp only [removeNext, hpos, if_pos hfound, hc, hs, if_neg hct,
              if_neg hst]
          trace := by
            rw [hprelude, if_pos (by omega)]
            simp only [remove, hpos, if_pos hfound, removeFromNonLeaf, hc, hs,
              if_neg hct, if_neg hst, Outcome.andThen, mergeAt, merge_mk rfl hA] }

theorem remove_call {t n : Nat} (key : Int) {T : Tree Int (n + 1)} (ht : 2 ≤ t)
    (h : WF t (n + 1) T) (hsize : 1 ≤ T.size) :
    ∃ U j c key', RemoveCall t key T U j c key' := by
  have hidx : lowerPos T.keys key ≤ T.size := by
    rw [lowerPos]
    exact (List.takeWhile_prefix _).length_le
  by_cases hfound : T.keys[lowerPos T.keys key]? = some key
  · obtain ⟨p, K, C⟩ := T
    have hlt := (List.getElem?_eq_some_iff.mp hfound).1
    obtain ⟨ka, k, kb, A, c, s, B, rfl, rfl, hka, hA, -⟩ :=
      exists_cut_pair h.2.1 hlt
    obtain rfl : k = key := by
      rw [← hka] at hfound
      simpa using hfound
    exact removeCall_found ht h (hA.trans hka.symm) hka.symm
  · have hfilled := filled_if_low ht h hsize hidx
    have hprelude : removePrelude t key T =
        (if kidSize T (lowerPos T.keys key) < t then
          fill t T (lowerPos T.keys key) else .same T).trace := by
      simp only [removePrelude, if_neg hfound]
      split <;> rfl
    have hnext : removeNext t key T =
        ((if kidSize T (lowerPos T.keys key) < t then
          fill t T (lowerPos T.keys key) else .same T).tree.kids[
            fillPos (lowerPos T.keys key) T.size
              (if kidSize T (lowerPos T.keys key) < t then
                fill t T (lowerPos T.keys key) else .same T).tree.size]?).map
          fun c => (key, c) := by
      simp only [removeNext, if_neg hfound]
      split <;> rfl
    have hrun : remove t (n + 1) key T =
        (if kidSize T (lowerPos T.keys key) < t then
          fill t T (lowerPos T.keys key) else .same T).andThen fun T' =>
            removeIn (remove t n key) T'
              (fillPos (lowerPos T.keys key) T.size T'.size) := by
      simp only [remove, if_neg hfound]
    generalize (if kidSize T (lowerPos T.keys key) < t then
      fill t T (lowerPos T.keys key) else Outcome.same T) = o at *
    obtain ⟨-, c, u, v, -, hc, hroom, -⟩ := hfilled.target
    refine ⟨o.tree, fillPos (lowerPos T.keys key) T.size o.tree.size, c, key, ?_⟩
    exact
      { id_eq := hfilled.id_eq
        kid := hc
        wf := (hfilled.wf.kid (List.mem_of_getElem? hc)).2
        room := hroom
        next := by rw [hnext, hc]; rfl
        trace := by rw [hrun, hprelude]; rfl }

/-- The trace of the recursive call. -/
theorem RemoveCall.trace_eq {t n j : Nat} {key key' : Int}
    {T U : Tree Int (n + 1)} {c : Tree Int n} (h : RemoveCall t key T U j c key') :
    (remove t (n + 1) key T).trace =
      removePrelude t key T ++ (calledIn .remove U j c ::
        (remove t n key' c).trace ++
          [calledIn .removed (setKid U j (remove t n key' c).tree) j
            (remove t n key' c).tree]) := by
  rw [h.trace, removeIn, h.kid]

end ParallelBTree.Ports.Descent
